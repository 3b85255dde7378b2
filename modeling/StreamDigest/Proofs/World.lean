import StreamDigest.Proofs.Pool.Account
import StreamDigest.Proofs.Session

namespace StreamDigest

/-- The computations of a pool, and where it takes its keys from. -/
structure Host (σ : Type) where
  place : Place
  arena : Arena (Computation σ) := {}

def Host.boundKeys {σ : Type} (host : Host σ) : List Key :=
  host.arena.contents.flatMap Pool.boundBy

/-- A session, and any number of pools of its service that take their keys from its places. -/
structure World (σ : Type) where
  session : Session σ
  hosts : Array (Host σ)

inductive World.Action
  | session (a : Session.Action)
  | pool (host : Nat) (a : Pool.Action)

inductive World.Reply
  | session (r : Session.Reply)
  | pool (r : Pool.Reply)
  | absent

namespace World

variable {σ : Type} {w : World σ}

def pool? (w : World σ) (host : Host σ) : Option (Pool σ) :=
  (w.session.custody? host.place).map fun custody =>
    { service := w.session.service, custody, arena := host.arena }

def keep (w : World σ) (number : Nat) (host : Host σ) (p : Pool σ) : World σ where
  session := w.session.keep host.place p.custody
  hosts := w.hosts.setIfInBounds number { host with arena := p.arena }

def perform? (w : World σ) : Action → Option (Reply × World σ)
  | .session a =>
    let (r, session) := w.session.perform a
    some (.session r, { w with session })
  | .pool number a => do
    let host ← w.hosts[number]?
    let p ← w.pool? host
    let (r, q) := p.perform a
    return (.pool r, w.keep number host q)

def perform (w : World σ) (a : Action) : Reply × World σ :=
  (w.perform? a).getD (.absent, w)

def after (w : World σ) (actions : List Action) : World σ :=
  actions.foldl (fun w a => (w.perform a).2) w

/-- Empty stores, and pools without computations. -/
def start (service : Service σ) (stores : Nat) (places : List Place) : World σ where
  session := { service, stores := Array.replicate stores {} }
  hosts := (places.map fun place => { place }).toArray

/-- The keys that the caller and all computations that are not over hold on to. -/
def held (w : World σ) : List Key :=
  w.session.holdings ++ w.hosts.toList.flatMap Host.boundKeys

def stored (stores : Array KeyStore) : List Key :=
  stores.toList.flatMap fun s => s.entries.map Entry.key

/-- Where an action takes its keys from. -/
def place (w : World σ) : Action → Place
  | .session a => a.place
  | .pool number _ => (w.hosts[number]?.map Host.place).getD .direct

/-- The signing copy that an action asks for and gets. -/
def copyMade (w : World σ) : Action → Option Key
  | .session a => w.session.copyMade a
  | .pool number a => do (← w.pool? (← w.hosts[number]?)).copyMade a

/-- The signing copies that a store hands out in a step. -/
def handsOut (w : World σ) (n : Nat) (a : Action) : List Key :=
  if w.place a = .store n then (w.copyMade a).toList else []

/-- The signing copies that a store hands out in a run, the latest first. -/
def handed (w : World σ) (n : Nat) : List Action → List Key
  | [] => []
  | a :: rest => (w.perform a).2.handed n rest ++ w.handsOut n a

/-- The books of all stores, of which each has handed out the copies `handed`. -/
structure Accounted (w : World σ) (handed : Nat → List Key) : Prop where
  balanced : w.session.vault.Balanced (stored w.session.stores ++ w.held)
  tidy : ∀ n k, w.session.custody? (.store n) = some k → k.Tidy
  listed : ∀ n k, w.session.custody? (.store n) = some k → k.vault.Listed k.copies (handed n)
  holds : ∀ n, ∀ key ∈ handed n, w.session.vault.Holds key
  apart : ∀ n, ∀ key ∈ handed n, key ∉ stored w.session.stores
  home : ∀ m n key, key ∈ handed m → key ∈ handed n → m = n
  range : ∀ host ∈ w.hosts, host.arena.FreeInRange

def handedAt (handed : Nat → List Key) : Place → List Key
  | .direct => []
  | .store n => handed n

theorem custody?_eq_some {s : Session σ} {site : Place} {k : Custody}
    (h : s.custody? site = some k) : k.vault = s.vault ∧
      ((site = .direct ∧ k.source = .direct) ∨
        ∃ n store, site = .store n ∧ s.stores[n]? = some store ∧ k.source = .store store) := by
  cases site with
  | direct =>
    cases h
    exact ⟨rfl, .inl ⟨rfl, rfl⟩⟩
  | store n =>
    obtain ⟨store, hs, rfl⟩ := Option.map_eq_some_iff.mp h
    exact ⟨rfl, .inr ⟨n, store, rfl, hs, rfl⟩⟩

/-- The stored keys of one source before and after a step, and those of all others. -/
theorem stored_keep {s : Session σ} {site : Place} {k l : Custody} (h : s.custody? site = some k)
    (kind : l.source = .direct ↔ k.source = .direct) :
    ∃ rest, (stored s.stores).Perm (k.keys ++ rest) ∧
      (stored (s.keep site l).stores).Perm (l.keys ++ rest) := by
  obtain ⟨_, ⟨rfl, hk⟩ | ⟨n, store, rfl, hs, hk⟩⟩ := custody?_eq_some h
  · have none_of {m : Custody} (hm : m.source = .direct) : m.keys = [] := by
      simp [Custody.keys, Custody.entries, Custody.stock, hm]
    refine ⟨stored s.stores, ?_, ?_⟩
    · rw [none_of hk]
      exact .refl _
    · rw [none_of (kind.mpr hk)]
      exact .refl _
  · have keys_of {m : Custody} {store : KeyStore} (hm : m.source = .store store) :
        m.keys = store.entries.map Entry.key := by
      simp [Custody.keys, Custody.entries, Custody.stock, hm]
    cases hl : l.source with
    | direct =>
      rw [kind.mp hl] at hk
      cases hk
    | store after =>
      obtain ⟨rest, hbefore, hafter⟩ := exists_perm_array_set hs after
      have hkeep : (s.keep (.store n) l).stores = s.stores.setIfInBounds n after := by
        simp [Session.keep, hl]
      rw [keys_of hk, keys_of hl, hkeep]
      exact ⟨_, hbefore.flatMap_right _, hafter.flatMap_right _⟩

variable {s t : Session σ} {site : Place} {k l : Custody} {handed : Nat → List Key}
  {new : List Key}

/-- Where the keys of a store are after a step on the keys at some place. -/
theorem custody?_after (hk : s.custody? site = some k)
    (kind : l.source = .direct ↔ k.source = .direct) (hv : t.vault = l.vault)
    (hs : t.stores = (s.keep site l).stores) {n : Nat} {m : Custody}
    (hm : t.custody? (.store n) = some m) : (site = .store n ∧ m = l) ∨
      (site ≠ .store n ∧ ∃ k', s.custody? (.store n) = some k' ∧ m = { k' with vault := l.vault }) := by
  obtain ⟨store, hstore, rfl⟩ := Option.map_eq_some_iff.mp hm
  obtain ⟨_, ⟨rfl, _⟩ | ⟨i, before, rfl, hi, hk⟩⟩ := custody?_eq_some hk
  · refine .inr ⟨nofun, ⟨s.vault, .store store⟩, ?_, by rw [hv]⟩
    rw [hs] at hstore
    exact Option.map_eq_some_iff.mpr ⟨store, hstore, rfl⟩
  · cases hl : l.source with
    | direct =>
      rw [kind.mp hl] at hk
      cases hk
    | store after =>
      have hkeep : (s.keep (.store i) l).stores = s.stores.setIfInBounds i after := by
        simp [Session.keep, hl]
      rw [hs, hkeep, Array.getElem?_setIfInBounds] at hstore
      split at hstore
      · next hn =>
        subst hn
        refine .inl ⟨rfl, ?_⟩
        split at hstore
        · cases hstore
          rw [hv, ← hl]
        · cases hstore
      · next hn =>
        refine .inr ⟨fun h => hn (Place.store.inj h), ⟨s.vault, .store store⟩, ?_, by rw [hv]⟩
        exact Option.map_eq_some_iff.mpr ⟨store, hstore, rfl⟩

/-- The books of one source, as part of those of all. -/
theorem Accounted.account {rest : List Key} (h : w.Accounted handed)
    (hk : w.session.custody? site = some k)
    (hp : (stored w.session.stores).Perm (k.keys ++ rest)) :
    k.Account (handedAt handed site) (rest ++ w.held) := by
  obtain ⟨hv, hsite⟩ := custody?_eq_some hk
  have hb : k.vault.Balanced (k.keys ++ (rest ++ w.held)) := by
    rw [hv, ← List.append_assoc]
    exact h.balanced.perm (hp.append_right _)
  obtain ⟨rfl, hd⟩ | ⟨n, store, rfl, hs, _⟩ := hsite
  · have hentries : k.entries = [] := by simp [Custody.entries, Custody.stock, hd]
    have hcopies : k.copies = [] := by simp [Custody.copies, hd]
    refine ⟨hb, by simp [Custody.Tidy, hentries], ?_, by simp [handedAt]⟩
    rw [hcopies]
    exact Vault.nil_listed _
  · refine ⟨hb, h.tidy n k hk, h.listed n k hk, ?_⟩
    exact fun key hm hmem => h.apart n key hm (hp.mem_iff.mpr (List.mem_append_left _ hmem))

/-- A step on the keys at one place, for the books of all stores. -/
theorem Accounted.turn {w' : World σ} (h : w.Accounted handed)
    (hk : w.session.custody? site = some k) (hv : w'.session.vault = l.vault)
    (hs : w'.session.stores = (w.session.keep site l).stores)
    (ht : ∀ rest, k.Account (handedAt handed site) (rest ++ w.held) →
      Custody.Turn k l (handedAt handed site) new (rest ++ w'.held))
    (range : ∀ host ∈ w'.hosts, host.arena.FreeInRange) :
    (w'.Accounted fun n => (if site = .store n then new else []) ++ handed n) ∧
      ∀ key ∈ new, ¬w.session.vault.Holds key := by
  have kind : l.source = .direct ↔ k.source = .direct := by
    obtain ⟨rest, hp, _⟩ := stored_keep hk Iff.rfl
    exact (ht rest (h.account hk hp)).kind
  obtain ⟨rest, hbefore, hafter⟩ := stored_keep hk kind
  have t := ht rest (h.account hk hbefore)
  have hvault := (custody?_eq_some hk).1
  have later : w.session.vault.Later w'.session.vault := by
    rw [← hvault, hv]
    exact t.later
  have fresh : ∀ key ∈ new, ¬w.session.vault.Holds key := by
    rw [← hvault]
    exact t.fresh
  have cases_of {n : Nat} {key : Key}
      (hm : key ∈ (if site = .store n then new else []) ++ handed n) :
      (site = .store n ∧ key ∈ new) ∨ key ∈ handed n := by
    rcases List.mem_append.mp hm with hm | hm
    · split at hm
      · next hn => exact .inl ⟨hn, hm⟩
      · cases hm
    · exact .inr hm
  have stored_holds {key : Key} (hm : key ∈ k.keys ++ rest) : w.session.vault.Holds key :=
    h.balanced.holds (List.mem_append_left _ (hbefore.mem_iff.mpr hm))
  refine ⟨⟨?_, ?_, ?_, ?_, ?_, ?_, range⟩, fresh⟩
  · rw [hv, hs]
    have hb := t.account.balanced
    rw [← List.append_assoc] at hb
    exact hb.perm (hafter.symm.append_right _)
  · intro n m hm
    rcases custody?_after hk kind hv hs hm with ⟨_, rfl⟩ | ⟨_, k', hk', rfl⟩
    · exact t.account.tidy
    · exact h.tidy n k' hk'
  · intro n m hm
    rcases custody?_after hk kind hv hs hm with ⟨rfl, rfl⟩ | ⟨hn, k', hk', rfl⟩
    · rw [if_pos rfl]
      exact t.account.listed
    · rw [if_neg hn]
      have hl := h.listed n k' hk'
      rw [(custody?_eq_some hk').1] at hl
      exact hl.later (hv ▸ later)
  · intro n key hm
    rcases cases_of hm with ⟨_, hm⟩ | hm
    · rw [hv]
      exact t.account.listed.handed_hold key (List.mem_append_left _ hm)
    · exact later.holds key (h.holds n key hm)
  · intro n key hm hmem
    rw [hs] at hmem
    rcases cases_of hm with ⟨_, hm⟩ | hm
    · rcases List.mem_append.mp (hafter.mem_iff.mp hmem) with hmem | hmem
      · exact t.account.apart key (List.mem_append_left _ hm) hmem
      · exact fresh key hm (stored_holds (List.mem_append_right _ hmem))
    · have hn : key ∉ k.keys ++ rest := fun hk => h.apart n key hm (hbefore.mem_iff.mpr hk)
      rcases List.mem_append.mp (hafter.mem_iff.mp hmem) with hmem | hmem
      · rcases t.stored key hmem with hmem | hnot
        · exact hn (List.mem_append_left _ hmem)
        · exact hnot (hvault ▸ h.holds n key hm)
      · exact hn (List.mem_append_right _ hmem)
  · intro m n key hm hn
    rcases cases_of hm with ⟨hm, hnew⟩ | hm
    · rcases cases_of hn with ⟨hn, _⟩ | hn
      · exact Place.store.inj (hm.symm.trans hn)
      · exact absurd (h.holds n key hn) (fresh key hnew)
    · rcases cases_of hn with ⟨_, hnew⟩ | hn
      · exact absurd (h.holds m key hm) (fresh key hnew)
      · exact h.home m n key hm hn

theorem issued_store {n : Nat} (hk : w.session.custody? (.store n) = some k) (copy : Option Key) :
    k.issued copy = copy.toList := by
  obtain ⟨_, ⟨h, _⟩ | ⟨_, store, _, _, hs⟩⟩ := custody?_eq_some hk
  · cases h
  · simp [Custody.issued, hs]

/-- The books after an action: what the stores hand out is new. -/
structure Books (w : World σ) (a : Action) (handed : Nat → List Key) : Prop where
  accounted : (w.perform a).2.Accounted fun n => w.handsOut n a ++ handed n
  fresh : ∀ n, ∀ key ∈ w.handsOut n a, ¬w.session.vault.Holds key
  size : (w.perform a).2.session.stores.size = w.session.stores.size

/-- A step in which the copies that were made are those that the source accounts for. -/
theorem Accounted.perform_turn {a : Action} (h : w.Accounted handed)
    (hk : w.session.custody? (w.place a) = some k) (hv : (w.perform a).2.session.vault = l.vault)
    (hs : (w.perform a).2.session.stores = (w.session.keep (w.place a) l).stores)
    (ht : ∀ handed rest, k.Account handed (rest ++ w.held) →
      Custody.Turn k l handed (k.issued (w.copyMade a)) (rest ++ (w.perform a).2.held))
    (range : ∀ host ∈ (w.perform a).2.hosts, host.arena.FreeInRange) : w.Books a handed := by
  have hnew (n : Nat) : w.handsOut n a =
      if w.place a = .store n then k.issued (w.copyMade a) else [] := by
    unfold handsOut
    split
    · next hn => rw [issued_store (hn ▸ hk)]
    · rfl
  obtain ⟨accounted, fresh⟩ := h.turn hk hv hs (ht _) range
  refine ⟨by simpa only [hnew] using accounted, ?_, by rw [hs, Session.size_stores_keep]⟩
  intro n key hm
  rw [hnew] at hm
  split at hm
  · exact fresh key hm
  · cases hm

theorem Accounted.perform_idle {a : Action} (h : w.Accounted handed) (hw : (w.perform a).2 = w)
    (hc : w.copyMade a = none) : w.Books a handed := by
  have hnone (n : Nat) : w.handsOut n a = [] := by simp [handsOut, hc]
  refine ⟨?_, ?_, by rw [hw]⟩
  · rw [hw]
    simpa only [hnone, List.nil_append] using h
  · intro n key hm
    rw [hnone] at hm
    cases hm

theorem Accounted.session (h : w.Accounted handed) (a : Session.Action) :
    w.Books (.session a) handed := by
  rcases w.session.bookable a with ⟨hs, hc⟩ | ⟨k, l, hm⟩
  · refine h.perform_idle ?_ hc
    change { w with session := (w.session.perform a).2 } = w
    rw [hs]
  · refine h.perform_turn (a := .session a) hm.custody hm.vault hm.stores ?_ h.range
    intro handed rest ha
    have move (x : List Key) : (rest ++ (x ++ w.hosts.toList.flatMap Host.boundKeys)).Perm
        ((rest ++ w.hosts.toList.flatMap Host.boundKeys) ++ x) := by
      rw [List.append_assoc]
      exact List.perm_append_comm.append_left rest
    exact (hm.turn handed _ (ha.perm (move _))).perm (move _).symm

/-- A step of the pool `p` that a host stands for. -/
structure PoolStep (w : World σ) (number : Nat) (a : Pool.Action) (host : Host σ) (p : Pool σ) :
    Prop where
  here : w.hosts[number]? = some host
  service : p.service = w.session.service
  custody : w.session.custody? host.place = some p.custody
  arena : host.arena = p.arena
  perform : w.perform (.pool number a) = (.pool (p.perform a).1, w.keep number host (p.perform a).2)
  place : w.place (.pool number a) = host.place
  copyMade : w.copyMade (.pool number a) = p.copyMade a

section

variable {number : Nat} {host : Host σ}

theorem poolStep_of_custody? (hh : w.hosts[number]? = some host)
    (hk : w.session.custody? host.place = some k) (a : Pool.Action) :
    w.PoolStep number a host { service := w.session.service, custody := k, arena := host.arena } := by
  have hp : w.pool? host =
      some { service := w.session.service, custody := k, arena := host.arena } := by simp [pool?, hk]
  exact ⟨hh, rfl, hk, rfl, by simp [perform, perform?, hh, hp], by simp [place, hh],
    by simp [copyMade, hh, hp]⟩

theorem idle_of_custody? (hh : w.hosts[number]? = some host)
    (hk : w.session.custody? host.place = none) (a : Pool.Action) :
    w.perform (.pool number a) = (.absent, w) ∧ w.copyMade (.pool number a) = none := by
  have hp : w.pool? host = none := by simp [pool?, hk]
  exact ⟨by simp [perform, perform?, hh, hp], by simp [copyMade, hh, hp]⟩

end

theorem idle_or_poolStep (w : World σ) (number : Nat) (a : Pool.Action) :
    (w.perform (.pool number a) = (.absent, w) ∧ w.copyMade (.pool number a) = none) ∨
      ∃ host p, w.PoolStep number a host p := by
  cases hh : w.hosts[number]? with
  | none => exact .inl ⟨by simp [perform, perform?, hh], by simp [copyMade, hh]⟩
  | some host =>
    cases hk : w.session.custody? host.place with
    | none => exact .inl (idle_of_custody? hh hk a)
    | some k => exact .inr ⟨host, _, poolStep_of_custody? hh hk a⟩

namespace PoolStep

variable {number : Nat} {a : Pool.Action} {host : Host σ} {p : Pool σ}

theorem mem (st : w.PoolStep number a host p) : host ∈ w.hosts :=
  Array.mem_of_getElem? st.here

theorem range (st : w.PoolStep number a host p) (h : w.Accounted handed) :
    p.arena.FreeInRange := by
  rw [← st.arena]
  exact h.range host st.mem

/-- The keys that the computations of the pool hold on to before and after a step, and those that
anybody else holds. -/
theorem held (st : w.PoolStep number a host p) (q : Pool σ) :
    ∃ rest, w.held.Perm (p.boundKeys ++ rest) ∧
      (w.keep number host q).held.Perm (q.boundKeys ++ rest) := by
  obtain ⟨others, hbefore, hafter⟩ := exists_perm_array_set st.here { host with arena := q.arena }
  have hsession : (w.keep number host q).session.holdings = w.session.holdings :=
    Session.holdings_keep _ _ _
  have hbound : host.boundKeys = p.boundKeys := by
    rw [Host.boundKeys, st.arena, Pool.boundKeys]
  refine ⟨w.session.holdings ++ others.flatMap Host.boundKeys, ?_, ?_⟩
  · rw [← hbound]
    exact perm_out (hbefore.flatMap_right Host.boundKeys)
  · rw [World.held, hsession]
    exact perm_out (hafter.flatMap_right Host.boundKeys)

end PoolStep

theorem Accounted.pool (h : w.Accounted handed) (number : Nat) (a : Pool.Action) :
    w.Books (.pool number a) handed := by
  rcases w.idle_or_poolStep number a with ⟨hw, hc⟩ | ⟨host, p, st⟩
  · exact h.perform_idle (by rw [hw]) hc
  · have step := p.perform_step a
    have hk := st.custody
    rw [← st.place] at hk
    refine h.perform_turn hk (l := (p.perform a).2.custody) ?_ ?_ ?_ ?_
    · rw [st.perform]
      exact Session.vault_keep _ _ _
    · rw [st.perform, st.place]
      rfl
    · intro handed rest ha
      obtain ⟨others, hbefore, hafter⟩ := st.held (p.perform a).2
      have move {x y : List Key} (hp : x.Perm (y ++ others)) :
          (rest ++ x).Perm ((rest ++ others) ++ y) := by
        rw [List.append_assoc]
        exact (hp.trans List.perm_append_comm).append_left rest
      rw [st.perform, st.copyMade]
      exact (step.turn (st.range h) (ha.perm (move hbefore))).perm (move hafter).symm
    · rw [st.perform]
      intro other hm
      rcases Array.mem_or_eq_of_mem_setIfInBounds hm with hm | rfl
      · exact h.range other hm
      · exact step.freeInRange (st.range h)

theorem Accounted.books (h : w.Accounted handed) (a : Action) : w.Books a handed := by
  cases a with
  | session a => exact h.session a
  | pool number a => exact h.pool number a

theorem accounted_start (service : Service σ) (stores : Nat) (places : List Place) :
    (start service stores places).Accounted fun _ => [] := by
  have hstores {n : Nat} {k : Custody}
      (hk : (start service stores places).session.custody? (.store n) = some k) :
      k = { vault := {}, source := .store {} } := by
    obtain ⟨store, hs, rfl⟩ := Option.map_eq_some_iff.mp hk
    obtain ⟨_, rfl⟩ := by simpa [start, Array.getElem?_replicate] using hs
    rfl
  have hempty : stored (start service stores places).session.stores ++
      (start service stores places).held = [] := by
    simp [stored, start, held, Session.holdings, Session.callerKeys, Session.boundKeys,
      Host.boundKeys, Arena.contents]
  refine ⟨?_, ?_, ?_, by simp, by simp, by simp, ?_⟩
  · rw [hempty]
    exact Vault.empty_balanced
  · intro n k hk
    cases hstores hk
    exact List.nodup_nil
  · intro n k hk
    cases hstores hk
    exact Vault.nil_listed _
  · intro host hm
    obtain ⟨site, _, rfl⟩ := by simpa [start] using hm
    exact Arena.empty_sound.freeInRange

theorem Accounted.after (h : w.Accounted handed) (actions : List Action) :
    (w.after actions).Accounted fun n => w.handed n actions ++ handed n := by
  induction actions generalizing w handed with
  | nil => exact h
  | cons a rest ih =>
    have hnext := ih (h.books a).accounted
    simp only [World.handed, List.append_assoc]
    exact hnext

end World

end StreamDigest
