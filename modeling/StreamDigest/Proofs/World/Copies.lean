import StreamDigest.Proofs.Origin
import StreamDigest.Proofs.World

namespace StreamDigest

namespace World

variable {σ : Type} {w : World σ} {n : Nat} {key : Key} {handed : Nat → List Key}

/-- How many signing copies a store says are outstanding. -/
def outstanding? (w : World σ) (n : Nat) : Option Nat := do
  let (count, _) ← (← w.session.custody? (.store n)).outstanding?
  return count

def Has (w : World σ) (c : Computation σ) : Prop :=
  (∃ number, w.session.computation? number = some c) ∨ ∃ host ∈ w.hosts, c ∈ host.arena.contents

/-- A key is held by the caller, or by a computation that is there. -/
theorem mem_held : key ∈ w.held ↔ (∃ number, w.session.key? number = some key) ∨
    ∃ c, w.Has c ∧ key ∈ Binding.held c.binding := by
  have hbound : key ∈ w.session.boundKeys ↔
      ∃ c, (∃ number, w.session.computation? number = some c) ∧ key ∈ Binding.held c.binding := by
    simp only [Session.boundKeys, List.mem_flatMap, Array.mem_toList_iff, Array.mem_iff_getElem?]
    constructor
    · rintro ⟨_ | c, ⟨i, hi⟩, hm⟩
      · cases hm
      · exact ⟨c, ⟨i, by simp [Session.computation?, hi]⟩, hm⟩
    · rintro ⟨c, ⟨i, hi⟩, hm⟩
      refine ⟨some c, ⟨i, ?_⟩, hm⟩
      simpa [Session.computation?, Option.join_eq_some_iff] using hi
  have hpools : key ∈ w.hosts.toList.flatMap Host.boundKeys ↔
      ∃ c, (∃ host ∈ w.hosts, c ∈ host.arena.contents) ∧ key ∈ Binding.held c.binding := by
    simp only [List.mem_flatMap, Array.mem_toList_iff, Host.boundKeys]
    constructor
    · rintro ⟨host, hh, c, hc, hm⟩
      exact ⟨c, ⟨host, hh, hc⟩, hm⟩
    · rintro ⟨c, ⟨host, hh, hc⟩, hm⟩
      exact ⟨host, hh, c, hc, hm⟩
  rw [held, Session.holdings, List.mem_append, List.mem_append, Session.mem_callerKeys, hbound,
    hpools, or_assoc]
  simp only [Has, or_and_right, exists_or]

/-- Nor does a computation hold a key that is over. -/
theorem mem_held_live : key ∈ w.held ↔ (∃ number, w.session.key? number = some key) ∨
    ∃ c, w.Has c ∧ c.phase ≠ .finalized ∧ key ∈ Binding.held c.binding := by
  have live {c : Computation σ} (hm : key ∈ Binding.held c.binding) : c.phase ≠ .finalized := by
    intro hover
    rw [Computation.binding_finalized hover] at hm
    cases hm
  rw [mem_held]
  constructor
  · rintro (hk | ⟨c, hc, hm⟩)
    · exact .inl hk
    · exact .inr ⟨c, hc, live hm, hm⟩
  · rintro (hk | ⟨c, hc, _, hm⟩)
    · exact .inl hk
    · exact .inr ⟨c, hc, hm⟩

theorem lt_size_of_computation? {i : Nat} {c : Computation σ}
    (h : w.session.computation? i = some c) : i < w.session.computations.size := by
  by_contra hn
  simp [Session.computation?, Nat.not_lt.mp hn] at h

theorem exists_custody (hn : n < w.session.stores.size) :
    ∃ k, w.session.custody? (.store n) = some k := by
  simp [Session.custody?, hn]

/-- A store counts the copies that it has handed out and that somebody holds on to. -/
theorem Accounted.outstanding (h : w.Accounted handed) (hn : n < w.session.stores.size) :
    w.outstanding? n = some ((handed n).countP (· ∈ w.held)) := by
  obtain ⟨k, hk⟩ := exists_custody hn
  have hlisted := h.listed n k hk
  obtain ⟨hv, ⟨hd, _⟩ | ⟨i, store, _, _, hs⟩⟩ := custody?_eq_some hk
  · cases hd
  · have hcopies : k.copies = store.copies := by simp [Custody.copies, hs]
    have hcount : w.outstanding? n = some (store.outstanding k.vault) := by
      simp [outstanding?, hk, Custody.outstanding?, hs]
    rw [hcount, KeyStore.outstanding, KeyStore.prune, ← hcopies, hlisted.length_filter,
      List.countP_eq_length_filter, hv]
    congr 2
    apply List.filter_congr
    intro key hm
    have hpos : 0 < w.session.vault.references key ↔ key ∈ w.held := by
      rw [h.balanced.references_pos, List.mem_append]
      exact or_iff_right (h.apart n key hm)
    simp [hpos]

/-- Where an action begins a computation of the session, if it does. -/
def begins (w : World σ) (a : Action) : List Place :=
  match (w.perform a).1 with
  | .session (.computation _) => [w.place a]
  | _ => []

/-- Where the computations of a session were begun in a run, by their numbers. -/
def origins (w : World σ) : List Action → List Place
  | [] => []
  | a :: rest => w.begins a ++ (w.perform a).2.origins rest

/-- A binding is of a copy that was handed out by the store at a place, if it is of a copy and that
is a store. -/
def From (handed : Nat → List Key) (site : Place) (b : Binding) : Prop :=
  ∀ n, b.key ∈ handed n ↔ site = .store n ∧ ∃ key, b = .restricted key

/-- Where the computations of the session were begun is `places`, and all keys are from there. -/
structure Traced (w : World σ) (handed : Nat → List Key) (places : List Place) : Prop where
  length : places.length = w.session.computations.size
  session : ∀ i c b, w.session.computation? i = some c → c.binding = some b →
    ∃ site, places[i]? = some site ∧ From handed site b
  pools : ∀ host ∈ w.hosts, ∀ c ∈ host.arena.contents, ∀ b, c.binding = some b →
    From handed host.place b

variable {places : List Place} {site : Place} {a : Action} {b : Binding} {k : Custody}

/-- A copy that was just made is none that was handed out before. -/
theorem From.earlier (h : w.Accounted handed) (hb : b.key ∈ w.held)
    (hf : From handed site b) (fresh : ∀ n, ∀ key ∈ w.handsOut n a, ¬w.session.vault.Holds key) :
    From (fun n => w.handsOut n a ++ handed n) site b := by
  intro n
  rw [List.mem_append, ← hf n]
  apply or_iff_right
  exact fun hm => fresh n _ hm (h.balanced.holds (List.mem_append_right _ hb))

theorem From.begun (h : w.Accounted handed) (hk : w.session.custody? (w.place a) = some k)
    (hb : k.Bound (w.copyMade a) b) :
    From (fun n => w.handsOut n a ++ handed n) (w.place a) b := by
  obtain ⟨hv, hsite⟩ := custody?_eq_some hk
  intro n
  rw [List.mem_append, handsOut]
  cases b with
  | restricted key =>
    obtain ⟨hc, hnew⟩ := hb
    rw [hv] at hnew
    have hold : key ∉ handed n := fun hm => hnew (h.holds n key hm)
    simp [hc, hold, Binding.key]
  | shared key =>
    obtain ⟨hc, hm⟩ := hb
    have hold : key ∉ handed n := by
      obtain ⟨rest, hp, _⟩ := stored_keep hk Iff.rfl
      exact fun hh => h.apart n key hh (hp.mem_iff.mpr (List.mem_append_left _ hm))
    simp [hc, hold, Binding.key]

/-- What computations had to do with copies before an action is as it was. -/
theorem Accounted.earlier {c : Computation σ} (h : w.Accounted handed) (a : Action) (hc : w.Has c)
    (hb : c.binding = some b) (hf : From handed site b) :
    From (fun n => w.handsOut n a ++ handed n) site b :=
  hf.earlier h (mem_held.mpr (.inr ⟨c, hc, by simp [hb]⟩)) (h.books a).fresh

theorem Traced.session_step (h : w.Accounted handed) (tr : w.Traced handed places)
    (a : Session.Action) : (w.perform (.session a)).2.Traced
      (fun n => w.handsOut n (.session a) ++ handed n) (places ++ w.begins (.session a)) := by
  have hw : w.perform (.session a) =
      (.session (w.session.perform a).1, { w with session := (w.session.perform a).2 }) := rfl
  have pools : ∀ host ∈ w.hosts, ∀ c ∈ host.arena.contents, ∀ b, c.binding = some b →
      From (fun n => w.handsOut n (.session a) ++ handed n) host.place b :=
    fun host hh c hc b hb => h.earlier _ (.inr ⟨host, hh, hc⟩) hb (tr.pools host hh c hc b hb)
  have threads := w.session.threads a
  rw [begins, hw]
  generalize (w.session.perform a).1 = r at threads ⊢
  generalize (w.session.perform a).2 = t at threads ⊢
  cases r with
  | computation number =>
    obtain ⟨_, c, hcomp, hbound⟩ := threads
    refine ⟨by simp [hcomp, tr.length], ?_, pools⟩
    intro i d b hd hb
    rw [Session.computation?, hcomp, Array.getElem?_push] at hd
    split at hd
    · next hi =>
      cases hd
      obtain ⟨k, hk, hbound⟩ := hbound b hb
      refine ⟨a.place, ?_, From.begun (a := .session a) h hk hbound⟩
      rw [hi, ← tr.length]
      exact List.getElem?_concat_length
    · obtain ⟨site, hs, hf⟩ := tr.session i d b hd hb
      refine ⟨site, ?_, h.earlier _ (.inl ⟨i, hd⟩) hb hf⟩
      rw [List.getElem?_append_left (List.getElem?_eq_some_iff.mp hs).1, hs]
  | _ =>
    obtain ⟨hsize, hcarried⟩ := threads
    simp only [List.append_nil]
    refine ⟨tr.length.trans hsize.symm, ?_, pools⟩
    intro i d b hd hb
    obtain ⟨c, hc, hb⟩ := hcarried i d b hd hb
    obtain ⟨site, hs, hf⟩ := tr.session i c b hc hb
    exact ⟨site, hs, h.earlier _ (.inl ⟨i, hc⟩) hb hf⟩

theorem Traced.idle (h : w.Accounted handed) (tr : w.Traced handed places)
    (hw : (w.perform a).2 = w) (hn : w.begins a = []) :
    (w.perform a).2.Traced (fun n => w.handsOut n a ++ handed n) (places ++ w.begins a) := by
  rw [hw, hn, List.append_nil]
  refine ⟨tr.length, ?_, ?_⟩
  · intro i c b hc hb
    obtain ⟨site, hs, hf⟩ := tr.session i c b hc hb
    exact ⟨site, hs, h.earlier a (.inl ⟨i, hc⟩) hb hf⟩
  · intro host hh c hc b hb
    exact h.earlier a (.inr ⟨host, hh, hc⟩) hb (tr.pools host hh c hc b hb)

theorem Traced.pool_step (h : w.Accounted handed) (tr : w.Traced handed places) (number : Nat)
    (a : Pool.Action) : (w.perform (.pool number a)).2.Traced
      (fun n => w.handsOut n (.pool number a) ++ handed n)
      (places ++ w.begins (.pool number a)) := by
  rcases w.idle_or_poolStep number a with ⟨hw, _⟩ | ⟨host, p, st⟩
  · exact tr.idle h (by rw [hw]) (by rw [begins, hw])
  · have hbegins : w.begins (.pool number a) = [] := by rw [begins, st.perform]
    have hcomp : (w.keep number host (p.perform a).2).session.computations =
        w.session.computations := Session.computations_keep _ _ _
    rw [hbegins, List.append_nil, st.perform]
    refine ⟨tr.length.trans (by rw [hcomp]), ?_, ?_⟩
    · intro i c b hc hb
      rw [Session.computation?, hcomp] at hc
      obtain ⟨site, hs, hf⟩ := tr.session i c b hc hb
      exact ⟨site, hs, h.earlier _ (.inl ⟨i, hc⟩) hb hf⟩
    · intro other ho d hd b hb
      rcases Array.mem_or_eq_of_mem_setIfInBounds ho with ho | rfl
      · exact h.earlier _ (.inr ⟨other, ho, hd⟩) hb (tr.pools other ho d hd b hb)
      · rcases (p.perform_step a).bound (st.range h) hd hb with ⟨c, hc, hb⟩ | hbound
        · rw [← st.arena] at hc
          exact h.earlier _ (.inr ⟨host, st.mem, hc⟩) hb (tr.pools host st.mem c hc b hb)
        · rw [← st.copyMade] at hbound
          have hk := st.custody
          rw [← st.place] at hk
          have hf := From.begun h hk hbound
          rw [st.place] at hf
          exact hf

theorem Traced.step (h : w.Accounted handed) (tr : w.Traced handed places) (a : Action) :
    (w.perform a).2.Traced (fun n => w.handsOut n a ++ handed n) (places ++ w.begins a) := by
  cases a with
  | session a => exact tr.session_step h a
  | pool number a => exact tr.pool_step h number a

theorem Traced.after (h : w.Accounted handed) (tr : w.Traced handed places) (actions : List Action) :
    (w.after actions).Traced (fun n => w.handed n actions ++ handed n)
      (places ++ w.origins actions) := by
  induction actions generalizing w handed places with
  | nil =>
    rw [origins, List.append_nil]
    exact tr
  | cons a rest ih =>
    have hnext := ih (h.books a).accounted (tr.step h a)
    simp only [World.handed, origins, List.append_assoc] at hnext ⊢
    exact hnext

theorem traced_start (service : Service σ) (stores : Nat) (sites : List Place) :
    (start service stores sites).Traced (fun _ => []) [] := by
  refine ⟨rfl, ?_, ?_⟩
  · intro i c b hc
    simp [start, Session.computation?] at hc
  · intro host hh c hc
    obtain ⟨site, _, rfl⟩ := by simpa [start] using hh
    cases hc

/-- A computation accounts for one copy of the store that it was begun at, if it holds a copy. -/
theorem countP_copies {c : Computation σ} (hf : ∀ b, c.binding = some b → From handed site b)
    (hn : (handed n).Nodup) : (handed n).countP (· ∈ Binding.held c.binding) =
      if site = .store n ∧ c.usesRestrictedKey = true then 1 else 0 := by
  cases hb : c.binding with
  | none => simp [Fields.usesRestrictedKey, hb]
  | some b =>
    have hcount : (handed n).countP (· ∈ Binding.held (some b)) = (handed n).count b.key := by
      simp [List.count, beq_eq_decide]
    have huse : c.usesRestrictedKey = true ↔ ∃ key, b = .restricted key := by
      cases b <;> simp [Fields.usesRestrictedKey, hb]
    have hfrom : b.key ∈ handed n ↔ site = .store n ∧ c.usesRestrictedKey = true := by
      rw [hf b hb n, huse]
    rw [hcount]
    split
    · next h => exact List.count_eq_one_of_mem hn (hfrom.mpr h)
    · next h => exact List.count_eq_zero_of_not_mem fun hm => h (hfrom.mp hm)

/-- Whether an action began no computation, or gave no MAC, because of a fault. -/
def Reply.refused : Reply → Prop
  | .session (.fault _) | .pool (.opened (.error _)) => True
  | _ => False

theorem held_of_refused (hr : (w.perform a).1.refused) : (w.perform a).2.held.Perm w.held := by
  cases a with
  | session a =>
    have st := w.session.perform_step a
    have hw : w.perform (.session a) =
        (.session (w.session.perform a).1, { w with session := (w.session.perform a).2 }) := rfl
    rw [hw] at hr ⊢
    generalize (w.session.perform a).1 = r at st hr
    generalize (w.session.perform a).2 = t at st ⊢
    cases r with
    | fault e =>
      rw [held, st.holdings_of_fault]
      exact .refl _
    | _ => cases hr
  | pool number a =>
    rcases w.idle_or_poolStep number a with ⟨hw, _⟩ | ⟨host, p, st⟩
    · rw [hw] at hr
      cases hr
    · have step := p.perform_step a
      obtain ⟨others, hbefore, hafter⟩ := st.held (p.perform a).2
      rw [st.perform] at hr ⊢
      generalize p.perform a = x at hr step hafter ⊢
      obtain ⟨r, q⟩ := x
      cases r with
      | opened begun =>
        cases begun with
        | ok handle => cases hr
        | error e =>
          rw [Pool.boundKeys_of_refused step] at hafter
          exact hafter.trans hbefore.symm
      | _ => cases hr

theorem Accounted.outstanding_of_refused (h : w.Accounted handed) (hr : (w.perform a).1.refused)
    (n : Nat) : (w.perform a).2.outstanding? n = w.outstanding? n := by
  have books := h.books a
  have hheld := held_of_refused hr
  by_cases hn : n < w.session.stores.size
  · rw [h.outstanding hn, books.accounted.outstanding (books.size ▸ hn), List.countP_append]
    have hnew : (w.handsOut n a).countP (· ∈ (w.perform a).2.held) = 0 := by
      apply List.countP_eq_zero.mpr
      intro key hm
      have hnot : key ∉ (w.perform a).2.held := by
        rw [hheld.mem_iff]
        exact fun hk => books.fresh n key hm (h.balanced.holds (List.mem_append_right _ hk))
      simpa using hnot
    rw [hnew, Nat.zero_add]
    congr 2
    funext key
    exact decide_eq_decide.mpr hheld.mem_iff
  · have hnone {w : World σ} (hn : ¬n < w.session.stores.size) : w.outstanding? n = none := by
      simp [outstanding?, Session.custody?, hn]
    rw [hnone hn, hnone (books.size ▸ hn)]

theorem Accounted.handed_nodup (h : w.Accounted handed) (hn : n < w.session.stores.size) :
    (handed n).Nodup := by
  obtain ⟨k, hk⟩ := exists_custody hn
  exact (h.listed n k hk).handed_nodup

theorem Accounted.size_after (h : w.Accounted handed) (actions : List Action) :
    (w.after actions).session.stores.size = w.session.stores.size := by
  induction actions generalizing w handed with
  | nil => rfl
  | cons a rest ih => exact (ih (h.books a).accounted).trans (h.books a).size

/-- In every run, a store counts exactly the signing copies that it has handed out and that the
caller or a computation still holds. A computation accounts for one copy of the store that it was
begun at, or for none at all; one that does not begin leaves all counts alone; and nothing is left to
count when all computations are over and the caller has given up all copies. -/
theorem copies_accounted (service : Service σ) (stores : Nat) (sites : List Place)
    (actions : List Action) :
    let init := start service stores sites
    let w := init.after actions
    (∀ n < stores, (init.handed n actions).Nodup ∧
      w.outstanding? n = some ((init.handed n actions).countP (· ∈ w.held))) ∧
    (∀ key, key ∈ w.held ↔ (∃ number, w.session.key? number = some key) ∨
      ∃ c, w.Has c ∧ c.phase ≠ .finalized ∧ key ∈ Binding.held c.binding) ∧
    (∀ i c, w.session.computation? i = some c → ∃ site, (init.origins actions)[i]? = some site ∧
      ∀ n < stores, (init.handed n actions).countP (· ∈ Binding.held c.binding) =
        if site = .store n ∧ c.usesRestrictedKey = true then 1 else 0) ∧
    (∀ host ∈ w.hosts, ∀ c ∈ host.arena.contents, ∀ n < stores,
      (init.handed n actions).countP (· ∈ Binding.held c.binding) =
        if host.place = .store n ∧ c.usesRestrictedKey = true then 1 else 0) ∧
    (∀ a, (w.perform a).1.refused → ∀ n, (w.perform a).2.outstanding? n = w.outstanding? n) ∧
    ((∀ c, w.Has c → c.phase = .finalized) → ∀ n < stores,
      (∀ key ∈ init.handed n actions, ∀ number, w.session.key? number ≠ some key) →
        w.outstanding? n = some 0) := by
  intro init w
  have accounted : w.Accounted fun n => init.handed n actions := by
    simpa using (accounted_start service stores sites).after actions
  have traced : w.Traced (fun n => init.handed n actions) (init.origins actions) := by
    simpa using (traced_start service stores sites).after (accounted_start service stores sites) actions
  have hsize : w.session.stores.size = stores := by
    rw [(accounted_start service stores sites).size_after actions]
    exact Array.size_replicate
  have hnodup : ∀ n < stores, (init.handed n actions).Nodup :=
    fun n hn => accounted.handed_nodup (hsize ▸ hn)
  have hcount : ∀ n < stores, w.outstanding? n =
      some ((init.handed n actions).countP (· ∈ w.held)) :=
    fun n hn => accounted.outstanding (hsize ▸ hn)
  refine ⟨fun n hn => ⟨hnodup n hn, hcount n hn⟩, fun _ => mem_held_live, ?_, ?_, ?_, ?_⟩
  · intro i c hc
    obtain ⟨site, hs⟩ : ∃ site, (init.origins actions)[i]? = some site := by
      have hi : i < (init.origins actions).length := by
        rw [traced.length]
        exact lt_size_of_computation? hc
      exact ⟨_, List.getElem?_eq_getElem hi⟩
    have hf : ∀ b, c.binding = some b → From (fun n => init.handed n actions) site b := by
      intro b hb
      obtain ⟨site', hs', hf⟩ := traced.session i c b hc hb
      cases hs.symm.trans hs'
      exact hf
    exact ⟨site, hs, fun n hn => countP_copies hf (hnodup n hn)⟩
  · exact fun host hh c hc n hn => countP_copies (traced.pools host hh c hc) (hnodup n hn)
  · exact fun a hr n => accounted.outstanding_of_refused hr n
  · intro hover n hn hkeys
    rw [hcount n hn]
    congr 1
    apply List.countP_eq_zero.mpr
    intro key hm
    have hnot : key ∉ w.held := by
      rw [mem_held_live]
      rintro (⟨number, hk⟩ | ⟨c, hc, live, _⟩)
      · exact hkeys key hm number hk
      · exact live (hover c hc)
    simpa using hnot

/-- A session and a pool begin a MAC each with a key of the same store; the one is dropped, and another
comes to nothing because the library is out of sessions. -/
theorem copy_of_pool_accounted :
    let library : Library Unit :=
      { name := "constant", digest := fun _ _ => .ok ()
        mac := fun n _ _ => if n = 2 then .error (.foreign "out of sessions") else .ok ()
        absorb := fun _ _ => .ok (), output := fun _ => .ok [] }
    let init := start { library, policy := {} } 1 [.store 0]
    let actions := [.session (.insert (.store 0) [1] false),
      .session (.beginMacFromHandle .hmacSha256 1 (.store 0) 0), .pool 0 (.openMac .hmacSha1 1 1),
      .session (.drop 0), .session (.beginMacFromHandle .hmacSha256 1 (.store 0) 2)]
    0 < 1 ∧ (init.handed 0 actions).length = 3 ∧ (init.after actions).outstanding? 0 = some 1 := by
  intro library init actions
  obtain ⟨counts, _⟩ := copies_accounted { library, policy := {} } 1 [.store 0] actions
  have hcount := (counts 0 (by decide)).2
  refine ⟨by decide, by decide, hcount.trans (by decide)⟩

end World

end StreamDigest
