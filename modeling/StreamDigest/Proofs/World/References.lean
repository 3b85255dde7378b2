import StreamDigest.Proofs.World.Computations
import StreamDigest.Proofs.World.Copies

namespace StreamDigest

namespace World

variable {σ : Type} {w : World σ} {handed : Nat → List Key} {key copy : Key} {a : Action}
  {site : Place} {k l : Custody}

/-- How many computations that are not over are bound to a key. -/
def bound (w : World σ) (key : Key) : Nat :=
  w.computations.countP fun c => c.phase ≠ .finalized ∧ key ∈ Binding.held c.binding

theorem count_boundBy (cs : List (Computation σ)) (key : Key) :
    (cs.flatMap Pool.boundBy).count key =
      cs.countP fun c => c.phase ≠ .finalized ∧ key ∈ Binding.held c.binding := by
  induction cs with
  | nil => rfl
  | cons c rest ih =>
    have hc : (Pool.boundBy c).count key =
        if c.phase ≠ .finalized ∧ key ∈ Binding.held c.binding then 1 else 0 := by
      cases hb : c.binding with
      | none => simp [Pool.boundBy, hb]
      | some b =>
        have live : c.phase ≠ .finalized := by
          intro hover
          cases (Computation.binding_finalized hover).symm.trans hb
        by_cases hk : b.key = key
        · simp [Pool.boundBy, hb, hk, live]
        · simp [Pool.boundBy, hb, hk, Ne.symm hk]
    rw [List.flatMap_cons, List.count_append, List.countP_cons, ih, hc, Nat.add_comm]
    simp

theorem held_eq (w : World σ) :
    w.held = w.session.callerKeys ++ w.computations.flatMap Pool.boundBy := by
  have hsession : w.session.boundKeys = w.session.contents.flatMap Pool.boundBy := by
    rw [Session.boundKeys, Session.contents, List.flatMap_assoc]
    congr 1
    funext c
    cases c with
    | none => rfl
    | some c => simp [Session.boundBy, Pool.boundBy]
  have hhosts : w.hosts.toList.flatMap Host.boundKeys =
      (w.hosts.toList.flatMap fun host => host.arena.contents).flatMap Pool.boundBy := by
    rw [List.flatMap_assoc]
    rfl
  rw [held, Session.holdings, hsession, hhosts, computations, List.flatMap_append, List.append_assoc]

/-- The references to a key are the caller's, the stores' and the running computations'. -/
theorem Accounted.references (h : w.Accounted handed) (key : Key) :
    w.session.vault.references key = w.session.callerKeys.count key +
      (stored w.session.stores).count key + w.bound key := by
  rw [h.balanced key, held_eq, List.count_append, List.count_append, count_boundBy, bound]
  omega

theorem references_of_perm {v : World σ} {handed' : Nat → List Key} (h : w.Accounted handed)
    (h' : v.Accounted handed') (hs : (stored v.session.stores).Perm (stored w.session.stores))
    (hh : v.held.Perm w.held) (key : Key) :
    v.session.vault.references key = w.session.vault.references key := by
  rw [h.balanced key, h'.balanced key]
  exact (hs.append hh).count_eq key

/-- A step that leaves the entries of its source alone leaves those of all stores alone. -/
theorem stored_keep_of_kept {s : Session σ} (hk : s.custody? site = some k) (kept : k.Kept l) :
    (stored (s.keep site l).stores).Perm (stored s.stores) := by
  obtain ⟨rest, hbefore, hafter⟩ := stored_keep hk kept.kind
  rw [kept.keys] at hafter
  exact hafter.trans hbefore.symm

theorem mem_stored_of_keys {s : Session σ} (hk : s.custody? site = some k) (hm : key ∈ k.keys) :
    key ∈ stored s.stores := by
  obtain ⟨rest, hp, _⟩ := stored_keep hk Iff.rfl
  exact hp.mem_iff.mpr (List.mem_append_left rest hm)

/-- A source that takes in no keys but new ones. -/
theorem mem_stored_keep {s : Session σ} (hk : s.custody? site = some k)
    (kind : l.source = .direct ↔ k.source = .direct)
    (known : ∀ key ∈ l.keys, key ∈ k.keys ∨ ¬k.vault.Holds key)
    (hm : key ∈ stored (s.keep site l).stores) :
    key ∈ stored s.stores ∨ ¬s.vault.Holds key := by
  obtain ⟨rest, hbefore, hafter⟩ := stored_keep hk kind
  rw [hbefore.mem_iff, ← (custody?_eq_some hk).1]
  rcases List.mem_append.mp (hafter.mem_iff.mp hm) with hm | hm
  · exact (known key hm).imp_left (List.mem_append_left rest)
  · exact .inl (List.mem_append_right k.keys hm)

/-- Whether an action brings a key into a store or takes one away. -/
def Action.stocks : Action → Bool
  | .session a => a.stocks
  | .pool _ a => a.managesKeys

theorem stocks_of_ofEngine (h : a.ofEngine = true) : a.stocks = false := by
  cases a with
  | session a => exact Session.stocks_of_ofEngine h
  | pool number a => simpa [Action.ofEngine, Action.stocks] using h

theorem session_stored {s t : Session σ} {a : Session.Action} {r : Session.Reply}
    (st : s.Step a r t) (h : a.stocks = false ∨ ∃ f, r = .fault f) :
    (stored t.stores).Perm (stored s.stores) := by
  cases st with
  | absent | read | gave | went | dropped => exact .refl _
  | kept hk kept => exact stored_keep_of_kept hk kept
  | gained _ hk kept => exact stored_keep_of_kept hk kept
  | @begun a k l begun _ hk kept =>
    cases begun <;> exact stored_keep_of_kept hk kept
  | stocked ha hk kind known hr =>
    rcases h with h | ⟨f, h⟩
    · cases ha.symm.trans h
    · exact absurd h (hr f)

theorem stored_perform (h : a.stocks = false ∨ (w.perform a).1.refused) :
    (stored (w.perform a).2.session.stores).Perm (stored w.session.stores) := by
  cases a with
  | session a =>
    refine session_stored (w.session.perform_step a) (h.imp_right ?_)
    intro hr
    change Reply.refused (.session (w.session.perform a).1) at hr
    generalize (w.session.perform a).1 = r at hr
    cases r with
    | fault f => exact ⟨f, rfl⟩
    | _ => cases hr
  | pool number a =>
    rcases w.idle_or_poolStep number a with ⟨hw, _⟩ | ⟨host, p, st⟩
    · rw [hw]
    · have step := p.perform_step a
      have hn : a.managesKeys = false := by
        rcases h with h | hr
        · exact h
        · rw [st.perform] at hr
          generalize (p.perform a).1 = r at hr step
          match r, hr with
          | .opened (.error e), _ => exact step.managesKeys_of_opened
      rw [st.perform]
      exact stored_keep_of_kept st.custody (step.kept_custody hn)

/-- What the engine does leaves all stores with the same keys. -/
theorem stored_of_engine (w : World σ) (ha : a.ofEngine = true) :
    (stored (w.perform a).2.session.stores).Perm (stored w.session.stores) :=
  stored_perform (.inl (stocks_of_ofEngine ha))

/-- What the engine does leaves the caller with the same keys. -/
theorem keys_perform (ha : a.ofEngine = true) :
    (w.perform a).2.session.keys = w.session.keys := by
  cases a with
  | session a => exact (w.session.perform_step a).keys_of_engine ha
  | pool number a =>
    rcases w.idle_or_poolStep number a with ⟨hw, _⟩ | ⟨host, p, st⟩
    · rw [hw]
    · rw [st.perform]
      exact Session.keys_keep _ _ _

/-- The keys that are to be had: by the caller, in a store, or not yet. -/
def Known (w : World σ) (key : Key) : Prop :=
  key ∈ w.session.callerKeys ∨ key ∈ stored w.session.stores ∨ ¬w.session.vault.Holds key

theorem session_known {s t : Session σ} {a : Session.Action} {r : Session.Reply}
    (st : s.Step a r t) (h : key ∈ t.callerKeys ∨ key ∈ stored t.stores) :
    key ∈ s.callerKeys ∨ key ∈ stored s.stores ∨ ¬s.vault.Holds key := by
  have same (hk : t.keys = s.keys) (hs : (stored t.stores).Perm (stored s.stores)) :
      key ∈ s.callerKeys ∨ key ∈ stored s.stores ∨ ¬s.vault.Holds key := by
    rw [Session.callerKeys, hk, hs.mem_iff] at h
    exact h.imp_right .inl
  cases st with
  | absent | read | went | dropped => exact same rfl (.refl _)
  | kept hk kept => exact same (by simp) (stored_keep_of_kept hk kept)
  | @begun a k l begun _ hk kept =>
    refine same ?_ ?_
    · cases begun <;> simp [Session.addComputation]
    · cases begun <;> exact stored_keep_of_kept hk kept
  | @gained a site k l new _ hk kept known =>
    rcases h with h | h
    · have hm : key ∈ s.callerKeys ∨ key = new := by
        simpa [Session.callerKeys, Session.addKey] using h
      rcases hm with hm | rfl
      · exact .inl hm
      · rw [(custody?_eq_some hk).1] at known
        exact known.imp_right (Or.imp_left (mem_stored_of_keys hk))
    · exact .inr (.inl ((stored_keep_of_kept hk kept).mem_iff.mp h))
  | gave hn =>
    have hkeys := Session.callerKeys_setKey hn
    exact h.imp (fun hm => hkeys.mem_iff.mpr (List.mem_cons_of_mem _ hm)) .inl
  | stocked _ hk kind known =>
    rcases h with h | h
    · exact .inl (by simpa [Session.callerKeys] using h)
    · exact .inr (mem_stored_keep hk kind known h)

theorem known_perform (h : key ∈ (w.perform a).2.session.callerKeys ∨
    key ∈ stored (w.perform a).2.session.stores) : w.Known key := by
  cases a with
  | session a => exact session_known (w.session.perform_step a) h
  | pool number a =>
    rcases w.idle_or_poolStep number a with ⟨hw, _⟩ | ⟨host, p, st⟩
    · rw [hw] at h
      exact h.imp_right .inl
    · obtain ⟨kind, known⟩ := (p.perform_step a).known_keys
      rw [st.perform] at h
      rcases h with h | h
      · exact .inl (by simpa [keep, Session.callerKeys] using h)
      · exact .inr (mem_stored_keep st.custody kind known h)

theorem Fresh.known {c : Computation σ} {b : Binding} (h : w.Fresh a c) (hb : c.binding = some b) :
    w.Known b.key := by
  obtain ⟨k, hk, hbound⟩ := h.bound b hb
  cases b with
  | restricted copy =>
    have hnew := hbound.2
    rw [(custody?_eq_some hk).1] at hnew
    exact .inr (.inr hnew)
  | shared key => exact .inr (.inl (mem_stored_of_keys hk hbound.2))

/-- A step brings nobody to hold on to a key but a computation that begins. -/
theorem count_boundBy_shift {s : Service σ} {fresh : Computation σ → Prop}
    {out into : List (Computation σ)} (h : Shift s fresh out into) (key : Key)
    (hf : ∀ c, fresh c → key ∉ Pool.boundBy c) :
    (into.flatMap Pool.boundBy).count key ≤ (out.flatMap Pool.boundBy).count key := by
  cases h with
  | none => exact Nat.le_refl _
  | @begun out c hc =>
    have hnone : (Pool.boundBy c).count key = 0 := List.count_eq_zero.mpr (hf c hc)
    simp [hnone]
  | called c calls =>
    rcases c.binding_after_or s.library calls with hb | hb
    · simp [Pool.boundBy, hb]
    · simp [Pool.boundBy, hb]
  | ended c => exact Nat.zero_le _

/-- A signing copy that a computation has is referred to by nobody else. -/
def Sole (w : World σ) : Prop :=
  ∀ c ∈ w.computations, ∀ copy, c.binding = some (.restricted copy) →
    w.session.vault.references copy = 1

theorem bound_eq {cs rest : List (Computation σ)} (h : w.computations.Perm (cs ++ rest))
    (key : Key) : w.bound key =
      (cs.flatMap Pool.boundBy).count key + (rest.flatMap Pool.boundBy).count key := by
  rw [bound, ← count_boundBy, (h.flatMap_right _).count_eq, List.flatMap_append, List.count_append]

theorem bound_pos {c : Computation σ} {b : Binding} (hc : c ∈ w.computations)
    (hb : c.binding = some b) : 0 < w.bound b.key := by
  rw [bound, ← count_boundBy]
  exact List.count_pos_iff.mpr (List.mem_flatMap.mpr ⟨c, hc, by simp [Pool.boundBy, hb]⟩)

/-- A copy that has just been made gets one holder. -/
theorem Accounted.references_begun {c : Computation σ} {out rest : List (Computation σ)}
    (h : w.Accounted handed) (hc : w.Fresh a c) (hb : c.binding = some (.restricted copy))
    (hbefore : w.computations.Perm (out ++ rest))
    (hafter : (w.perform a).2.computations.Perm ([c] ++ rest)) :
    (w.perform a).2.session.vault.references copy = 1 := by
  have hnew : ¬w.session.vault.Holds copy := by
    obtain ⟨k, hk, _, hnew⟩ := hc.bound _ hb
    rwa [(custody?_eq_some hk).1] at hnew
  have hzero := h.references copy
  rw [Vault.references_of_not_holds hnew, bound_eq hbefore copy] at hzero
  have hkeys : (w.perform a).2.session.callerKeys = w.session.callerKeys := by
    rw [Session.callerKeys, keys_perform hc.engine, Session.callerKeys]
  have hstored := (w.stored_of_engine hc.engine).count_eq copy
  have hone : ([c].flatMap Pool.boundBy).count copy = 1 := by
    simp [Pool.boundBy, hb, Binding.key]
  rw [(h.books a).accounted.references copy, hkeys, hstored, bound_eq hafter copy, hone]
  omega

/-- A copy that a computation has had keeps its one holder. -/
theorem Accounted.references_carried {c : Computation σ} (h : w.Accounted handed) (sole : w.Sole)
    (hc : c ∈ w.computations) (hb : c.binding = some (.restricted copy))
    (hbound : (w.perform a).2.bound copy ≠ 0) :
    (w.perform a).2.session.vault.references copy = 1 := by
  obtain ⟨out, into, rest, hshift, hbefore, hafter⟩ := h.shifts a
  have hone := sole c hc copy hb
  have hpos : 0 < w.bound copy := bound_pos hc hb
  have hrefs := h.references copy
  have unknown : ¬w.Known copy := by
    rintro (hk | hk | hk)
    · have := List.count_pos_iff.mpr hk
      omega
    · have := List.count_pos_iff.mpr hk
      omega
    · rw [Vault.references_of_not_holds hk] at hone
      omega
  have hcaller := List.count_eq_zero.mpr fun hk => unknown (known_perform (a := a) (.inl hk))
  have hstored := List.count_eq_zero.mpr fun hk => unknown (known_perform (a := a) (.inr hk))
  have hle := count_boundBy_shift hshift copy fun d hd hm => by
    obtain ⟨b, hbd, rfl⟩ : ∃ b, d.binding = some b ∧ b.key = copy := by
      simpa [Pool.boundBy, Binding.held] using hm
    exact unknown (hd.known hbd)
  have hbefore := bound_eq hbefore copy
  have hafter := bound_eq hafter copy
  rw [(h.books a).accounted.references copy, hcaller, hstored]
  omega

theorem Accounted.sole_step (h : w.Accounted handed) (sole : w.Sole) (a : Action) :
    (w.perform a).2.Sole := by
  obtain ⟨out, into, rest, hshift, hbefore, hafter⟩ := h.shifts a
  intro c hc copy hb
  have hpos : 0 < (w.perform a).2.bound copy := bound_pos hc hb
  have carried {d : Computation σ} (hd : d ∈ out ++ rest)
      (hbd : d.binding = some (.restricted copy)) :=
    h.references_carried sole (hbefore.mem_iff.mpr hd) hbd (Nat.pos_iff_ne_zero.mp hpos)
  rcases List.mem_append.mp (hafter.mem_iff.mp hc) with hm | hm
  · cases hshift with
    | begun hfresh =>
      cases List.mem_singleton.mp hm
      exact h.references_begun hfresh hb hbefore hafter
    | called d calls =>
      cases List.mem_singleton.mp hm
      rcases d.binding_after_or w.session.service.library calls with hd | hd
      · exact carried (List.mem_append_left rest List.mem_cons_self) (hd.symm.trans hb)
      · cases hd.symm.trans hb
    | none | ended => cases hm
  · exact carried (List.mem_append_right out hm) hb

theorem Accounted.sole_after (h : w.Accounted handed) (sole : w.Sole) (actions : List Action) :
    (w.after actions).Sole := by
  induction actions generalizing w handed with
  | nil => exact sole
  | cons a rest ih => exact ih (h.books a).accounted (h.sole_step sole a)

/-- In a run of the engine alone, the references to a key change as its computations do. -/
theorem Accounted.references_of_engine {actions : List Action} (h : w.Accounted handed)
    (engine : ∀ a ∈ actions, a.ofEngine = true) :
    (w.after actions).session.keys = w.session.keys ∧
    (stored (w.after actions).session.stores).Perm (stored w.session.stores) ∧
    ∀ key, (w.after actions).session.vault.references key + w.bound key =
      w.session.vault.references key + (w.after actions).bound key := by
  have keep : (w.after actions).session.keys = w.session.keys ∧
      (stored (w.after actions).session.stores).Perm (stored w.session.stores) := by
    clear h
    induction actions generalizing w with
    | nil => exact ⟨rfl, .refl _⟩
    | cons a rest ih =>
      have ha := engine a List.mem_cons_self
      obtain ⟨hkeys, hstored⟩ := ih fun b hb => engine b (List.mem_cons_of_mem a hb)
      exact ⟨hkeys.trans (keys_perform ha), hstored.trans (w.stored_of_engine ha)⟩
  refine ⟨keep.1, keep.2, ?_⟩
  intro key
  have hcaller : (w.after actions).session.callerKeys = w.session.callerKeys := by
    rw [Session.callerKeys, keep.1, Session.callerKeys]
  rw [h.references key, (h.after actions).references key, hcaller, keep.2.count_eq key]
  omega

/-- The actions that compute something in one go. -/
def Action.oneShot : Action → Bool
  | .session (.digest ..) | .session (.mac ..) | .pool _ (.digest ..) => true
  | _ => false

theorem held_of_oneShot (ha : a.oneShot = true) : (w.perform a).2.held.Perm w.held := by
  cases a with
  | session a =>
    have st := w.session.perform_step a
    have hshape : a.begins = false ∧ a.about = none ∧ a.ofEngine = true := by
      cases a <;> first | exact ⟨rfl, rfl, rfl⟩ | cases ha
    have hcomp : (w.perform (.session a)).2.session.computations = w.session.computations :=
      st.computations_eq hshape.1 hshape.2.1
    have hkeys : (w.perform (.session a)).2.session.keys = w.session.keys :=
      st.keys_of_engine hshape.2.2
    have hhosts : (w.perform (.session a)).2.hosts = w.hosts := rfl
    refine .of_eq ?_
    rw [held, Session.holdings, Session.callerKeys, Session.boundKeys, hkeys, hcomp, hhosts]
    rfl
  | pool number a =>
    rcases w.idle_or_poolStep number a with ⟨hw, _⟩ | ⟨host, p, st⟩
    · rw [hw]
    · obtain ⟨others, hbefore, hafter⟩ := st.held (p.perform a).2
      have hsame : (p.perform a).2 = p := by
        cases a <;> first | rfl | cases ha
      rw [hsame] at hafter
      rw [st.perform, hsame]
      exact hafter.trans hbefore.symm

/-- A refusal and a computation in one go leave all references as they were. -/
theorem Accounted.references_of_brief (h : w.Accounted handed)
    (ha : (w.perform a).1.refused ∨ a.oneShot = true) (key : Key) :
    (w.perform a).2.session.vault.references key = w.session.vault.references key := by
  have accounted := (h.books a).accounted
  rcases ha with hr | ha
  · exact references_of_perm h accounted (stored_perform (.inr hr)) (held_of_refused hr) key
  · have hs : a.stocks = false := by
      match a, ha with
      | .session (.digest ..), _ | .session (.mac ..), _ | .pool _ (.digest ..), _ => rfl
    exact references_of_perm h accounted (stored_perform (.inl hs)) (held_of_oneShot ha) key

/-- The world `v` differs from `w` in one more computation at the end, if it is there. -/
structure Beside (w v : World σ) (last : Option (Computation σ)) : Prop where
  computations : v.session.computations = w.session.computations.push last
  keys : v.session.keys = w.session.keys
  stored : (stored v.session.stores).Perm (stored w.session.stores)
  hosts : v.hosts = w.hosts

/-- The actions that are about one computation of the session. -/
def Action.about : Action → Option Nat
  | .session a => a.about
  | .pool .. => none

theorem beside_of_begun {number : Nat} (hr : (w.perform a).1 = .session (.computation number)) :
    number = w.session.computations.size ∧ ∃ c, Beside w (w.perform a).2 (some c) := by
  cases a with
  | session a =>
    have st := w.session.perform_step a
    have threads := st.threads
    have hreply : (w.session.perform a).1 = .computation number := Reply.session.inj hr
    rw [hreply] at st threads
    have engine := Session.ofEngine_of_begins st.begins_of_computation
    obtain ⟨hn, c, begun⟩ := threads
    exact ⟨hn, c, begun.computations, st.keys_of_engine engine, w.stored_of_engine engine, rfl⟩
  | pool number a =>
    rcases w.idle_or_poolStep number a with ⟨hw, _⟩ | ⟨host, p, st⟩
    · rw [hw] at hr
      cases hr
    · rw [st.perform] at hr
      cases hr

theorem Beside.step {v : World σ} {last : Option (Computation σ)} (h : Beside w v last)
    (ha : a.about = some w.session.computations.size) : ∃ next, Beside w (v.perform a).2 next := by
  cases a with
  | session a =>
    have st := v.session.perform_step a
    have engine := Session.ofEngine_of_about ha
    have hkeys := (st.keys_of_engine engine).trans h.keys
    have hstored := (v.stored_of_engine (a := .session a) engine).trans h.stored
    rcases st.computations_about ha with hc | ⟨next, hc⟩
    · exact ⟨last, hc.trans h.computations, hkeys, hstored, h.hosts⟩
    · refine ⟨next, hc.trans ?_, hkeys, hstored, h.hosts⟩
      rw [h.computations]
      apply Array.ext_getElem?
      intro i
      simp only [Array.getElem?_setIfInBounds, Array.getElem?_push, Array.size_push]
      grind
  | pool number a => cases ha

theorem Beside.after {v : World σ} {last : Option (Computation σ)} (h : Beside w v last)
    {actions : List Action} (ha : ∀ a ∈ actions, a.about = some w.session.computations.size) :
    ∃ next, Beside w (v.after actions) next := by
  induction actions generalizing v last with
  | nil => exact ⟨last, h⟩
  | cons a rest ih =>
    obtain ⟨next, hnext⟩ := h.step (ha a List.mem_cons_self)
    exact ih hnext fun b hb => ha b (List.mem_cons_of_mem a hb)

theorem Beside.held {v : World σ} {last : Option (Computation σ)} (h : Beside w v last)
    (ended : ∀ c, last = some c → c.phase = .finalized) : v.held = w.held := by
  have hlast : Session.boundBy last = [] := by
    cases last with
    | none => rfl
    | some c => simp [Session.boundBy, Computation.binding_finalized (ended c rfl)]
  rw [World.held, Session.holdings, Session.callerKeys, Session.boundKeys, h.keys, h.computations,
    h.hosts, Array.toList_push, List.flatMap_append]
  simp [World.held, Session.holdings, Session.callerKeys, Session.boundKeys, hlast]

/-- A computation that was begun and is over leaves all references as they were before. -/
theorem Accounted.references_of_life {number : Nat} {actions : List Action} (h : w.Accounted handed)
    (hr : (w.perform a).1 = .session (.computation number))
    (ha : ∀ b ∈ actions, b.about = some number)
    (ended : ∀ c, ((w.perform a).2.after actions).session.computation? number = some c →
      c.phase = .finalized) (key : Key) :
    ((w.perform a).2.after actions).session.vault.references key =
      w.session.vault.references key := by
  obtain ⟨rfl, c, begun⟩ := beside_of_begun hr
  obtain ⟨last, hlast⟩ := begun.after ha
  have hover : ∀ c, last = some c → c.phase = .finalized := by
    rintro c rfl
    apply ended
    simp [Session.computation?, hlast.computations]
  exact references_of_perm h ((h.books a).accounted.after actions) hlast.stored
    (.of_eq (hlast.held hover)) key

/-- In every run, the references to a key are those of the caller, of the stores and of the
computations that are not over, and of nobody else. A MAC has one key until it is over: a signing copy
that no one else refers to, or the key that it was asked for if the policy has it so. What is refused
and what is computed in one go leaves all references as they were, and so does a computation from its
beginning to its end; the engine touches no others than those of its computations. -/
theorem references_conserved (service : Service σ) (stores : Nat) (sites : List Place)
    (actions : List Action) :
    let w := (start service stores sites).after actions
    (∀ key, w.session.vault.references key = w.session.callerKeys.count key +
      (stored w.session.stores).count key + w.bound key) ∧
    (∀ c ∈ w.computations,
      (c.phase = .finalized → c.binding = none) ∧
      (c.phase ≠ .finalized → (c.binding.isSome = true ↔ c.algorithm.kind = .mac)) ∧
      (∀ copy, c.binding = some (.restricted copy) → w.session.vault.references copy = 1) ∧
      (∀ key, c.binding = some (.shared key) → service.policy.keyFallback = true)) ∧
    (∀ n a key k c l, (service.on n).beginMac a key k = (.ok c, l) →
      service.Binds key k l c.binding) ∧
    (∀ n a handle k c l, (service.on n).beginMacFromHandle a handle k = (.ok c, l) →
      ∃ e ∈ k.entries, e.handle = handle ∧ service.Binds e.key k l c.binding) ∧
    (∀ a, (w.perform a).1.refused ∨ a.oneShot = true → ∀ key,
      (w.perform a).2.session.vault.references key = w.session.vault.references key) ∧
    (∀ a number life, (w.perform a).1 = .session (.computation number) →
      (∀ b ∈ life, b.about = some number) →
      let v := (w.perform a).2.after life
      (∀ c, v.session.computation? number = some c → c.phase = .finalized) →
        ∀ key, v.session.vault.references key = w.session.vault.references key) ∧
    ∀ more, (∀ a ∈ more, a.ofEngine = true) →
      let v := w.after more
      v.session.keys = w.session.keys ∧
      (stored v.session.stores).Perm (stored w.session.stores) ∧
      ∀ key, v.session.vault.references key + w.bound key =
        w.session.vault.references key + v.bound key := by
  intro w
  have fresh := accounted_start service stores sites
  have empty : (start service stores sites).computations = [] := by
    simp [computations, start, Session.contents, Arena.contents]
  have accounted := fresh.after actions
  have hservice : w.session.service = service := service_after _ actions
  have ran : ∀ c ∈ w.computations, Ran service c :=
    fresh.ran_after (by simp [empty]) actions
  have sole : w.Sole := fresh.sole_after (by simp [Sole, empty]) actions
  refine ⟨accounted.references, ?_, fun n a key k c l => Service.beginMac_binds,
    fun n a handle k c l => Service.beginMacFromHandle_binds,
    fun a => accounted.references_of_brief,
    fun a number life hr ha ended => accounted.references_of_life hr ha ended,
    fun more => accounted.references_of_engine⟩
  intro c hc
  obtain ⟨keyed, shared⟩ := (ran c hc).binding
  exact ⟨Computation.binding_finalized, keyed, sole c hc, shared⟩

/-- A key in hardware is referred to by the caller, its store and a MAC which uses the key itself. -/
theorem references_of_hardware_key :
    let library : Library Unit :=
      { name := "constant", digest := fun _ _ => .ok (), mac := fun _ _ _ => .ok (),
        absorb := fun _ _ => .ok (), output := fun _ => .ok [] }
    let actions := [.session (.insert (.store 0) [1] true), .session (.resolve (.store 0) 1)]
    let begin : Action := .session (.beginMac .hmacSha256 0 (.store 0) 0)
    let w := (start { library, policy := {} } 1 []).after actions
    (w.perform begin).1 = .session (.computation 0) ∧
    (w.perform begin).2.session.vault.references ⟨0⟩ = 1 + 1 + 1 ∧
    ((w.perform begin).2.after [.session (.drop 0)]).session.vault.references ⟨0⟩ =
      w.session.vault.references ⟨0⟩ := by
  intro library actions begin w
  obtain ⟨_, _, _, _, _, life, _⟩ := references_conserved { library, policy := {} } 1 [] actions
  -- The names are unfolded: telling that two of them agree would run the world twice.
  dsimp only [library, actions, begin, w] at life ⊢
  refine ⟨by rfl, by decide +kernel, ?_⟩
  refine life (.session (.beginMac .hmacSha256 0 (.store 0) 0)) 0 [.session (.drop 0)] ?_ ?_ ?_ ⟨0⟩
  · rfl
  · exact List.forall_mem_singleton.mpr rfl
  · rintro c ⟨⟩

end World

end StreamDigest
