import StreamDigest.Proofs.Lifecycle
import StreamDigest.Proofs.Origin
import StreamDigest.Proofs.Pool.Refinement
import StreamDigest.Proofs.World

namespace StreamDigest

/-- What becomes of some of the computations in one step, when there are no others than `fresh` ones
to be begun. -/
inductive Shift {σ : Type} (s : Service σ) (fresh : Computation σ → Prop) :
    List (Computation σ) → List (Computation σ) → Prop
  | none : Shift s fresh [] []
  | begun {out c} (hc : fresh c) : Shift s fresh out [c]
  | called (c calls) : Shift s fresh [c] [c.after s.library calls]
  | ended (c) : Shift s fresh [c] []

theorem Shift.imp {σ : Type} {s t : Service σ} {fresh fresh' : Computation σ → Prop}
    {out into : List (Computation σ)} (h : Shift s fresh out into) (hs : s = t)
    (hf : ∀ c, fresh c → fresh' c) : Shift t fresh' out into := by
  subst hs
  cases h with
  | none => exact .none
  | begun hc => exact .begun (hf _ hc)
  | called c calls => exact .called c calls
  | ended c => exact .ended c

variable {σ : Type} {c : Computation σ}

namespace Session

variable {s t : Session σ} {r : Reply} {a : Action} {number : Nat}

def contents (s : Session σ) : List (Computation σ) :=
  s.computations.toList.flatMap Option.toList

/-- What the computation that an action begins is like. -/
structure Fresh (s : Session σ) (a : Action) (c : Computation σ) : Prop where
  begins : a.begins = true
  begun : ∃ n algorithm bytes, (s.service.on n).Begun algorithm bytes c
  bound : ∀ b, c.binding = some b →
    ∃ k, s.custody? a.place = some k ∧ k.Bound (s.copyMade a) b

/-- The computations that a step takes away, those that are there instead, and all others. -/
def Shifts (s t : Session σ) (a : Action) : Prop :=
  ∃ out into rest, Shift s.service (s.Fresh a) out into ∧ s.contents.Perm (out ++ rest) ∧
    t.contents.Perm (into ++ rest)

theorem shifts_of_eq (h : t.computations = s.computations) : s.Shifts t a :=
  ⟨[], [], s.contents, .none, .refl _, .of_eq (by simp [contents, h])⟩

theorem shifts_set {x : Option (Computation σ)} (hc : s.computation? number = some c)
    (hx : Shift s.service (s.Fresh a) [c] x.toList)
    (ht : t.computations = s.computations.setIfInBounds number x) : s.Shifts t a := by
  have hs : s.computations[number]? = some (some c) := by
    simpa [computation?, Option.join_eq_some_iff] using hc
  obtain ⟨rest, hbefore, hafter⟩ := exists_perm_array_set hs x
  refine ⟨[c], x.toList, rest.flatMap Option.toList, hx, hbefore.flatMap_right _, ?_⟩
  rw [contents, ht]
  exact hafter.flatMap_right _

theorem shifts_addComputation {begun : Except Fault (Computation σ)} {s' : Session σ}
    (hs : s'.computations = s.computations) (hb : ∀ c, begun = .ok c → s.Fresh a c) :
    s.Shifts (s'.addComputation begun).2 a := by
  cases begun with
  | error e => exact shifts_of_eq hs
  | ok c =>
    refine ⟨[], [c], s.contents, .begun (hb c rfl), .refl _, ?_⟩
    have ht : (s'.addComputation (.ok c)).2.contents = s.contents ++ [c] := by
      simp [addComputation, contents, hs]
    rw [ht]
    exact List.perm_append_comm

theorem Begins.fresh {k : Custody} (h : s.Begins k a c) (ha : a.begins = true)
    (hk : s.custody? a.place = some k) : s.Fresh a c := by
  refine ⟨ha, ?_, fun b hb => ⟨k, hk, h.bound hk hb⟩⟩
  cases h with
  | digest hd => exact ⟨_, _, [], .digest hd⟩
  | mac hn hm => exact ⟨_, _, _, .mac hm⟩
  | macFromHandle hm =>
    obtain ⟨key, k', _, hr, _⟩ := Service.beginMacFromHandle_eq_ok hm
    exact ⟨_, _, _, .macFromHandle hr hm⟩

/-- Whatever an action does to the computations of a session, it does to one of them at most. -/
theorem Step.shifts (st : Step s a r t) : s.Shifts t a := by
  cases st with
  | absent | read | gave => exact shifts_of_eq rfl
  | kept | stocked => exact shifts_of_eq (by simp)
  | gained => exact shifts_of_eq (by simp [addKey])
  | begun ha hk kept hb => exact shifts_addComputation (by simp) fun c hc => (hb c hc).fresh ha hk
  | @went a r number c after calls hn hc ha => exact shifts_set hc (ha ▸ .called c calls) rfl
  | @dropped number c hc => exact shifts_set hc (.ended c) rfl

end Session

namespace Pool

variable {p q : Pool σ} {a : Action} {r : Reply} {k l : Custody}

theorem begun_of_begin? {s : Service σ}
    {begin : Custody → Except Fault (Computation σ) × Custody} (hb : a.begin? s = some begin)
    (h : begin k = (.ok c, l)) : ∃ n algorithm bytes, (s.on n).Begun algorithm bytes c := by
  cases a with
  | openDigest a n =>
    cases hb
    exact ⟨n, a, [], .digest (Prod.mk.inj h).1⟩
  | openMac a handle n =>
    cases hb
    obtain ⟨key, k', _, hr, _⟩ := Service.beginMacFromHandle_eq_ok h
    exact ⟨n, a, _, .macFromHandle hr h⟩
  | call | insertKey | removeKey | outstanding | digest => cases hb

theorem managesKeys_of_begin? {s : Service σ}
    {begin : Custody → Except Fault (Computation σ) × Custody} (hb : a.begin? s = some begin) :
    a.managesKeys = false := by
  cases a <;> first | rfl | cases hb

theorem Step.managesKeys_of_opened {x : Except Fault Handle} (st : Step p a (.opened x) q) :
    a.managesKeys = false := by
  generalize hr : Reply.opened x = r at st
  cases st with
  | full hb => exact managesKeys_of_begin? hb
  | failed hb => exact managesKeys_of_begin? hb
  | opened hb => exact managesKeys_of_begin? hb
  | unknown | retired | kept | ended | inserted | removed | counted | storeless | digested => cases hr

/-- No keys get into a store but new ones. -/
theorem Step.known_keys (st : Step p a r q) :
    (q.custody.source = .direct ↔ p.custody.source = .direct) ∧
      ∀ key ∈ q.custody.keys, key ∈ p.custody.keys ∨ ¬p.custody.vault.Holds key := by
  cases hm : a.managesKeys with
  | false =>
    have kept := st.kept_custody hm
    rw [kept.keys]
    exact ⟨kept.kind, fun key => .inl⟩
  | true =>
    cases st with
    | inserted hi => exact Custody.keys_of_insert? hi
    | removed hr =>
      obtain ⟨kind, known⟩ := Custody.keys_of_remove? hr
      exact ⟨kind, fun key hk => .inl (known key hk)⟩
    | storeless => exact ⟨Iff.rfl, fun key => .inl⟩
    | full hb => cases (managesKeys_of_begin? hb).symm.trans hm
    | failed hb => cases (managesKeys_of_begin? hb).symm.trans hm
    | opened hb => cases (managesKeys_of_begin? hb).symm.trans hm
    | unknown | retired | kept | ended | counted | digested => cases hm

/-- What the computation that an action begins is like. -/
structure Fresh (p : Pool σ) (a : Action) (c : Computation σ) : Prop where
  begins : a.managesKeys = false
  begun : ∃ n algorithm bytes, (p.service.on n).Begun algorithm bytes c
  bound : ∀ b, c.binding = some b → p.custody.Bound (p.copyMade a) b

theorem Step.shifts (st : Step p a r q) (range : p.arena.FreeInRange) :
    ∃ out into rest, Shift p.service (p.Fresh a) out into ∧
      p.arena.contents.Perm (out ++ rest) ∧ q.arena.contents.Perm (into ++ rest) := by
  cases st with
  | @opened _ begin c custody hb room hc =>
    obtain ⟨rest, hbefore, hafter⟩ := Arena.insert_contents (s := p.arena.takeRoom) range c
    have hfresh : p.Fresh a c := by
      refine ⟨managesKeys_of_begin? hb, begun_of_begin? hb hc, ?_⟩
      intro b hbind
      rw [copyMade, if_neg (by omega)]
      exact begin_bound hb hc hbind
    exact ⟨_, _, rest, .begun hfresh, hbefore, hafter⟩
  | @kept i call c r after hf hp live =>
    obtain ⟨rest, hbefore, hafter⟩ := Arena.fill_contents (b := after) hf
    have hcalled : after = c.after p.service.library [call] := by
      rw [Computation.after_cons, hp]
      rfl
    refine ⟨[c], [after], rest, ?_, hbefore, hafter⟩
    rw [hcalled]
    exact .called c [call]
  | @ended i call c r after hf hp gone =>
    exact ⟨_, _, _, .ended c, Arena.vacate_contents hf, .refl _⟩
  | full | failed | unknown | retired | inserted | removed | counted | storeless | digested =>
    exact ⟨[], [], p.arena.contents, .none, .refl _, .refl _⟩

end Pool

namespace World

variable {w : World σ} {handed : Nat → List Key} {a : Action}

/-- All computations that there are, over or not. -/
def computations (w : World σ) : List (Computation σ) :=
  w.session.contents ++ w.hosts.toList.flatMap fun host => host.arena.contents

/-- The actions that begin computations or go on with them. All others are about keys. -/
def Action.ofEngine : Action → Bool
  | .session a => a.ofEngine
  | .pool _ a => !a.managesKeys

/-- What the computation that an action begins is like. -/
structure Fresh (w : World σ) (a : Action) (c : Computation σ) : Prop where
  engine : a.ofEngine = true
  begun : ∃ n algorithm bytes, (w.session.service.on n).Begun algorithm bytes c
  bound : ∀ b, c.binding = some b →
    ∃ k, w.session.custody? (w.place a) = some k ∧ k.Bound (w.copyMade a) b

theorem Accounted.shifts (h : w.Accounted handed) (a : Action) :
    ∃ out into rest, Shift w.session.service (w.Fresh a) out into ∧
      w.computations.Perm (out ++ rest) ∧ (w.perform a).2.computations.Perm (into ++ rest) := by
  cases a with
  | session a =>
    obtain ⟨out, into, rest, hshift, hbefore, hafter⟩ := (w.session.perform_step a).shifts
    have hfresh : Shift w.session.service (w.Fresh (.session a)) out into := by
      refine hshift.imp rfl ?_
      exact fun c hc => ⟨Session.ofEngine_of_begins hc.begins, hc.begun, hc.bound⟩
    refine ⟨out, into, rest ++ w.hosts.toList.flatMap fun host => host.arena.contents, hfresh,
      ?_, ?_⟩
    · rw [← List.append_assoc]
      exact hbefore.append_right _
    · rw [← List.append_assoc]
      exact hafter.append_right _
  | pool number a =>
    rcases w.idle_or_poolStep number a with ⟨hw, _⟩ | ⟨host, p, st⟩
    · exact ⟨[], [], w.computations, .none, .refl _, by rw [hw]; exact .refl _⟩
    · obtain ⟨out, into, rest, hshift, hbefore, hafter⟩ := (p.perform_step a).shifts (st.range h)
      obtain ⟨others, hold, hnew⟩ :=
        exists_perm_array_set st.here { host with arena := (p.perform a).2.arena }
      have hfresh : Shift w.session.service (w.Fresh (.pool number a)) out into := by
        refine hshift.imp st.service ?_
        rintro c ⟨begins, begun, bound⟩
        refine ⟨by simp [Action.ofEngine, begins], st.service ▸ begun, ?_⟩
        intro b hb
        exact ⟨p.custody, st.place ▸ st.custody, st.copyMade ▸ bound b hb⟩
      have hcomp : (w.keep number host (p.perform a).2).session.contents = w.session.contents := by
        simp [keep, Session.contents]
      let around := w.session.contents ++ others.flatMap fun host => host.arena.contents
      have place {xs ys into : List (Computation σ)} (hx : xs.Perm (ys ++ around))
          (hy : ys.Perm (into ++ rest)) : xs.Perm (into ++ (rest ++ around)) := by
        rw [← List.append_assoc]
        exact hx.trans (hy.append_right around)
      refine ⟨out, into, rest ++ around, hfresh, place ?_ hbefore, place ?_ hafter⟩
      · rw [← st.arena]
        exact perm_out (hold.flatMap_right _)
      · rw [st.perform, computations, hcomp]
        exact perm_out (hnew.flatMap_right _)

theorem service_perform (w : World σ) (a : Action) :
    (w.perform a).2.session.service = w.session.service := by
  cases a with
  | session a => exact (w.session.perform_step a).service
  | pool number a =>
    rcases w.idle_or_poolStep number a with ⟨hw, _⟩ | ⟨host, p, st⟩
    · rw [hw]
    · rw [st.perform]
      exact Session.service_keep _ _ _

theorem service_after (w : World σ) (actions : List Action) :
    (w.after actions).session.service = w.session.service := by
  induction actions generalizing w with
  | nil => rfl
  | cons a rest ih => exact (ih _).trans (w.service_perform a)

/-- The computations that a service has begun on some occasion and that have gone through calls since,
and nothing else. -/
def Ran (s : Service σ) (c : Computation σ) : Prop :=
  ∃ n start bytes calls, (s.on n).Begun c.algorithm bytes start ∧ c = start.after s.library calls

theorem Ran.of_begun {s : Service σ} {n : Nat} {algorithm : Algorithm} {bytes : Bytes}
    (h : (s.on n).Begun algorithm bytes c) : Ran s c := by
  obtain ⟨p, b, rfl, _⟩ := h.start
  exact ⟨n, _, bytes, [], h, rfl⟩

/-- A computation is bound to a key if it is a MAC and not over, and only then; to the very key that
was asked for if the policy has it so. -/
theorem Ran.binding {s : Service σ} (h : Ran s c) :
    (c.phase ≠ .finalized → (c.binding.isSome = true ↔ c.algorithm.kind = .mac)) ∧
      ∀ key, c.binding = some (.shared key) → s.policy.keyFallback = true := by
  obtain ⟨n, start, bytes, calls, hb, hc⟩ := h
  obtain ⟨p, b, hstart, hkey⟩ := hb.start
  refine ⟨?_, ?_⟩
  · intro live
    rw [hc] at live
    rw [← hkey, hc, Computation.binding_after s.library start calls live, hstart]
    rfl
  · intro key hshared
    have hbound : start.binding = some (.shared key) := by
      rcases start.binding_after_or s.library calls with h | h
      · rw [← h, ← hc, hshared]
      · rw [hc, h] at hshared
        cases hshared
    cases hb with
    | digest hd => cases (Service.binding_beginDigest hd).symm.trans hbound
    | mac hm =>
      have binds := Service.beginMac_binds hm
      rw [hbound] at binds
      exact binds.2.1
    | macFromHandle _ hm =>
      obtain ⟨e, _, _, binds⟩ := Service.beginMacFromHandle_binds hm
      rw [hbound] at binds
      exact binds.2.1

theorem Ran.after {s : Service σ} (h : Ran s c) (calls : List Call) :
    Ran s (c.after s.library calls) := by
  obtain ⟨n, start, bytes, before, hb, rfl⟩ := h
  rw [← Computation.after_append]
  rw [Computation.algorithm_after] at hb
  exact ⟨n, start, bytes, before ++ calls, by rwa [Computation.algorithm_after], rfl⟩

theorem Accounted.ran_step (h : w.Accounted handed)
    (ran : ∀ c ∈ w.computations, Ran w.session.service c) (a : Action) :
    ∀ c ∈ (w.perform a).2.computations, Ran w.session.service c := by
  obtain ⟨out, into, rest, hshift, hbefore, hafter⟩ := h.shifts a
  have old {c : Computation σ} (hc : c ∈ out ++ rest) : Ran w.session.service c :=
    ran c (hbefore.mem_iff.mpr hc)
  intro c hc
  rcases List.mem_append.mp (hafter.mem_iff.mp hc) with hc | hc
  · cases hshift with
    | begun hfresh =>
      obtain ⟨n, algorithm, bytes, hb⟩ := hfresh.begun
      cases List.mem_singleton.mp hc
      exact .of_begun hb
    | called d calls =>
      cases List.mem_singleton.mp hc
      exact (old (List.mem_append_left rest List.mem_cons_self)).after calls
    | none | ended => cases hc
  · exact old (List.mem_append_right out hc)

/-- Whatever is done in a world, each of its computations is one that runs on its own. -/
theorem Accounted.ran_after (h : w.Accounted handed)
    (ran : ∀ c ∈ w.computations, Ran w.session.service c) (actions : List Action) :
    ∀ c ∈ (w.after actions).computations, Ran w.session.service c := by
  induction actions generalizing w handed with
  | nil => exact ran
  | cons a rest ih =>
    have hnext := ih (h.books a).accounted
    rw [service_perform] at hnext
    exact hnext (h.ran_step ran a)

end World

end StreamDigest
