import StreamDigest.Proofs.Protocol
import StreamDigest.Proofs.Range

namespace StreamDigest

variable {σ : Type}

/-- Whether the call is a feeding that was refused, or that had nothing to feed. -/
def Event.isVoid (e : Event) : Bool :=
  match e.call, e.result with
  | .feed .., .status (.error (.invalidRange ..)) | .feed .., .status (.error (.retired _)) => true
  | .feed _ _ length, _ => length = 0
  | _, _ => false

/-- What is left of a list whose elements are marked with whether they are to stay. -/
def kept {α : Type} (marked : List (α × Bool)) : List α :=
  (marked.filter Prod.snd).map Prod.fst

section kept

variable {α : Type} (x : α) (rest : List (α × Bool))

@[simp]
theorem kept_nil : kept ([] : List (α × Bool)) = [] := rfl

@[simp]
theorem kept_cons_true : kept ((x, true) :: rest) = x :: kept rest := rfl

@[simp]
theorem kept_cons_false : kept ((x, false) :: rest) = kept rest := rfl

end kept

namespace Computation

variable {lib : Library σ} {c d e : Computation σ} {p : σ}

/-- Computations that are the same, but that one may be idle and the other updating. -/
structure Twin (c d : Computation σ) : Prop where
  algorithm : d.algorithm = c.algorithm
  primitive : d.primitive = c.primitive
  binding : d.binding = c.binding
  processed : d.processed = c.processed

theorem Twin.refl (c : Computation σ) : c.Twin c :=
  ⟨rfl, rfl, rfl, rfl⟩

/-- Two twins of one computation are twins. -/
theorem Twin.both (h : c.Twin d) (h' : c.Twin e) : d.Twin e :=
  ⟨h'.algorithm.trans h.algorithm.symm, h'.primitive.trans h.primitive.symm,
    h'.binding.trans h.binding.symm, h'.processed.trans h.processed.symm⟩

theorem twin_fed_nothing (h : c.primitive = some p) : c.Twin (c.fed p 0) :=
  ⟨rfl, by rw [primitive_fed, h], rfl, by simp [fed]⟩

theorem Twin.fed (h : c.Twin d) (p : σ) (n : Nat) : d.fed p n = c.fed p n :=
  eq_of_toFields (by simp [Computation.fed, h.algorithm, h.binding, h.processed])

theorem Twin.retire (h : c.Twin d) : d.retire = c.retire :=
  eq_of_toFields (by simp [Computation.retire, Fields.release, h.algorithm, h.processed])

/-- Twins are over together, and then there is nothing to tell them apart. -/
theorem Twin.finalized_or_live (h : c.Twin d) : (c.phase = .finalized ∧ d = c) ∨
    ∃ p, c.primitive = some p ∧ d.primitive = some p := by
  by_cases hf : c.phase = .finalized
  · have hd : d.phase = .finalized := by
      rw [phase_eq_finalized_iff] at hf ⊢
      exact h.primitive.trans hf
    exact .inl ⟨hf, by rw [← retire_finalized hd, h.retire, retire_finalized hf]⟩
  · obtain ⟨p, hc⟩ := exists_live hf
    exact .inr ⟨p, hc, h.primitive.trans hc⟩

/-- Only a feeding that is refused leaves its computation as it was. -/
theorem Twin.feed (lib : Library σ) (h : c.Twin d) (hc : c.primitive = some p)
    (hd : d.primitive = some p) (data : Bytes) (offset length : Nat) :
    ((d.feed data offset length).run lib).1 = ((c.feed data offset length).run lib).1 ∧
      ((c.feed data offset length).run lib).2.Twin ((d.feed data offset length).run lib).2 := by
  rw [feed_of_live hc, feed_of_live hd]
  by_cases hr : data.length < offset + length
  · rw [if_pos hr, if_pos hr]
    exact ⟨rfl, h⟩
  · rw [if_neg hr, if_neg hr]
    simp only [h.fed, h.retire]
    exact ⟨trivial, .refl _⟩

/-- No call tells twins apart. -/
theorem Twin.perform (lib : Library σ) (h : c.Twin d) (call : Call) :
    ((d.perform call).run lib).1 = ((c.perform call).run lib).1 ∧
      ((c.perform call).run lib).2.Twin ((d.perform call).run lib).2 := by
  rcases h.finalized_or_live with ⟨_, rfl⟩ | ⟨p, hc, hd⟩
  · exact ⟨rfl, .refl _⟩
  · have hlen : d.outputLen = c.outputLen := congrArg Algorithm.outputLen h.algorithm
    have outcome (capacity : Nat) : d.outcome lib p capacity = c.outcome lib p capacity := by
      simp only [Computation.outcome, Fields.checkOutput, hlen, h.algorithm]
    have ended : c.retire.Twin d.retire := by
      rw [h.retire]
      exact .refl _
    cases call with
    | feed data offset length =>
      obtain ⟨hr, ht⟩ := h.feed lib hc hd data offset length
      simp only [Computation.perform, Exchange.run_map]
      exact ⟨congrArg Result.status hr, ht⟩
    | finalize capacity =>
      simp only [Computation.perform, Exchange.run_map, run_finalize hc, run_finalize hd, outcome]
      exact ⟨trivial, ended⟩
    | finalizeInto out offset length =>
      simp only [Computation.perform, Exchange.run_map, run_finalizeInto hc, run_finalizeInto hd,
        outcome]
      split
      · exact ⟨rfl, ended⟩
      · cases c.outcome lib p length <;> exact ⟨rfl, ended⟩
    | verify expected =>
      simp only [Computation.perform, Exchange.run_map, run_verify hc, run_verify hd, outcome, hlen]
      exact ⟨trivial, ended⟩
    | discard => exact ⟨rfl, ended⟩

theorem Twin.sent? (h : c.Twin d) (call : Call) :
    (d.perform call).sent? = (c.perform call).sent? := by
  rcases h.finalized_or_live with ⟨_, rfl⟩ | ⟨p, hc, hd⟩
  · rfl
  · have hlen : d.outputLen = c.outputLen := congrArg Algorithm.outputLen h.algorithm
    cases hf : call.isFeed with
    | true => rw [sent?_feed hc hf, sent?_feed hd hf]
    | false => rw [sent?_last hc hf, sent?_last hd hf, hlen]

theorem Twin.event (lib : Library σ) (h : c.Twin d) (call : Call) :
    d.event lib call = c.event lib call := by
  rw [event_eq, event_eq, (h.perform lib call).1, Exchange.fails_congr lib (request_perform d call)
    (request_perform c call) (h.sent? call)]

/-- A void feeding makes a twin of its computation. -/
theorem twin_of_isVoid {call : Call} (h : (c.event lib call).isVoid = true) :
    c.Twin ((c.perform call).run lib).2 := by
  by_cases hf : c.phase = .finalized
  · rw [perform_finalized hf]
    exact .refl c
  · obtain ⟨p, hs⟩ := exists_live hf
    cases call with
    | feed data offset length =>
      rw [event_feed, Event.isVoid] at h
      rw [run_perform_feed]
      rcases run_feed lib hs data offset length with
        ⟨_, hrun⟩ | ⟨_, _, hrun⟩ | ⟨_, hl, q, _, hrun⟩ | ⟨_, hl, e, _, hrun⟩
      · rw [hrun]
        exact .refl c
      · rw [hrun]
        exact twin_fed_nothing hs
      · simp [hrun, hl] at h
      · obtain ⟨text, ht⟩ := e.onComputation_eq
        simp [hrun, hl, ht] at h
    | finalize | finalizeInto | verify | discard => simp [Event.isVoid, event_eq] at h

/-- To leave void feedings out of a run takes them out of its history and changes nothing else. -/
theorem Twin.thin {marked : List (Call × Bool)} (h : c.Twin d)
    (void : ∀ x ∈ (c.history lib (marked.map Prod.fst)).zip (marked.map Prod.snd),
      x.2 = false → x.1.isVoid = true) :
    d.history lib (kept marked) =
        kept ((c.history lib (marked.map Prod.fst)).zip (marked.map Prod.snd)) ∧
      (c.after lib (marked.map Prod.fst)).Twin (d.after lib (kept marked)) := by
  induction marked generalizing c d with
  | nil => exact ⟨rfl, h⟩
  | cons first rest ih =>
    obtain ⟨call, stays⟩ := first
    rw [List.map_cons, List.map_cons, history_cons, List.zip_cons_cons] at void ⊢
    have void_rest := fun x hx => void x (List.mem_cons_of_mem _ hx)
    cases stays with
    | false =>
      have gone := twin_of_isVoid (void _ List.mem_cons_self rfl)
      exact ih (gone.both h) void_rest
    | true =>
      obtain ⟨hr, ht⟩ := ih (h.perform lib call).2 void_rest
      rw [kept_cons_true, kept_cons_true, history_cons, hr, h.event]
      exact ⟨rfl, ht⟩

theorem length_history (c : Computation σ) (lib : Library σ) (calls : List Call) :
    (c.history lib calls).length = calls.length := by
  induction calls generalizing c with
  | nil => rfl
  | cons call rest ih => rw [history_cons, List.length_cons, List.length_cons, ih]

theorem history_append (c : Computation σ) (lib : Library σ) (front back : List Call) :
    c.history lib (front ++ back) = c.history lib front ++ (c.after lib front).history lib back := by
  induction front generalizing c with
  | nil => rfl
  | cons call rest ih => rw [List.cons_append, history_cons, history_cons, ih, after_cons, List.cons_append]

/-- What a feeding comes to that is refused, as far as it is told. -/
def rejection (data : Bytes) (offset length : Nat) : Result :=
  .status (.error (.invalidRange "update" offset length data.length))

/-- A computation that is not over looks at the range first, and at nothing else if that is out of
bounds or empty. -/
theorem perform_feed_cases (lib : Library σ) (live : c.phase ≠ .finalized) (data : Bytes)
    (offset length : Nat) :
    let r := (c.perform (.feed data offset length)).run lib
    (data.length < offset + length ∧ r = (rejection data offset length, c)) ∨
    (offset + length ≤ data.length ∧
      (r.1 = .status (.ok ()) ∨ ∃ text, r.1 = .status (.error (.computation text))) ∧
      (length = 0 → r.1 = .status (.ok ()) ∧ c.Twin r.2)) := by
  obtain ⟨p, hs⟩ := exists_live live
  simp only [perform, Exchange.run_map]
  rcases run_feed lib hs data offset length with
    ⟨hr, hrun⟩ | ⟨hr, _, hrun⟩ | ⟨hr, hl, q, _, hrun⟩ | ⟨hr, hl, e, _, hrun⟩
  · rw [hrun]
    exact .inl ⟨hr, rfl⟩
  · rw [hrun]
    exact .inr ⟨hr, .inl rfl, fun _ => ⟨rfl, twin_fed_nothing hs⟩⟩
  · rw [hrun]
    exact .inr ⟨hr, .inl rfl, fun hz => absurd hz hl⟩
  · rw [hrun]
    obtain ⟨text, ht⟩ := e.onComputation_eq
    exact .inr ⟨hr, .inr ⟨text, by rw [ht]⟩, fun hz => absurd hz hl⟩

theorem perform_feed_eq_rejection_iff (lib : Library σ) (live : c.phase ≠ .finalized)
    (data : Bytes) (offset length : Nat) :
    ((c.perform (.feed data offset length)).run lib).1 = rejection data offset length ↔
      data.length < offset + length := by
  rcases perform_feed_cases lib live data offset length with ⟨hlt, hr⟩ | ⟨hle, hr, _⟩
  · rw [hr]
    exact ⟨fun _ => hlt, fun _ => rfl⟩
  · refine ⟨fun h => ?_, fun hlt => absurd hle (Nat.not_le.mpr hlt)⟩
    rcases hr with hr | ⟨text, hr⟩
    · cases hr.symm.trans h
    · cases hr.symm.trans h

/-- Feedings that are refused and feedings of nothing leave no trace. A range of a computation that is
not over is within bounds if it ends within them, whatever words its bounds are; if not, the fault
tells the range, and the computation stays what it is. An empty one makes it a twin. To leave any
choice of these out of calls of all kinds leaves the others with the events that they were, and the
computation after them with the same primitive, key and count. -/
theorem void_feedings_leave_no_trace (lib : Library σ) (c : Computation σ) :
    (c.phase ≠ .finalized → ∀ data offset length,
      let r := (c.perform (.feed data offset length)).run lib
      (r.1 = rejection data offset length ↔ data.length < offset + length) ∧
      (r.1 = rejection data offset length → r.2 = c) ∧
      (offset + length ≤ data.length → length = 0 → r.1 = .status (.ok ()) ∧ c.Twin r.2) ∧
      (offset + length ≤ data.length →
        r.1 = .status (.ok ()) ∨ ∃ text, r.1 = .status (.error (.computation text))) ∧
      ∀ available start size : UInt64,
        data.length = available.toNat → offset = start.toNat → length = size.toNat →
          (r.1 = rejection data offset length ↔ rangeEnd? available start size = none)) ∧
    ∀ marked : List (Call × Bool),
      let calls := marked.map Prod.fst
      let events := (c.history lib calls).zip (marked.map Prod.snd)
      (∀ x ∈ events, x.2 = false → x.1.isVoid = true) →
        c.history lib (kept marked) = kept events ∧
        ∀ front back, marked = front ++ back →
          (c.after lib (front.map Prod.fst)).Twin (c.after lib (kept front)) := by
  constructor
  · intro live data offset length r
    have hiff := perform_feed_eq_rejection_iff lib live data offset length
    refine ⟨hiff, ?_, ?_, ?_, ?_⟩
    · intro hr
      rcases perform_feed_cases lib live data offset length with ⟨_, hr⟩ | ⟨hle, _⟩
      · exact congrArg Prod.snd hr
      · exact absurd hle (Nat.not_le.mpr (hiff.mp hr))
    · intro hle
      rcases perform_feed_cases lib live data offset length with ⟨hlt, _⟩ | ⟨_, _, hr⟩
      · exact absurd hle (Nat.not_le.mpr hlt)
      · exact hr
    · intro hle
      rcases perform_feed_cases lib live data offset length with ⟨hlt, _⟩ | ⟨_, hr, _⟩
      · exact absurd hle (Nat.not_le.mpr hlt)
      · exact hr
    · rintro available start size hdata rfl rfl
      rw [rangeEnd?_eq_none_iff, ← hdata]
      exact hiff
  · intro marked calls events void
    refine ⟨((Twin.refl c).thin void).1, ?_⟩
    rintro front back rfl
    refine ((Twin.refl c).thin fun x hx => void x ?_).2
    have hlen : (c.history lib (front.map Prod.fst)).length = (front.map Prod.snd).length := by
      rw [length_history, List.length_map, List.length_map]
    simp only [events, calls, List.map_append, history_append, List.zip_append hlen]
    exact List.mem_append_left _ hx

/-- Two pieces among feedings that are out of bounds, one of them past the last word, of nothing, and
too late. -/
theorem void_feedings_among_two_pieces :
    let library : Library Nat := {
      name := "lengths"
      digest := fun _ _ => .ok 0
      mac := fun _ _ _ => .ok 0
      absorb := fun n data => .ok (n + data.length)
      output := fun n => .ok (List.replicate 32 n.toUInt8) }
    let c : Computation Nat := .start .sha256 0 none
    let marked : List (Call × Bool) := [(.feed [7, 8, 9] 1 2, true), (.feed [7] 1 1, false),
      (.feed [7] 18446744073709551615 2, false), (.feed [7] 1 0, false), (.feed [7] 0 1, true),
      (.finalize 32, true), (.feed [7] 0 1, false)]
    let early := (c.perform (.feed [7] 18446744073709551615 2)).run library
    early.1 = rejection [7] 18446744073709551615 2 ∧ early.2 = c ∧
      ((c.perform (.feed [7] 1 0)).run library).1 = .status (.ok ()) ∧
      (kept ((c.history library (marked.map Prod.fst)).zip (marked.map Prod.snd))).map Event.result =
        [.status (.ok ()), .status (.ok ()), .output (.ok (List.replicate 32 3))] ∧
      (c.after library (marked.map Prod.fst)).Twin (c.after library (kept marked)) := by
  intro library c marked early
  obtain ⟨single, runs⟩ := void_feedings_leave_no_trace library c
  have live : c.phase ≠ .finalized := by decide
  obtain ⟨_, same, _, _, words⟩ := single live [7] 18446744073709551615 2
  have rejected := (words 1 18446744073709551615 2 rfl rfl rfl).mpr rfl
  obtain ⟨_, _, empty, _⟩ := single live [7] 1 0
  obtain ⟨events, twins⟩ := runs marked (by decide)
  refine ⟨rejected, same rejected, (empty (by decide) rfl).1, ?_,
    twins marked [] (List.append_nil _).symm⟩
  rw [← events]
  rfl

end Computation

end StreamDigest
