import StreamDigest.Computation.Call
import StreamDigest.Proofs.Range

namespace StreamDigest

def Result.fault? : Result → Option Fault
  | .status (.error e) | .output (.error e) | .written (.error e) _ => some e
  | .status (.ok _) | .output (.ok _) | .written (.ok _) _ => none

/-- Whether a call with this result has retired a computation. Feeding does if the library fails,
and every other call does unless it is refused. -/
def Call.retires (call : Call) (r : Result) : Bool :=
  match r.fault?, call with
  | some (.retired _), _ | some .invalidHandle, _ => false
  | some (.computation _), _ => true
  | _, .feed .. => false
  | _, _ => true

theorem Call.fault?_refuse (call : Call) (e : Fault) : (call.refuse e).fault? = some e := by
  cases call <;> rfl

theorem Call.not_retires_refuse_retired (call : Call) (operation : String) :
    call.retires (call.refuse (.retired operation)) = false := by
  simp [retires, fault?_refuse]

theorem Call.not_retires_refuse_invalidHandle (call : Call) :
    call.retires (call.refuse .invalidHandle) = false := by
  simp [retires, fault?_refuse]

theorem Failure.onComputation_eq (e : Failure) : ∃ text, e.onComputation = .computation text := by
  unfold onComputation
  split <;> exact ⟨_, rfl⟩

namespace Computation

variable {σ : Type} {lib : Library σ} {c d : Computation σ} {p : σ}

theorem eq_of_toFields (h : c.toFields = d.toFields) : c = d := by
  cases c
  cases d
  cases h
  rfl

theorem phase_eq_finalized_iff : c.phase = .finalized ↔ c.primitive = none :=
  c.agree.ended

theorem exists_live (h : c.phase ≠ .finalized) : ∃ p, c.primitive = some p :=
  Option.ne_none_iff_exists'.mp (mt phase_eq_finalized_iff.mpr h)

theorem phase_live (h : c.primitive = some p) : c.phase ≠ .finalized := by
  simp [phase_eq_finalized_iff, h]

@[simp]
theorem phase_retire (c : Computation σ) : c.retire.phase = .finalized := rfl

@[simp]
theorem binding_retire (c : Computation σ) : c.retire.binding = none := rfl

theorem binding_finalized (h : c.phase = .finalized) : c.binding = none :=
  c.agree.unbound (phase_eq_finalized_iff.mp h)

theorem retire_finalized (h : c.phase = .finalized) : c.retire = c := by
  have hp := phase_eq_finalized_iff.mp h
  have hb := binding_finalized h
  obtain ⟨⟨_, _, _, _, _⟩, _⟩ := c
  cases h
  cases hp
  cases hb
  rfl

theorem describe_congr {τ : Type} {d : Computation τ} (algorithm : d.algorithm = c.algorithm)
    (phase : d.phase = c.phase) (keyed : d.isKeyed = c.isKeyed)
    (processed : d.processed = c.processed) : d.describe = c.describe := by
  -- To unfold the text by its equation would be to evaluate it.
  delta Fields.describe
  rw [algorithm, phase, keyed, processed]

/-- The computation when `length` bytes have been taken in and the primitive has become another. -/
def fed (c : Computation σ) (primitive : σ) (length : Nat) : Computation σ :=
  { c.toFields with
    primitive := some primitive
    processed := c.processed + length.toUInt64
    phase := .updating
    agree := Fields.agree_updating _ rfl rfl }

@[simp]
theorem primitive_fed (c : Computation σ) (p : σ) (n : Nat) : (c.fed p n).primitive = some p := rfl

@[simp]
theorem phase_fed (c : Computation σ) (p : σ) (n : Nat) : (c.fed p n).phase = .updating := rfl

/-- An operation on the fields is told by what it comes to there. -/
theorem ofFields_eq {α : Type} {x : Exchange σ (α × Fields σ)} {h : x.Always fun y => y.2.Agree}
    {y : Exchange σ (α × Computation σ)} (hy : y.map (fun z => (z.1, z.2.toFields)) = x) :
    ofFields x h = y :=
  Exchange.map_attach_eq h (fun _ _ => rfl) hy

theorem map_ofFields {α : Type} (x : Exchange σ (α × Fields σ)) (h : x.Always fun y => y.2.Agree) :
    (ofFields x h).map (fun z => (z.1, z.2.toFields)) = x := by
  rw [ofFields, Exchange.map_map]
  exact Exchange.map_val_attach _ _

theorem feed_of_live (h : c.primitive = some p) (data : Bytes) (offset length : Nat) :
    c.feed data offset length =
      if data.length < offset + length then
        .answer (.error (.invalidRange "update" offset length data.length), c)
      else if length = 0 then .answer (.ok (), c.fed p 0)
      else
        .absorb p (data.slice offset length) fun
          | .error e => (.error e.onComputation, c.retire)
          | .ok q => (.ok (), c.fed q length) := by
  refine ofFields_eq ?_
  simp only [Fields.feed, h, checkRange_eq]
  by_cases hr : data.length < offset + length
  · rw [if_pos hr, if_pos hr]
    rfl
  · rw [if_neg hr, if_neg hr]
    dsimp only
    by_cases hl : length = 0
    · rw [if_pos hl, if_pos hl]
      simp [Exchange.map, fed]
    · rw [if_neg hl, if_neg hl]
      refine congrArg (Exchange.absorb p _) (funext fun r => ?_)
      cases r <;> rfl

theorem feed_of_retired (h : c.primitive = none) (data : Bytes) (offset length : Nat) :
    c.feed data offset length = .answer (.error (.retired "update"), c) := by
  refine ofFields_eq ?_
  simp [Fields.feed, h, Exchange.map]

theorem finalize_of_live (h : c.primitive = some p) (capacity : Nat) :
    c.finalize capacity =
      if capacity < c.outputLen then
        .answer (.error (.outputTooSmall c.outputLen capacity), c.retire)
      else
        .output p fun
          | .ok output => (c.checkOutput output, c.retire)
          | .error e => (.error e.onComputation, c.retire) := by
  refine ofFields_eq ?_
  have hlen : c.release.outputLen = c.outputLen := rfl
  simp only [Fields.finalize, Fields.take, h, hlen]
  by_cases hc : capacity < c.outputLen
  · rw [if_pos hc, if_pos hc]
    rfl
  · rw [if_neg hc, if_neg hc]
    refine congrArg (Exchange.output p) (funext fun r => ?_)
    cases r <;> rfl

theorem finalize_of_retired (h : c.primitive = none) (capacity : Nat) :
    c.finalize capacity = .answer (.error (.retired "finalize"), c) := by
  refine ofFields_eq ?_
  simp [Fields.finalize, Fields.take, h, Exchange.map]

theorem finalizeInto_eq (c : Computation σ) (out : Bytes) (offset length : Nat) :
    c.finalizeInto out offset length =
      match c.primitive with
      | none => .answer (.error (.retired "finalize"), out, c)
      | some _ =>
        if out.length < offset + length then
          .answer (.error (.invalidRange "finalize" offset length out.length), out, c.retire)
        else
          (c.finalize length).map fun
            | (.ok output, c) => (.ok output.length, out.overwrite offset output, c)
            | (.error e, c) => (.error e, out, c) := by
  refine Exchange.map_attach_eq (f := fun z => (z.1, z.2.1, z.2.2.toFields)) _ (fun _ _ => rfl) ?_
  simp only [Fields.finalizeInto, checkRange_eq]
  cases c.primitive with
  | none => rfl
  | some p =>
    by_cases hr : out.length < offset + length
    · rw [if_pos hr, if_pos hr]
      rfl
    · dsimp only
      rw [if_neg hr, if_neg hr, Exchange.map_map, ← map_ofFields (c.toFields.finalize length)
        (c.agree.finalize length), Exchange.map_map]
      refine congrArg (fun f => (c.finalize length).map f) (funext fun x => ?_)
      rcases x with ⟨e | output, d⟩ <;> rfl

theorem verify_eq (c : Computation σ) (expected : Bytes) : c.verify expected =
    (c.finalize c.outputLen).map fun (r, c) => (r.bind (Fields.compare expected), c) := by
  refine ofFields_eq ?_
  rw [Fields.verify, Exchange.map_map, ← map_ofFields (c.toFields.finalize c.outputLen)
    (c.agree.finalize c.outputLen), Exchange.map_map]
  rfl

theorem map_finalizeInto (c : Computation σ) (out : Bytes) (offset length : Nat) :
    (c.finalizeInto out offset length).map (fun z => (z.1, z.2.1, z.2.2.toFields)) =
      c.toFields.finalizeInto out offset length := by
  rw [finalizeInto, Exchange.map_map]
  exact Exchange.map_val_attach _ _

/-- What is done to a computation is done to its fields. -/
theorem map_perform (c : Computation σ) (call : Call) :
    (c.perform call).map (fun z => (z.1, z.2.toFields)) = c.toFields.perform call := by
  cases call with
  | feed data offset length =>
    rw [perform, Fields.perform, ← map_ofFields (c.toFields.feed data offset length)
      (c.agree.feed data offset length), Exchange.map_map, Exchange.map_map]
    rfl
  | finalize capacity =>
    rw [perform, Fields.perform, ← map_ofFields (c.toFields.finalize capacity)
      (c.agree.finalize capacity), Exchange.map_map, Exchange.map_map]
    rfl
  | finalizeInto out offset length =>
    rw [perform, Fields.perform, ← map_finalizeInto, Exchange.map_map, Exchange.map_map]
    rfl
  | verify expected =>
    rw [perform, Fields.perform, ← map_ofFields (c.toFields.verify expected)
      (c.agree.verify expected), Exchange.map_map, Exchange.map_map]
    rfl
  | discard => rfl

theorem run_toFields_perform (lib : Library σ) (c : Computation σ) (call : Call) :
    (c.toFields.perform call).run lib =
      (((c.perform call).run lib).1, ((c.perform call).run lib).2.toFields) := by
  rw [← map_perform, Exchange.run_map]

/-- What finalizing comes to while the primitive is there. -/
def outcome (c : Computation σ) (lib : Library σ) (p : σ) (capacity : Nat) : Except Fault Bytes :=
  if capacity < c.outputLen then .error (.outputTooSmall c.outputLen capacity)
  else
    match lib.output p with
    | .ok output => c.checkOutput output
    | .error e => .error e.onComputation

theorem run_finalize (h : c.primitive = some p) (capacity : Nat) :
    (c.finalize capacity).run lib = (c.outcome lib p capacity, c.retire) := by
  rw [finalize_of_live h, outcome]
  split
  · rfl
  · cases ho : lib.output p <;> simp [Exchange.run, ho]

/-- A live computation rejects the range, takes note of an empty one, takes the bytes in, or is
retired by a failure of the library. -/
theorem run_feed (lib : Library σ) (h : c.primitive = some p) (data : Bytes) (offset length : Nat) :
    (data.length < offset + length ∧ (c.feed data offset length).run lib =
      (.error (.invalidRange "update" offset length data.length), c)) ∨
    (offset + length ≤ data.length ∧ length = 0 ∧
      (c.feed data offset length).run lib = (.ok (), c.fed p 0)) ∨
    (offset + length ≤ data.length ∧ length ≠ 0 ∧ ∃ q,
      lib.absorb p (data.slice offset length) = .ok q ∧
      (c.feed data offset length).run lib = (.ok (), c.fed q length)) ∨
    (offset + length ≤ data.length ∧ length ≠ 0 ∧ ∃ e,
      lib.absorb p (data.slice offset length) = .error e ∧
      (c.feed data offset length).run lib = (.error e.onComputation, c.retire)) := by
  rw [feed_of_live h]
  by_cases hr : data.length < offset + length
  · exact .inl ⟨hr, by rw [if_pos hr]; rfl⟩
  · have hle : offset + length ≤ data.length := by omega
    rw [if_neg hr]
    by_cases hl : length = 0
    · exact .inr (.inl ⟨hle, hl, by rw [if_pos hl]; rfl⟩)
    · rw [if_neg hl]
      cases ha : lib.absorb p (data.slice offset length) with
      | ok q => exact .inr (.inr (.inl ⟨hle, hl, q, rfl, by simp [Exchange.run, ha]⟩))
      | error e => exact .inr (.inr (.inr ⟨hle, hl, e, rfl, by simp [Exchange.run, ha]⟩))

theorem outcome_fault {capacity : Nat} {e : Fault} (h : c.outcome lib p capacity = .error e) :
    (∃ text, e = .computation text) ∨ e = .outputTooSmall c.outputLen capacity := by
  unfold outcome at h
  split at h
  · exact .inr (Except.error.inj h).symm
  · split at h
    · unfold Fields.checkOutput at h
      split at h
      · exact absurd h (by simp)
      · exact .inl ⟨_, (Except.error.inj h).symm⟩
    · next f _ =>
      obtain ⟨text, ht⟩ := f.onComputation_eq
      exact .inl ⟨text, (Except.error.inj h).symm.trans ht⟩

theorem run_finalizeInto (h : c.primitive = some p) (out : Bytes) (offset length : Nat) :
    (c.finalizeInto out offset length).run lib =
      (if out.length < offset + length then
        (.error (.invalidRange "finalize" offset length out.length), out, c.retire)
      else
        match c.outcome lib p length with
        | .ok output => (.ok output.length, out.overwrite offset output, c.retire)
        | .error e => (.error e, out, c.retire)) := by
  simp only [finalizeInto_eq, h]
  split
  · rfl
  · rw [Exchange.run_map, run_finalize h]
    cases c.outcome lib p length <;> rfl

theorem run_verify (h : c.primitive = some p) (expected : Bytes) :
    (c.verify expected).run lib =
      ((c.outcome lib p c.outputLen).bind (Fields.compare expected), c.retire) := by
  rw [verify_eq, Exchange.run_map, run_finalize h]

theorem retires_outcome {capacity : Nat} (h : c.outcome lib p capacity = .error e) (call : Call)
    (hc : ∀ data offset length, call ≠ .feed data offset length) {r : Result} (hr : r.fault? = some e) :
    call.retires r = true := by
  unfold Call.retires
  rw [hr]
  rcases outcome_fault h with ⟨text, rfl⟩ | rfl
  · rfl
  · cases call with
    | feed data offset length => exact absurd rfl (hc data offset length)
    | finalize _ | finalizeInto _ _ _ | verify _ | discard => rfl

/-- Every call but a feeding is the last one. -/
theorem perform_last (lib : Library σ) (h : c.primitive = some p) {call : Call}
    (hc : ∀ data offset length, call ≠ .feed data offset length) :
    call.retires ((c.perform call).run lib).1 = true ∧
      ((c.perform call).run lib).2 = c.retire := by
  cases call with
  | feed data offset length => exact absurd rfl (hc data offset length)
  | finalize capacity =>
    rw [perform, Exchange.run_map, run_finalize h]
    refine ⟨?_, rfl⟩
    cases ho : c.outcome lib p capacity with
    | ok output => rfl
    | error e => exact retires_outcome ho _ hc rfl
  | finalizeInto out offset length =>
    rw [perform, Exchange.run_map, run_finalizeInto h]
    by_cases hr : out.length < offset + length
    · rw [if_pos hr]
      exact ⟨rfl, rfl⟩
    · rw [if_neg hr]
      cases ho : c.outcome lib p length with
      | ok output => exact ⟨rfl, rfl⟩
      | error e => exact ⟨retires_outcome ho _ hc rfl, rfl⟩
  | verify expected =>
    rw [perform, Exchange.run_map, run_verify h]
    refine ⟨?_, rfl⟩
    cases ho : c.outcome lib p c.outputLen with
    | ok output =>
      by_cases he : output = expected
      · simp [Except.bind, Fields.compare, he, Call.retires, Result.fault?]
      · simp [Except.bind, Fields.compare, he, Call.retires, Result.fault?]
    | error e => exact retires_outcome ho _ hc rfl
  | discard => exact ⟨rfl, rfl⟩

/-- A call on a live computation retires it, leaves it as it is or feeds it, and the result tells
whether it is over. -/
theorem perform_live (lib : Library σ) (h : c.primitive = some p) (call : Call) :
    (call.retires ((c.perform call).run lib).1 = true ∧
      ((c.perform call).run lib).2 = c.retire) ∨
    (call.retires ((c.perform call).run lib).1 = false ∧
      (((c.perform call).run lib).2 = c ∨ ∃ q n, ((c.perform call).run lib).2 = c.fed q n)) := by
  cases call with
  | feed data offset length =>
    rw [perform, Exchange.run_map]
    rcases run_feed lib h data offset length with
      ⟨_, hf⟩ | ⟨_, _, hf⟩ | ⟨_, _, q, _, hf⟩ | ⟨_, _, e, _, hf⟩
    · rw [hf]
      exact .inr ⟨rfl, .inl rfl⟩
    · rw [hf]
      exact .inr ⟨rfl, .inr ⟨p, 0, rfl⟩⟩
    · rw [hf]
      exact .inr ⟨rfl, .inr ⟨q, length, rfl⟩⟩
    · rw [hf]
      obtain ⟨text, ht⟩ := e.onComputation_eq
      exact .inl ⟨by simp [ht, Call.retires, Result.fault?], rfl⟩
  | finalize | finalizeInto | verify | discard => exact .inl (perform_last lib h (by simp))

/-- A call that leaves a computation live leaves its key and its algorithm. -/
theorem perform_live_fields (lib : Library σ) (h : c.primitive = some p) (call : Call) :
    ((c.perform call).run lib).2 = c.retire ∨
      (((c.perform call).run lib).2.phase ≠ .finalized ∧
        ((c.perform call).run lib).2.binding = c.binding ∧
        ((c.perform call).run lib).2.algorithm = c.algorithm) := by
  rcases perform_live lib h call with ⟨_, ha⟩ | ⟨_, ha | ⟨q, n, ha⟩⟩
  · exact .inl ha
  · rw [ha]
    exact .inr ⟨phase_live h, rfl, rfl⟩
  · rw [ha]
    exact .inr ⟨phase_live rfl, rfl, rfl⟩

/-- Nothing comes of a call once the computation is over; to discard it again is no fault. -/
theorem run_perform_finalized (lib : Library σ) (h : c.phase = .finalized) (call : Call) :
    (c.perform call).run lib =
      (if call = .discard then .status (.ok ()) else call.refuse (.retired call.operation), c) := by
  have hs := phase_eq_finalized_iff.mp h
  cases call with
  | feed data offset length =>
    rw [perform, feed_of_retired hs]
    rfl
  | finalize capacity =>
    rw [perform, finalize_of_retired hs]
    rfl
  | finalizeInto out offset length =>
    simp only [perform, finalizeInto_eq, hs]
    rfl
  | verify expected =>
    rw [perform, verify_eq, finalize_of_retired hs]
    rfl
  | discard => exact Prod.ext rfl (retire_finalized h)

theorem perform_finalized (h : c.phase = .finalized) (call : Call) :
    ((c.perform call).run lib).2 = c := by
  rw [run_perform_finalized lib h]

/-- Whatever a call other than a feeding comes to, the computation is over afterwards. -/
theorem phase_last (lib : Library σ) (c : Computation σ) (call : Call)
    (hc : ∀ data offset length, call ≠ .feed data offset length) :
    ((c.perform call).run lib).2.phase = .finalized := by
  by_cases h : c.phase = .finalized
  · rwa [perform_finalized h]
  · obtain ⟨p, hs⟩ := exists_live h
    rw [(perform_last lib hs hc).2, phase_retire]

/-- The result of a call on a live computation tells whether it is live afterwards. -/
theorem retires_iff (lib : Library σ) (h : c.phase ≠ .finalized) (call : Call) :
    call.retires ((c.perform call).run lib).1 = true ↔
      ((c.perform call).run lib).2.phase = .finalized := by
  obtain ⟨p, hs⟩ := exists_live h
  rcases perform_live lib hs call with ⟨hr, ha⟩ | ⟨hr, ha | ⟨q, n, ha⟩⟩
  · simp [hr, ha]
  · simp [hr, ha, h]
  · simp [hr, ha]

/-- A call lets go of the key or leaves it bound. -/
theorem binding_perform (lib : Library σ) (c : Computation σ) (call : Call) :
    ((c.perform call).run lib).2.binding = c.binding ∨
      ((c.perform call).run lib).2.binding = none := by
  by_cases h : c.phase = .finalized
  · exact .inl (by rw [perform_finalized h])
  · obtain ⟨p, hs⟩ := exists_live h
    rcases perform_live_fields lib hs call with ha | ⟨_, hb, _⟩
    · exact .inr (by rw [ha]; rfl)
    · exact .inl hb

/-- What is done in one go is over afterwards. -/
theorem complete_finalized (lib : Library σ) (h : c.phase ≠ .finalized) (data : Bytes) :
    (c.complete lib data).2.phase = .finalized := by
  obtain ⟨p, hs⟩ := exists_live h
  unfold complete
  rcases run_feed lib hs data 0 data.length with
    ⟨hlt, _⟩ | ⟨_, _, hf⟩ | ⟨_, _, q, _, hf⟩ | ⟨_, _, e, _, hf⟩
  · omega
  · rw [hf]
    dsimp only
    rw [run_finalize (c.primitive_fed p 0), phase_retire]
  · rw [hf]
    dsimp only
    rw [run_finalize (c.primitive_fed q data.length), phase_retire]
  · rw [hf]
    rfl

theorem algorithm_perform (c : Computation σ) (call : Call) :
    ((c.perform call).run lib).2.algorithm = c.algorithm := by
  by_cases h : c.phase = .finalized
  · rw [perform_finalized h]
  · obtain ⟨p, hs⟩ := exists_live h
    rcases perform_live_fields lib hs call with ha | ⟨_, _, ha⟩
    · rw [ha]
      rfl
    · exact ha

/-- The computation after one call after the other. -/
def after (c : Computation σ) (lib : Library σ) (calls : List Call) : Computation σ :=
  calls.foldl (fun c call => ((c.perform call).run lib).2) c

@[simp]
theorem after_nil (c : Computation σ) (lib : Library σ) : c.after lib [] = c := rfl

@[simp]
theorem after_cons (c : Computation σ) (lib : Library σ) (call : Call) (rest : List Call) :
    c.after lib (call :: rest) = ((c.perform call).run lib).2.after lib rest := rfl

theorem after_append (c : Computation σ) (lib : Library σ) (front back : List Call) :
    c.after lib (front ++ back) = (c.after lib front).after lib back :=
  List.foldl_append

/-- Calls let go of the key or leave it bound. -/
theorem binding_after_or (lib : Library σ) (c : Computation σ) (calls : List Call) :
    (c.after lib calls).binding = c.binding ∨ (c.after lib calls).binding = none := by
  induction calls generalizing c with
  | nil => exact .inl rfl
  | cons call rest ih =>
    rw [after_cons]
    rcases ih ((c.perform call).run lib).2 with h | h
    · rw [h]
      exact binding_perform lib c call
    · exact .inr h

/-- Feeding piece by piece is one call after the other. -/
theorem feedAll_eq_after (lib : Library σ) (c : Computation σ) (pieces : List Bytes) :
    ∃ calls, (c.feedAll lib pieces).2 = c.after lib calls := by
  induction pieces generalizing c with
  | nil => exact ⟨[], rfl⟩
  | cons data rest ih =>
    have hfeed : ((c.feed data 0 data.length).run lib).2 =
        c.after lib [.feed data 0 data.length] := by
      rw [after_cons, after_nil, perform, Exchange.run_map]
    unfold feedAll
    rcases hf : (c.feed data 0 data.length).run lib with ⟨e | u, d⟩
    · rw [hf] at hfeed
      exact ⟨_, hfeed⟩
    · rw [hf] at hfeed
      obtain ⟨calls, hd⟩ := ih d
      have hfed : d = c.after lib [.feed data 0 data.length] := hfeed
      exact ⟨_, hd.trans (by rw [hfed, ← after_append])⟩

/-- Feeding piece by piece lets go of the key or leaves it bound. -/
theorem binding_feedAll (c : Computation σ) (lib : Library σ) (pieces : List Bytes) :
    (c.feedAll lib pieces).2.binding = c.binding ∨ (c.feedAll lib pieces).2.binding = none := by
  obtain ⟨calls, h⟩ := c.feedAll_eq_after lib pieces
  rw [h]
  exact c.binding_after_or lib calls

/-- The same computation with another key: nothing that it does depends on it. -/
def rebind (c : Computation σ) (b : Option Binding) : Computation σ :=
  { c.toFields with
    binding := c.primitive.bind fun _ => b
    agree := ⟨c.agree.ended, fun h => by rw [h]; rfl⟩ }

theorem rebind_finalized (h : c.phase = .finalized) (b : Option Binding) : c.rebind b = c := by
  have hp := phase_eq_finalized_iff.mp h
  have hb := binding_finalized h
  obtain ⟨⟨_, _, _, _, _⟩, _⟩ := c
  cases hp
  cases hb
  rfl

theorem fed_rebind (h : c.primitive = some p) (b : Option Binding) (q : σ) (n : Nat) :
    (c.rebind b).fed q n = (c.fed q n).rebind b :=
  eq_of_toFields (by simp [rebind, fed, h])

theorem outcome_rebind (c : Computation σ) (b : Option Binding) (lib : Library σ) (p : σ)
    (capacity : Nat) : (c.rebind b).outcome lib p capacity = c.outcome lib p capacity := rfl

theorem feed_rebind (h : c.primitive = some p) (b : Option Binding) (data : Bytes)
    (offset length : Nat) :
    ((c.rebind b).feed data offset length).run lib =
      (((c.feed data offset length).run lib).1,
        ((c.feed data offset length).run lib).2.rebind b) := by
  have h' : (c.rebind b).primitive = some p := h
  rw [feed_of_live h, feed_of_live h']
  by_cases hr : data.length < offset + length
  · rw [if_pos hr, if_pos hr]
    rfl
  · rw [if_neg hr, if_neg hr]
    by_cases hl : length = 0
    · rw [if_pos hl, if_pos hl, fed_rebind h]
      rfl
    · rw [if_neg hl, if_neg hl]
      cases ha : lib.absorb p (data.slice offset length) with
      | ok q => simp [Exchange.run, ha, fed_rebind h]
      | error e =>
        have hover := rebind_finalized c.phase_retire b
        simp only [Exchange.run, ha, hover]
        rfl

theorem perform_rebind (c : Computation σ) (b : Option Binding) (call : Call) :
    ((c.rebind b).perform call).run lib =
      (((c.perform call).run lib).1, ((c.perform call).run lib).2.rebind b) := by
  by_cases hf : c.phase = .finalized
  · rw [rebind_finalized hf, perform_finalized hf, rebind_finalized hf]
    exact Prod.ext rfl (perform_finalized hf call)
  · obtain ⟨p, h⟩ := exists_live hf
    have h' : (c.rebind b).primitive = some p := h
    cases call with
    | feed data offset length => simp only [perform, Exchange.run_map, feed_rebind h]
    | finalize capacity =>
      simp only [perform, Exchange.run_map, run_finalize h, run_finalize h']
      rfl
    | finalizeInto out offset length =>
      simp only [perform, Exchange.run_map, run_finalizeInto h, run_finalizeInto h']
      by_cases hr : out.length < offset + length
      · simp only [if_pos hr]
        rfl
      · simp only [if_neg hr, outcome_rebind]
        cases c.outcome lib p length <;> rfl
    | verify expected =>
      simp only [perform, Exchange.run_map, run_verify h, run_verify h']
      rfl
    | discard => rfl

theorem after_rebind (c : Computation σ) (b : Option Binding) (lib : Library σ)
    (calls : List Call) : (c.rebind b).after lib calls = (c.after lib calls).rebind b := by
  induction calls generalizing c with
  | nil => rfl
  | cons call rest ih => rw [after_cons, perform_rebind, ih, after_cons]

end Computation

end StreamDigest
