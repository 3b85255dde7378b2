import StreamDigest.Proofs.Containment
import StreamDigest.Proofs.Range

namespace StreamDigest

variable {σ : Type}

namespace Computation

variable {lib : Library σ} {c : Computation σ}

/-- Finalizing retires a computation, whatever comes of it. -/
theorem run_finalize_snd (lib : Library σ) (c : Computation σ) (capacity : Nat) :
    ((c.finalize capacity).run lib).2 = c.retire := by
  by_cases hf : c.phase = .finalized
  · have h := congrArg Prod.snd (run_perform_finalized lib hf (.finalize capacity))
    rw [perform, Exchange.run_map] at h
    exact h.trans (retire_finalized hf).symm
  · obtain ⟨p, hs⟩ := exists_live hf
    rw [run_finalize hs]

/-- What is written is the whole output and fits into the range that it is written to. -/
theorem length_of_finalize {capacity : Nat} {output : Bytes}
    (h : ((c.finalize capacity).run lib).1 = .ok output) :
    output.length = c.outputLen ∧ output.length ≤ capacity := by
  have yielded : ((c.perform (.finalize capacity)).run lib).1 = .output (.ok output) := by
    rw [perform, Exchange.run_map]
    exact congrArg Result.output h
  exact run_finalize_ok yielded

theorem run_finalizeInto_finalized (lib : Library σ) (h : c.phase = .finalized) (out : Bytes)
    (offset length : Nat) :
    (c.finalizeInto out offset length).run lib = (.error (.retired "finalize"), out, c) := by
  rw [finalizeInto_eq, phase_eq_finalized_iff.mp h, Exchange.run]

theorem run_finalizeInto_outside (lib : Library σ) (live : c.phase ≠ .finalized) {out : Bytes}
    {offset length : Nat} (outside : out.length < offset + length) :
    (c.finalizeInto out offset length).run lib =
      (.error (.invalidRange "finalize" offset length out.length), out, c.retire) := by
  obtain ⟨p, hs⟩ := exists_live live
  rw [run_finalizeInto hs, if_pos outside]

/-- Within bounds all that is done is to write what finalizing comes to. -/
theorem run_finalizeInto_within (lib : Library σ) (live : c.phase ≠ .finalized) {out : Bytes}
    {offset length : Nat} (within : offset + length ≤ out.length) :
    (c.finalizeInto out offset length).run lib =
      match ((c.finalize length).run lib).1 with
      | .ok output => (.ok output.length, out.overwrite offset output, c.retire)
      | .error e => (.error e, out, c.retire) := by
  obtain ⟨p, hs⟩ := exists_live live
  rw [run_finalize hs]
  exact (run_finalizeInto hs out offset length).trans (if_neg (Nat.not_lt.mpr within))

/-- Finalizing into a buffer comes to what finalizing comes to, if it comes to that at all. -/
theorem finalizeInto_eq_iff (lib : Library σ) (live : c.phase ≠ .finalized) {out : Bytes}
    {offset length : Nat} (within : offset + length ≤ out.length) :
    let r := ((c.finalize length).run lib).1
    let x := ((c.finalizeInto out offset length).run lib).1
    (∀ e, x = .error e ↔ r = .error e) ∧ ∀ n, x = .ok n ↔ ∃ output, r = .ok output ∧
      output.length = n := by
  intro r x
  have hx : x = r.map List.length := by
    simp only [x, r, run_finalizeInto_within lib live within]
    cases ((c.finalize length).run lib).1 <;> rfl
  rw [hx]
  cases r with
  | error e => simp [Except.map]
  | ok output => simp [Except.map]

theorem finalizeInto_eq_refusal_iff (lib : Library σ) (live : c.phase ≠ .finalized) (out : Bytes)
    (offset length : Nat) :
    ((c.finalizeInto out offset length).run lib).1 =
        .error (.invalidRange "finalize" offset length out.length) ↔
      out.length < offset + length := by
  constructor
  · intro hx
    refine Nat.not_le.mp fun within => ?_
    have hr := ((finalizeInto_eq_iff lib live within).1 _).mp hx
    obtain ⟨p, hs⟩ := exists_live live
    rw [run_finalize hs] at hr
    rcases outcome_fault hr with ⟨text, ht⟩ | ht <;> cases ht
  · intro outside
    exact congrArg Prod.fst (run_finalizeInto_outside lib live outside)

theorem finalizeInto_eq_ok (lib : Library σ) {out : Bytes} {offset length n : Nat}
    (h : ((c.finalizeInto out offset length).run lib).1 = .ok n) :
    c.phase ≠ .finalized ∧ offset + length ≤ out.length := by
  by_cases hf : c.phase = .finalized
  · rw [run_finalizeInto_finalized lib hf] at h
    cases h
  · refine ⟨hf, Nat.not_lt.mp fun outside => ?_⟩
    rw [run_finalizeInto_outside lib hf outside] at h
    cases h

theorem finalizeInto_written (lib : Library σ) {out : Bytes} {offset length n : Nat}
    (h : ((c.finalizeInto out offset length).run lib).1 = .ok n) :
    ∃ output, ((c.finalize length).run lib).1 = .ok output ∧ output.length = n ∧
      out.Written offset output ((c.finalizeInto out offset length).run lib).2.1 := by
  obtain ⟨live, within⟩ := finalizeInto_eq_ok lib h
  obtain ⟨output, hr, hn⟩ := ((finalizeInto_eq_iff lib live within).2 n).mp h
  refine ⟨output, hr, hn, ?_⟩
  have room := (length_of_finalize hr).2
  rw [run_finalizeInto_within lib live within, hr]
  exact Bytes.written_overwrite (by omega)

theorem finalizeInto_unwritten (lib : Library σ) {out : Bytes} {offset length : Nat} {e : Fault}
    (h : ((c.finalizeInto out offset length).run lib).1 = .error e) :
    ((c.finalizeInto out offset length).run lib).2.1 = out := by
  by_cases hf : c.phase = .finalized
  · rw [run_finalizeInto_finalized lib hf]
  · by_cases outside : out.length < offset + length
    · rw [run_finalizeInto_outside lib hf outside]
    · have within := Nat.not_lt.mp outside
      have hr := ((finalizeInto_eq_iff lib hf within).1 e).mp h
      rw [run_finalizeInto_within lib hf within, hr]

theorem run_finalizeInto_snd (lib : Library σ) (c : Computation σ) (out : Bytes)
    (offset length : Nat) : ((c.finalizeInto out offset length).run lib).2.2 = c.retire := by
  by_cases hf : c.phase = .finalized
  · rw [run_finalizeInto_finalized lib hf, retire_finalized hf]
  · by_cases outside : out.length < offset + length
    · rw [run_finalizeInto_outside lib hf outside]
    · rw [run_finalizeInto_within lib hf (Nat.not_lt.mp outside)]
      cases ((c.finalize length).run lib).1 <;> rfl

/-- Finalizing into a buffer. A computation that is over refuses; any other refuses a range that does
not end within the buffer, and else comes to what finalizing comes to with that much room. If that is
an output, it is of the length of the algorithm's outputs, it stands where it was to stand, and all
other bytes are what they were, those of the range beyond it among them. If it is a fault, no byte has
changed. In any case the computation is over and has let go of its key. With words for bounds the
range is refused as it is by their sum, and the bytes that are written have a range of words. -/
theorem finalizeInto_writes_output_only (lib : Library σ) (c : Computation σ) (out : Bytes)
    (offset length : Nat) :
    let r := ((c.finalize length).run lib).1
    let x := (c.finalizeInto out offset length).run lib
    let refusal : Fault := .invalidRange "finalize" offset length out.length
    (c.phase = .finalized → x.1 = .error (.retired "finalize")) ∧
    (c.phase ≠ .finalized → out.length < offset + length → x.1 = .error refusal) ∧
    (c.phase ≠ .finalized → offset + length ≤ out.length →
      (∀ e, x.1 = .error e ↔ r = .error e) ∧
      ∀ n, x.1 = .ok n ↔ ∃ output, r = .ok output ∧ output.length = n) ∧
    (∀ n, x.1 = .ok n → n = c.outputLen ∧ n ≤ length ∧
      ∃ output, r = .ok output ∧ output.length = n ∧ out.Written offset output x.2.1) ∧
    (∀ e, x.1 = .error e → x.2.1 = out) ∧
    (x.2.2 = c.retire ∧ x.2.2.phase = .finalized ∧ x.2.2.binding = none) ∧
    ∀ available start size : UInt64,
      out.length = available.toNat → offset = start.toNat → length = size.toNat →
        (c.phase ≠ .finalized → (x.1 = .error refusal ↔ rangeEnd? available start size = none)) ∧
        ∀ n, x.1 = .ok n → (rangeEnd? available start n.toUInt64).isSome := by
  intro r x refusal
  have hover := run_finalizeInto_snd lib c out offset length
  have written (n : Nat) (hn : x.1 = .ok n) : n = c.outputLen ∧ n ≤ length ∧
      ∃ output, r = .ok output ∧ output.length = n ∧ out.Written offset output x.2.1 := by
    obtain ⟨output, hr, hlen, hw⟩ := finalizeInto_written lib hn
    obtain ⟨houtput, room⟩ := length_of_finalize hr
    exact ⟨hlen ▸ houtput, hlen ▸ room, output, hr, hlen, hw⟩
  refine ⟨?_, ?_, ?_, written, fun e => finalizeInto_unwritten lib, ?_, ?_⟩
  · intro hf
    exact congrArg Prod.fst (run_finalizeInto_finalized lib hf out offset length)
  · intro live outside
    exact (finalizeInto_eq_refusal_iff lib live out offset length).mpr outside
  · intro live within
    exact finalizeInto_eq_iff lib live within
  · exact ⟨hover, by rw [hover, phase_retire], by rw [hover, binding_retire]⟩
  · rintro available start size hout rfl rfl
    constructor
    · intro live
      rw [rangeEnd?_eq_none_iff, ← hout]
      exact finalizeInto_eq_refusal_iff lib live out _ _
    · intro n hn
      obtain ⟨_, room, output, _, hlen, hw⟩ := written n hn
      have hsize : n.toUInt64.toNat = n := by
        rw [Nat.toUInt64_eq, UInt64.toNat_ofNat', Nat.mod_eq_of_lt]
        exact Nat.lt_of_le_of_lt room size.toNat_lt
      rw [Option.isSome_iff_exists]
      refine ⟨_, rangeEnd?_eq_some_iff.mpr ⟨?_, rfl⟩⟩
      rw [hsize, ← hlen, ← hout]
      exact hw.within

/-- A digest of twenty bytes for which there are three places, and one that is short. -/
theorem finalizeInto_of_three_ranges :
    let library : Library Nat := {
      name := "lengths"
      digest := fun _ _ => .ok 0
      mac := fun _ _ _ => .ok 0
      absorb := fun n data => .ok (n + data.length)
      output := fun n => .ok (List.replicate (19 + n) 5) }
    let c : Computation Nat := (start .sha1 0 none).after library [.feed [7] 0 1]
    let out : Bytes := List.replicate 30 9
    let x := (c.finalizeInto out 4 24).run library
    let late := (c.finalizeInto out 18446744073709551612 24).run library
    let short := ((start .sha1 0 none).finalizeInto out 4 24).run library
    (∃ output, ((c.finalize 24).run library).1 = .ok output ∧ x.2.1.slice 4 20 = output) ∧
      x.2.1[3]? = some 9 ∧ x.2.1[24]? = some 9 ∧ x.2.2.phase = .finalized ∧
      late.1 = .error (.invalidRange "finalize" 18446744073709551612 24 30) ∧ late.2.1 = out ∧
      (∃ e, short.1 = .error e ∧ ((start .sha1 0 none).finalize 24 |>.run library).1 = .error e) ∧
      short.2.1 = out := by
  intro library c out x late short
  have live : c.phase ≠ .finalized := by decide
  obtain ⟨_, _, _, written, _, ⟨_, ended, _⟩, _⟩ :=
    finalizeInto_writes_output_only library c out 4 24
  obtain ⟨_, _, output, hr, hlen, hw⟩ := written 20 rfl
  obtain ⟨_, _, _, _, kept, _, words⟩ :=
    finalizeInto_writes_output_only library c out 18446744073709551612 24
  have refused := ((words 30 18446744073709551612 24 rfl rfl rfl).1 live).mpr rfl
  obtain ⟨_, _, agreed, _, kept', _⟩ :=
    finalizeInto_writes_output_only library (start .sha1 0 none) out 4 24
  obtain ⟨e, he⟩ : ∃ e, short.1 = .error e := ⟨_, rfl⟩
  refine ⟨⟨output, hr, hlen ▸ hw.inside⟩, hw.outside 3 (.inl (by decide)), ?_, ended, refused,
    kept _ refused, ⟨e, he, ((agreed (by decide) (by decide)).1 e).mp he⟩, kept' e he⟩
  exact hw.outside 24 (.inr (by omega))

/-- Verification by means of `same`, which is only asked of tags of one length. -/
def verifyWith (same : Bytes → Bytes → Bool) (c : Computation σ) (expected : Bytes) :
    Exchange σ (Except Fault Unit × Computation σ) :=
  (c.finalize c.outputLen).map fun (r, c) =>
    (r.bind fun output =>
      if expected.length = output.length ∧ same output expected = true then .ok ()
      else .error .verification, c)

theorem verifyWith_eq_verify {same : Bytes → Bytes → Bool}
    (faithful : ∀ x y : Bytes, x.length = y.length → (same x y = true ↔ x = y))
    (c : Computation σ) (expected : Bytes) : c.verifyWith same expected = c.verify expected := by
  have hcompare : (fun output : Bytes =>
      if expected.length = output.length ∧ same output expected = true then Except.ok ()
      else .error .verification) = Fields.compare expected := by
    funext output
    have hiff : (expected.length = output.length ∧ same output expected = true) ↔
        output = expected := by
      constructor
      · rintro ⟨hlen, hs⟩
        exact (faithful output expected hlen.symm).mp hs
      · rintro rfl
        exact ⟨rfl, (faithful output output rfl).mpr rfl⟩
    simp only [hiff, Fields.compare]
  rw [verifyWith, verify_eq, hcompare]

/-- With room for the output there is nothing that can go wrong but the library. -/
theorem outcome_outputLen {p : σ} {e : Fault} (h : c.outcome lib p c.outputLen = .error e) :
    ∃ text, e = .computation text := by
  have hc := c.outcome_concludes lib p c.outputLen
  rw [h] at hc
  cases hc with
  | cramped hlt => exact absurd hlt (Nat.lt_irrefl _)
  | failed _ hfails =>
    rcases outcome_fault h with ht | rfl
    · exact ht
    · cases hfails.kind

/-- What verifying a tag comes to, by what finalizing does. -/
inductive Verdict (expected : Bytes) : Except Fault Bytes → Except Fault Unit → Prop
  | accepted : Verdict expected (.ok expected) (.ok ())
  | refused {output : Bytes} (h : output ≠ expected) :
      Verdict expected (.ok output) (.error .verification)
  | failed (text : String) :
      Verdict expected (.error (.computation text)) (.error (.computation text))

theorem verdict_verify (lib : Library σ) (live : c.phase ≠ .finalized) (expected : Bytes) :
    Verdict expected ((c.finalize c.outputLen).run lib).1 ((c.verify expected).run lib).1 := by
  obtain ⟨p, hs⟩ := exists_live live
  rw [run_finalize hs, run_verify hs]
  cases h : c.outcome lib p c.outputLen with
  | error e =>
    obtain ⟨text, rfl⟩ := outcome_outputLen h
    exact .failed text
  | ok output =>
    by_cases heq : output = expected
    · subst heq
      simpa [Except.bind, Fields.compare] using Verdict.accepted
    · simpa [Except.bind, Fields.compare, heq] using Verdict.refused heq

theorem run_verify_snd (lib : Library σ) (c : Computation σ) (expected : Bytes) :
    ((c.verify expected).run lib).2 = c.retire := by
  rw [verify_eq, Exchange.run_map, run_finalize_snd]

/-- Verification accepts the output and nothing else, by whatever means it tells whether two tags of
one length are equal. All other tags are refused as such, those that begin like the output and those
that go on after it too; if there is no output, the fault is the library's. In any case the computation
is over and has let go of its key: from then on nothing comes of any call, another guess among them. -/
theorem verify_accepts_output_only (lib : Library σ) (c : Computation σ)
    (live : c.phase ≠ .finalized) (same : Bytes → Bytes → Bool)
    (faithful : ∀ x y : Bytes, x.length = y.length → (same x y = true ↔ x = y))
    (expected : Bytes) :
    let r := ((c.finalize c.outputLen).run lib).1
    let x := (c.verifyWith same expected).run lib
    x = (c.verify expected).run lib ∧
    (x.1 = .ok () ↔ r = .ok expected) ∧
    (x.1 = .error .verification ↔ ∃ output, r = .ok output ∧ output ≠ expected) ∧
    ((∃ text, x.1 = .error (.computation text)) ↔ ∃ e, r = .error e) ∧
    (∀ e, r = .error e → x.1 = .error e) ∧
    (∀ required capacity, x.1 ≠ .error (.outputTooSmall required capacity)) ∧
    (x.2 = c.retire ∧ x.2.phase = .finalized ∧ x.2.binding = none) ∧
    ∀ calls,
      (∀ guess, (((x.2.after lib calls).verifyWith same guess).run lib).1 =
        .error (.retired "finalize")) ∧
      ∀ e ∈ x.2.history lib calls, e.yields = false := by
  have verdict := verdict_verify lib live expected
  have ended := run_verify_snd lib c expected
  simp only [verifyWith_eq_verify faithful]
  generalize (c.verify expected).run lib = x at verdict ended
  generalize ((c.finalize c.outputLen).run lib).1 = r at verdict
  obtain ⟨v, d⟩ := x
  subst ended
  refine ⟨trivial, ?_, ?_, ?_, ?_, ?_, ⟨rfl, c.phase_retire, c.binding_retire⟩, ?_⟩
  · cases verdict with
    | accepted => simp
    | refused h => simpa using h
    | failed text => simp
  · cases verdict with
    | accepted => simp
    | refused h => simpa using h
    | failed text => simp
  · cases verdict <;> simp
  · cases verdict <;> simp
  · cases verdict <;> simp
  · intro calls
    refine ⟨fun guess => ?_, fun e he => (history_finalized c.phase_retire he).2⟩
    rw [after_finalized lib c.phase_retire, verify_eq, Exchange.run_map,
      finalize_of_retired (phase_eq_finalized_iff.mp c.phase_retire)]
    rfl

/-- Whether two tags have no bit that differs, as far as the shorter of them goes. -/
def sameBits (x y : Bytes) : Bool :=
  (x.zipWith (· ^^^ ·) y).all (· = 0)

theorem sameBits_iff (x y : Bytes) (h : x.length = y.length) : sameBits x y = true ↔ x = y := by
  induction x generalizing y with
  | nil =>
    cases y with
    | nil => simp [sameBits]
    | cons b y => cases h
  | cons a x ih =>
    cases y with
    | nil => cases h
    | cons b y =>
      have hrest := ih y (Nat.succ.inj h)
      rw [sameBits] at hrest ⊢
      simp [hrest]

/-- A tag of twenty bytes, and four that come near it, the last but for one bit. -/
theorem verify_of_near_tags :
    let library : Library Nat := {
      name := "lengths"
      digest := fun _ _ => .ok 0
      mac := fun _ _ _ => .ok 0
      absorb := fun n data => .ok (n + data.length)
      output := fun n => .ok (List.replicate (19 + n) 5) }
    let c : Computation Nat := (start .hmacSha1 0 (some (.shared ⟨0⟩))).after library [.feed [7] 0 1]
    let tag : Bytes := List.replicate 20 5
    ((c.verifyWith sameBits tag).run library).1 = .ok () ∧
      ∀ near ∈ [[], tag.take 19, tag ++ [5], tag.set 7 4],
        ((c.verifyWith sameBits near).run library).1 = .error .verification ∧
          ((c.verifyWith sameBits near).run library).2.binding = none := by
  intro library c tag
  have live : c.phase ≠ .finalized := by decide
  have output : ((c.finalize c.outputLen).run library).1 = .ok tag := rfl
  have differ : ∀ near ∈ [[], tag.take 19, tag ++ [5], tag.set 7 4], tag ≠ near := by decide
  obtain ⟨_, accepted, _⟩ := verify_accepts_output_only library c live sameBits sameBits_iff tag
  refine ⟨accepted.mpr output, fun near hnear => ?_⟩
  obtain ⟨_, _, refused, _, _, _, ⟨_, _, unkeyed⟩, _⟩ :=
    verify_accepts_output_only library c live sameBits sameBits_iff near
  exact ⟨refused.mpr ⟨tag, output, differ near hnear⟩, unkeyed⟩

end Computation

end StreamDigest
