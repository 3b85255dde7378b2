import StreamDigest.Proofs.Protocol

namespace StreamDigest

variable {σ : Type}

namespace Fault

/-- Faults without what they tell about their cause. -/
inductive Kind
  | unsupportedAlgorithm
  | invalidKeyHandle
  | invalidKey
  | initialization
  | invalidRange
  | retired
  | computation
  | outputTooSmall
  | invalidHandle
  | verification
  | invalidOptions
  deriving DecidableEq, Repr

def kind : Fault → Kind
  | unsupportedAlgorithm _ => .unsupportedAlgorithm
  | invalidKeyHandle => .invalidKeyHandle
  | invalidKey _ => .invalidKey
  | initialization _ => .initialization
  | invalidRange .. => .invalidRange
  | retired _ => .retired
  | computation _ => .computation
  | outputTooSmall .. => .outputTooSmall
  | invalidHandle => .invalidHandle
  | verification => .verification
  | invalidOptions _ => .invalidOptions

/-- What a computation may fail to begin with, but for the handle of its key. -/
def ofCreation : List Kind :=
  [.unsupportedAlgorithm, .invalidKey, .initialization]

/-- The caller is not to blame for a computation that fails. -/
theorem isMisuse_of_computation {e : Fault} (h : e.kind = .computation) : e.isMisuse = false := by
  cases e <;> first | rfl | cases h

end Fault

/-- What a call may fail with. -/
def Call.faults : Call → List Fault.Kind
  | feed .. => [.retired, .invalidRange, .computation]
  | finalize _ => [.retired, .outputTooSmall, .computation]
  | finalizeInto .. => [.retired, .outputTooSmall, .computation, .invalidRange]
  | verify _ => [.retired, .computation, .verification]
  | discard => []

theorem Failure.kind_onCreation (e : Failure) : e.onCreation.kind ∈ Fault.ofCreation := by
  unfold onCreation
  split <;> simp [Fault.kind, Fault.ofCreation]

theorem Failure.kind_onComputation (e : Failure) : e.onComputation.kind = .computation := by
  obtain ⟨text, h⟩ := e.onComputation_eq
  rw [h]
  rfl

/-- How the library fails at a request of a computation of an algorithm, or gives it an output of the
wrong length, and the fault that comes of it. -/
inductive Library.Fails (lib : Library σ) (a : Algorithm) : σ × Request → Fault → Prop
  | absorb {p data e} (h : lib.absorb p data = .error e) :
      Fails lib a (p, .absorb data) e.onComputation
  | output {p e} (h : lib.output p = .error e) : Fails lib a (p, .output) e.onComputation
  | length {p output} (h : lib.output p = .ok output) (hne : output.length ≠ a.outputLen) :
      Fails lib a (p, .output) (.computation
        s!"{a.name} produced {output.length} bytes, expected {a.outputLen}")

theorem Library.Fails.kind {lib : Library σ} {a : Algorithm} {x : σ × Request} {e : Fault}
    (h : lib.Fails a x e) : e.kind = .computation := by
  cases h with
  | absorb | output => exact Failure.kind_onComputation _
  | length => rfl

theorem Library.Fails.unique {lib : Library σ} {a : Algorithm} {x : σ × Request} {e e' : Fault}
    (h : lib.Fails a x e) (h' : lib.Fails a x e') : e = e' := by
  cases h with
  | absorb hp =>
    cases h' with
    | absorb hp' =>
      cases hp.symm.trans hp'
      rfl
  | output hp =>
    cases h' with
    | output hp' =>
      cases hp.symm.trans hp'
      rfl
    | length hp' _ => cases hp.symm.trans hp'
  | length hp _ =>
    cases h' with
    | output hp' => cases hp.symm.trans hp'
    | length hp' _ =>
      cases hp.symm.trans hp'
      rfl

namespace Computation

variable {lib : Library σ} {c : Computation σ} {p : σ} {e : Fault} {capacity : Nat}
  {call : Call}

/-- All that finalizing may come to. -/
inductive Concludes (c : Computation σ) (lib : Library σ) (p : σ) (capacity : Nat) :
    Except Fault Bytes → Prop
  | cramped (h : capacity < c.outputLen) :
      Concludes c lib p capacity (.error (.outputTooSmall c.outputLen capacity))
  | failed {e : Fault} (room : c.outputLen ≤ capacity) (h : lib.Fails c.algorithm (p, .output) e) :
      Concludes c lib p capacity (.error e)
  | done {output : Bytes} (room : c.outputLen ≤ capacity) (h : lib.output p = .ok output)
      (hlen : output.length = c.outputLen) : Concludes c lib p capacity (.ok output)

theorem outcome_concludes (c : Computation σ) (lib : Library σ) (p : σ) (capacity : Nat) :
    c.Concludes lib p capacity (c.outcome lib p capacity) := by
  unfold outcome
  by_cases hlt : capacity < c.outputLen
  · rw [if_pos hlt]
    exact .cramped hlt
  · rw [if_neg hlt]
    have room : c.outputLen ≤ capacity := Nat.not_lt.mp hlt
    cases ho : lib.output p with
    | error f => exact .failed room (.output ho)
    | ok output =>
      by_cases hlen : output.length = c.outputLen
      · have hcheck : c.checkOutput output = .ok output := if_pos hlen
        simpa only [hcheck] using Concludes.done room ho hlen
      · have hcheck : c.checkOutput output = .error (.computation
            s!"{c.algorithm.name} produced {output.length} bytes, expected {c.outputLen}") :=
          if_neg hlen
        simp only [hcheck]
        exact .failed room (.length ho hlen)

theorem outcome_eq_ok {output : Bytes} (h : c.outcome lib p capacity = .ok output) :
    output.length = c.outputLen ∧ c.outputLen ≤ capacity := by
  have hc := c.outcome_concludes lib p capacity
  rw [h] at hc
  cases hc with
  | done room _ hlen => exact ⟨hlen, room⟩

/-- How a call may end that is made to a computation: by itself, with the library failing at the one
thing that it is asked, or with the library doing what it is asked. -/
inductive Reacts (c : Computation σ) (lib : Library σ) (call : Call) : Option Fault → Prop
  | alone {r : Option Fault} (hs : (c.perform call).sent? = none)
      (hr : ∀ e, r = some e → e.kind ∈ call.faults ∧ e.kind ≠ .computation) : Reacts c lib call r
  | failed {x : σ × Request} {e : Fault} (hs : (c.perform call).sent? = some x)
      (h : lib.Fails c.algorithm x e) (hm : .computation ∈ call.faults) : Reacts c lib call (some e)
  | served {x : σ × Request} {r : Option Fault} (hs : (c.perform call).sent? = some x)
      (h : ∀ e, ¬lib.Fails c.algorithm x e)
      (hr : ∀ e, r = some e → e.kind ∈ call.faults ∧ e.kind ≠ .computation) : Reacts c lib call r

theorem reacts_finalized (lib : Library σ) (h : c.phase = .finalized) (call : Call) :
    c.Reacts lib call ((c.perform call).run lib).1.fault? := by
  refine .alone (sent?_finalized h call) ?_
  rw [run_perform_finalized lib h]
  rintro e he
  cases call with
  | discard => cases he
  | feed | finalize | finalizeInto | verify =>
    cases he
    simp [Call.faults, Fault.kind]

theorem reacts_feed (lib : Library σ) (h : c.primitive = some p) (data : Bytes)
    (offset length : Nat) : c.Reacts lib (.feed data offset length)
      ((c.perform (.feed data offset length)).run lib).1.fault? := by
  have hfeed : (Call.feed data offset length).isFeed = true := rfl
  have hsent := sent?_feed h hfeed
  rw [Call.piece?] at hsent
  rw [perform, Exchange.run_map]
  rcases run_feed lib h data offset length with
    ⟨hr, hf⟩ | ⟨hr, hl, hf⟩ | ⟨hr, hl, q, hq, hf⟩ | ⟨hr, hl, e, he, hf⟩
  · rw [if_pos (.inl hr)] at hsent
    rw [hf]
    refine .alone hsent ?_
    rintro e he
    cases he
    simp [Call.faults, Fault.kind]
  · rw [if_pos (.inr hl)] at hsent
    rw [hf]
    refine .alone hsent ?_
    intro e he
    cases he
  · rw [if_neg (by omega)] at hsent
    rw [hf]
    refine .served hsent ?_ ?_
    · intro e hfails
      cases hfails with
      | absorb he => cases he.symm.trans hq
    · intro e he
      cases he
  · rw [if_neg (by omega)] at hsent
    rw [hf]
    exact .failed hsent (.absorb he) (by simp [Call.faults])

/-- A call for which there is no room, or that is not for the output at all. -/
theorem fault?_of_not_asksOutput (lib : Library σ) (h : c.primitive = some p)
    (hc : call.isFeed = false) (ha : call.asksOutput c.outputLen = false)
    (he : ((c.perform call).run lib).1.fault? = some e) :
    e.kind ∈ call.faults ∧ e.kind ≠ .computation := by
  cases call with
  | feed data offset length => cases hc
  | finalize capacity =>
    have hlt : capacity < c.outputLen := by simpa [Call.asksOutput] using ha
    rw [perform, Exchange.run_map, run_finalize h, outcome, if_pos hlt] at he
    cases he
    simp [Call.faults, Fault.kind]
  | finalizeInto out offset length =>
    rw [perform, Exchange.run_map, run_finalizeInto h] at he
    by_cases hr : out.length < offset + length
    · rw [if_pos hr] at he
      cases he
      simp [Call.faults, Fault.kind]
    · have hlt : length < c.outputLen := by
        simp only [Call.asksOutput, Bool.and_eq_false_iff, decide_eq_false_iff_not] at ha
        omega
      rw [if_neg hr, outcome, if_pos hlt] at he
      cases he
      simp [Call.faults, Fault.kind]
  | verify expected => cases ha
  | discard => cases he

/-- A call for the output comes to what finalizing comes to, unless that has to be compared. -/
theorem fault?_of_asksOutput (lib : Library σ) (h : c.primitive = some p)
    (ha : call.asksOutput c.outputLen = true) : ∃ capacity, c.outputLen ≤ capacity ∧
      (∀ e, c.outcome lib p capacity = .error e →
        ((c.perform call).run lib).1.fault? = some e ∧ .computation ∈ call.faults) ∧
      ∀ output, c.outcome lib p capacity = .ok output → ∀ e,
        ((c.perform call).run lib).1.fault? = some e →
          e.kind ∈ call.faults ∧ e.kind ≠ .computation := by
  cases call with
  | feed | discard => cases ha
  | finalize capacity =>
    refine ⟨capacity, by simpa [Call.asksOutput] using ha, ?_⟩
    rw [perform, Exchange.run_map, run_finalize h]
    constructor
    · intro e he
      simp [he, Result.fault?, Call.faults]
    · intro output ho
      simp [ho, Result.fault?]
  | finalizeInto out offset length =>
    obtain ⟨hr, hle⟩ : offset + length ≤ out.length ∧ c.outputLen ≤ length := by
      simpa [Call.asksOutput] using ha
    refine ⟨length, hle, ?_⟩
    rw [perform, Exchange.run_map, run_finalizeInto h, if_neg (by omega)]
    constructor
    · intro e he
      simp [he, Result.fault?, Call.faults]
    · intro output ho
      simp [ho, Result.fault?]
  | verify expected =>
    refine ⟨c.outputLen, Nat.le_refl _, ?_⟩
    rw [perform, Exchange.run_map, run_verify h]
    constructor
    · intro e he
      simp [he, Result.fault?, Except.bind, Call.faults]
    · intro output ho e he
      by_cases heq : output = expected
      · simp [ho, Result.fault?, Except.bind, Fields.compare, heq] at he
      · simp only [ho, Except.bind, Fields.compare, if_neg heq, Result.fault?, Option.some.injEq] at he
        subst he
        simp [Call.faults, Fault.kind]

theorem reacts (c : Computation σ) (lib : Library σ) (call : Call) :
    c.Reacts lib call ((c.perform call).run lib).1.fault? := by
  by_cases hf : c.phase = .finalized
  · exact reacts_finalized lib hf call
  · obtain ⟨p, h⟩ := exists_live hf
    cases hc : call.isFeed with
    | true =>
      cases call with
      | feed data offset length => exact reacts_feed lib h data offset length
      | finalize | finalizeInto | verify | discard => cases hc
    | false =>
      have hsent := sent?_last h hc
      cases ha : call.asksOutput c.outputLen with
      | false =>
        rw [ha] at hsent
        exact .alone hsent fun e => fault?_of_not_asksOutput lib h hc ha
      | true =>
        rw [ha] at hsent
        obtain ⟨capacity, room, failed, done⟩ := fault?_of_asksOutput lib h ha
        have hconcl := c.outcome_concludes lib p capacity
        generalize c.outcome lib p capacity = r at hconcl failed done
        cases hconcl with
        | cramped hlt => omega
        | failed _ hfails =>
          obtain ⟨hr, hm⟩ := failed _ rfl
          rw [hr]
          exact .failed hsent hfails hm
        | done _ ho hlen =>
          refine .served hsent ?_ (done _ rfl)
          intro e hfails
          cases hfails with
          | output he => cases he.symm.trans ho
          | length ho' hne =>
            cases ho'.symm.trans ho
            exact hne hlen

theorem Reacts.kind_mem {r : Option Fault} (h : c.Reacts lib call r) (he : r = some e) :
    e.kind ∈ call.faults := by
  cases h with
  | alone _ hr | served _ _ hr => exact (hr e he).1
  | failed _ hfails hm =>
    cases he
    rw [hfails.kind]
    exact hm

theorem Reacts.computation_iff {r : Option Fault} (h : c.Reacts lib call r) (e : Fault) :
    (r = some e ∧ e.kind = .computation) ↔
      ∃ x, (c.perform call).sent? = some x ∧ lib.Fails c.algorithm x e := by
  cases h with
  | alone hs hr =>
    rw [hs]
    constructor
    · rintro ⟨he, hk⟩
      exact absurd hk (hr e he).2
    · rintro ⟨_, ⟨⟩, _⟩
  | failed hs hfails hm =>
    rw [hs]
    constructor
    · rintro ⟨he, _⟩
      cases he
      exact ⟨_, rfl, hfails⟩
    · rintro ⟨_, hx, hfails'⟩
      cases hx
      cases hfails.unique hfails'
      exact ⟨rfl, hfails.kind⟩
  | served hs h hr =>
    rw [hs]
    constructor
    · rintro ⟨he, hk⟩
      exact absurd hk (hr e he).2
    · rintro ⟨_, ⟨⟩, hfails⟩
      exact absurd hfails (h e)

/-- Nothing but an output of the right length gets to a caller with room for it. -/
theorem run_finalize_ok {output : Bytes}
    (h : ((c.perform (.finalize capacity)).run lib).1 = .output (.ok output)) :
    output.length = c.outputLen ∧ output.length ≤ capacity := by
  by_cases hf : c.phase = .finalized
  · rw [run_perform_finalized lib hf] at h
    cases h
  · obtain ⟨p, hs⟩ := exists_live hf
    rw [perform, Exchange.run_map, run_finalize hs] at h
    have ho : c.outcome lib p capacity = .ok output := Result.output.inj h
    obtain ⟨hlen, room⟩ := outcome_eq_ok ho
    exact ⟨hlen, hlen ▸ room⟩

theorem run_finalizeInto_ok {out out' : Bytes} {offset length n : Nat}
    (h : ((c.perform (.finalizeInto out offset length)).run lib).1 = .written (.ok n) out') :
    n = c.outputLen ∧ n ≤ length ∧ offset + length ≤ out.length := by
  by_cases hf : c.phase = .finalized
  · rw [run_perform_finalized lib hf] at h
    cases h
  · obtain ⟨p, hs⟩ := exists_live hf
    rw [perform, Exchange.run_map, run_finalizeInto hs] at h
    by_cases hr : out.length < offset + length
    · rw [if_pos hr] at h
      cases h
    · rw [if_neg hr] at h
      cases ho : c.outcome lib p length with
      | error e =>
        rw [ho] at h
        cases h
      | ok output =>
        rw [ho] at h
        cases h
        obtain ⟨hlen, room⟩ := outcome_eq_ok ho
        exact ⟨hlen, hlen ▸ room, Nat.not_lt.mp hr⟩

theorem run_verify_ok {expected : Bytes}
    (h : ((c.perform (.verify expected)).run lib).1 = .status (.ok ())) :
    expected.length = c.outputLen := by
  by_cases hf : c.phase = .finalized
  · rw [run_perform_finalized lib hf] at h
    cases h
  · obtain ⟨p, hs⟩ := exists_live hf
    rw [perform, Exchange.run_map, run_verify hs] at h
    cases ho : c.outcome lib p c.outputLen with
    | error e =>
      rw [ho] at h
      cases h
    | ok output =>
      by_cases heq : output = expected
      · rw [← heq]
        exact (outcome_eq_ok ho).1
      · simp [ho, Except.bind, Fields.compare, heq] at h

end Computation

namespace Service

variable {s : Service σ} {a : Algorithm} {key : Key} {k l : Custody} {e : Fault}

theorem kind_beginDigest (h : s.beginDigest a = .error e) : e.kind ∈ Fault.ofCreation := by
  have hb := s.beginDigest_beginning a
  rw [h] at hb
  cases hb with
  | misused | disabled => simp [Fault.kind, Fault.ofCreation]
  | failed => exact Failure.kind_onCreation _

/-- What is looked at before a MAC takes hold of its key is the algorithm and the key. -/
theorem kind_checkMac (h : s.checkMac a key k = .error e) :
    e.kind ∈ [.unsupportedAlgorithm, .invalidKeyHandle, .invalidKey] := by
  have hc := s.macCheck a key k
  rw [h] at hc
  cases hc <;> simp [Fault.kind]

theorem kind_beginMac (h : (s.beginMac a key k).1 = .error e) :
    e.kind ∈ .invalidKeyHandle :: Fault.ofCreation := by
  have hm := beginMac_beginning s a key k
  rw [h] at hm
  generalize (s.beginMac a key k).2 = l at hm
  cases hm with
  | refused hc =>
    have hkind := kind_checkMac hc
    simp only [Fault.ofCreation, List.mem_cons] at hkind ⊢
    tauto
  | unbound hc hb =>
    rw [(bindKey_error hb).1]
    simp [Fault.kind, Fault.ofCreation]
  | failed hc hb he => exact List.mem_cons_of_mem _ (Failure.kind_onCreation _)

theorem kind_beginMacFromHandle {handle : UInt64}
    (h : (s.beginMacFromHandle a handle k).1 = .error e) :
    e.kind ∈ .invalidKeyHandle :: Fault.ofCreation := by
  rw [beginMacFromHandle_eq] at h
  rcases hr : k.resolve handle with ⟨f | key, l⟩
  · rw [hr] at h
    cases h
    rw [Custody.resolve_fault (congrArg Prod.fst hr)]
    exact List.mem_cons_self
  · rw [hr] at h
    exact kind_beginMac h

/-- The faults of a service over any library, whatever that fails with and whatever it gives out, and
with keys from anywhere. Each operation has faults of its own and no others. A computation comes to a
fault of the library, or of an output of the wrong length, exactly when the library fails so at what
it is asked, and nobody is to blame for that; what gets to a caller has the length of the algorithm's
outputs and the room that it takes. -/
theorem faults_contained (s : Service σ) :
    (∀ a e, s.beginDigest a = .error e → e.kind ∈ Fault.ofCreation) ∧
    (∀ a key k e, (s.beginMac a key k).1 = .error e →
      e.kind ∈ .invalidKeyHandle :: Fault.ofCreation) ∧
    (∀ a handle k e, (s.beginMacFromHandle a handle k).1 = .error e →
      e.kind ∈ .invalidKeyHandle :: Fault.ofCreation) ∧
    ∀ c : Computation σ,
      (∀ call e, ((c.perform call).run s.library).1.fault? = some e → e.kind ∈ call.faults) ∧
      (∀ call x e, (c.perform call).sent? = some x → s.library.Fails c.algorithm x e →
        ((c.perform call).run s.library).1.fault? = some e ∧ e.kind = .computation ∧
          e.isMisuse = false) ∧
      (∀ call e, ((c.perform call).run s.library).1.fault? = some e → e.kind = .computation →
        ∃ x, (c.perform call).sent? = some x ∧ s.library.Fails c.algorithm x e) ∧
      (∀ capacity output,
        ((c.perform (.finalize capacity)).run s.library).1 = .output (.ok output) →
          output.length = c.outputLen ∧ output.length ≤ capacity) ∧
      (∀ out offset length n out',
        ((c.perform (.finalizeInto out offset length)).run s.library).1 = .written (.ok n) out' →
          n = c.outputLen ∧ n ≤ length ∧ offset + length ≤ out.length) ∧
      ∀ expected, ((c.perform (.verify expected)).run s.library).1 = .status (.ok ()) →
        expected.length = c.outputLen := by
  refine ⟨fun a e => kind_beginDigest, fun a key k e => kind_beginMac,
    fun a handle k e => kind_beginMacFromHandle, fun c => ⟨?_, ?_, ?_, ?_, ?_, ?_⟩⟩
  · exact fun call e => (c.reacts s.library call).kind_mem
  · intro call x e hs hfails
    obtain ⟨he, hk⟩ := ((c.reacts s.library call).computation_iff e).mpr ⟨x, hs, hfails⟩
    exact ⟨he, hk, Fault.isMisuse_of_computation hk⟩
  · exact fun call e he hk => ((c.reacts s.library call).computation_iff e).mp ⟨he, hk⟩
  · exact fun capacity output => Computation.run_finalize_ok
  · exact fun out offset length n out' => Computation.run_finalizeInto_ok
  · exact fun expected => Computation.run_verify_ok

/-- A library that fails with faults of callers, and the length of whose outputs depends on what it was
fed. -/
theorem hostile_library_contained :
    let library : Library Nat := {
      name := "hostile"
      digest := fun _ a => if a = .sha1 then .ok 0 else .error (.fault .invalidKeyHandle)
      mac := fun _ _ _ => .error (.fault .verification)
      absorb := fun n _ => if n = 0 then .ok 20 else .error (.fault (.retired "update"))
      output := fun n => .ok (Bytes.zeros n) }
    let s : Service Nat := { library, policy := {} }
    let k : Custody := { vault := { materials := #[⟨[1, 2, 3], .any, 1⟩] }, source := .direct }
    let short : Fault := .computation "SHA-1 produced 0 bytes, expected 20"
    let late : Fault := .computation "update: context already finalized"
    ∃ c d : Computation Nat, ∃ e f output,
      s.beginDigest .sha1 = .ok c ∧ d = c.after library [.feed [7] 0 1] ∧
      s.beginDigest .sha256 = .error e ∧ e.kind ∈ Fault.ofCreation ∧
      (s.beginMac .hmacSha1 ⟨0⟩ k).1 = .error f ∧ f.kind ∈ .invalidKeyHandle :: Fault.ofCreation ∧
      (((c.perform (.finalize 20)).run library).1.fault? = some short ∧ short.isMisuse = false) ∧
      (((d.perform (.feed [8] 0 1)).run library).1.fault? = some late ∧ late.isMisuse = false) ∧
      ((d.perform (.finalize 30)).run library).1 = .output (.ok output) ∧ output.length = 20 := by
  intro library s k short late
  obtain ⟨digests, macs, _, calls⟩ := faults_contained s
  obtain ⟨_, failed, _⟩ := calls (.start .sha1 0 none)
  obtain ⟨_, failed', _, ended, _⟩ :=
    calls ((Computation.start .sha1 0 none).after library [.feed [7] 0 1])
  have hnone : library.output 0 = .ok [] := rfl
  have hfull : library.absorb 20 [8] = .error (.fault (.retired "update")) := rfl
  have hshort := failed (.finalize 20) (0, .output) short rfl (.length hnone (by decide))
  have hlate := failed' (.feed [8] 0 1) (20, .absorb [8]) late rfl (Library.Fails.absorb hfull)
  refine ⟨_, _, _, _, Bytes.zeros 20, rfl, rfl, rfl, digests .sha256 _ rfl, rfl,
    macs .hmacSha1 ⟨0⟩ k _ rfl, ⟨hshort.1, hshort.2.2⟩, ⟨hlate.1, hlate.2.2⟩, rfl, ?_⟩
  exact (ended 30 (Bytes.zeros 20) rfl).1

end Service

end StreamDigest
