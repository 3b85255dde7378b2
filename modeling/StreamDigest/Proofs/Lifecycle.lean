import StreamDigest.Proofs.Streaming

namespace StreamDigest

variable {σ : Type}

/-- The order in which a computation goes through its phases. -/
def Phase.rank : Phase → Nat
  | idle => 0
  | updating => 1
  | finalized => 2

theorem Phase.rank_le_finalized (ph : Phase) : ph.rank ≤ finalized.rank := by
  cases ph <;> decide

/-- Whether the library fails at what is asked of it. -/
def Exchange.fails {α : Type} (lib : Library σ) : Exchange σ α → Bool
  | answer _ => false
  | digest n a _ => !(lib.digest n a).isOk
  | mac n a key _ => !(lib.mac n a key).isOk
  | absorb p data _ => !(lib.absorb p data).isOk
  | output p _ => !(lib.output p).isOk

@[simp]
theorem Exchange.fails_map {α β : Type} (f : α → β) (lib : Library σ) (x : Exchange σ α) :
    (x.map f).fails lib = x.fails lib := by
  cases x <;> rfl

/-- A call on a computation, what came of it, and whether the library failed at it. -/
structure Event where
  call : Call
  result : Result
  failed : Bool

namespace Event

/-- Whether the call is one after which a computation is over: a feeding at which the library
fails, or any other call, whatever comes of it. -/
def ends (e : Event) : Bool :=
  match e.call with
  | .feed .. => e.failed
  | .finalize _ | .finalizeInto .. | .verify _ | .discard => true

/-- The number of bytes that were fed, if the call is a feeding and it succeeded. -/
def fed? (e : Event) : Option Nat :=
  match e.call, e.result with
  | .feed _ _ length, .status (.ok _) => some length
  | _, _ => none

/-- Whether the call brought the output out, if only to be compared. -/
def yields (e : Event) : Bool :=
  match e.call, e.result with
  | .finalize _, .output (.ok _) | .finalizeInto .., .written (.ok _) _
  | .verify _, .status (.ok _) | .verify _, .status (.error .verification) => true
  | _, _ => false

theorem fed?_of_not_feed {e : Event} (h : ∀ data offset length, e.call ≠ .feed data offset length) :
    e.fed? = none := by
  unfold fed?
  split
  · next hc _ => exact absurd hc (h _ _ _)
  · rfl

end Event

namespace Fields

/-- The fields after one call after the other. -/
def after (f : Fields σ) (lib : Library σ) (calls : List Call) : Fields σ :=
  calls.foldl (fun f call => ((f.perform call).run lib).2) f

def event (f : Fields σ) (lib : Library σ) (call : Call) : Event where
  call
  result := ((f.perform call).run lib).1
  failed := (f.perform call).fails lib

/-- The events of one call after the other. -/
def history (f : Fields σ) (lib : Library σ) : List Call → List Event
  | [] => []
  | call :: rest => f.event lib call :: ((f.perform call).run lib).2.history lib rest

end Fields

namespace Computation

variable {lib : Library σ} {c d : Computation σ} {p : σ}

/-- The fields of a computation go through the calls on their own. -/
theorem toFields_after (lib : Library σ) (c : Computation σ) (calls : List Call) :
    (c.after lib calls).toFields = c.toFields.after lib calls := by
  induction calls generalizing c with
  | nil => rfl
  | cons call rest ih =>
    rw [after_cons, ih, Fields.after, Fields.after, List.foldl_cons, run_toFields_perform]

theorem event_eq (c : Computation σ) (lib : Library σ) (call : Call) : c.event lib call = {
    call
    result := ((c.perform call).run lib).1
    failed := (c.perform call).fails lib } := by
  rw [Fields.event, ← map_perform, Exchange.run_map, Exchange.fails_map]

@[simp]
theorem history_nil (c : Computation σ) (lib : Library σ) : c.history lib [] = [] := rfl

theorem history_cons (c : Computation σ) (lib : Library σ) (call : Call) (rest : List Call) :
    c.history lib (call :: rest) =
      c.event lib call :: ((c.perform call).run lib).2.history lib rest := by
  rw [Fields.history, run_toFields_perform]

/-- What an event means for the computation `c`, which is not over: it ends it, leaves it alone, or
has fed it. -/
inductive Passage (c : Computation σ) (e : Event) : Computation σ → Prop
  | ended (he : e.ends = true) (hf : e.fed? = none) : Passage c e c.retire
  | refused (he : e.ends = false) (hf : e.fed? = none) (hy : e.yields = false) : Passage c e c
  | fed {p n} (he : e.ends = false) (hf : e.fed? = some n) (hy : e.yields = false) :
      Passage c e (c.fed p n)

theorem event_feed (c : Computation σ) (lib : Library σ) (data : Bytes) (offset length : Nat) :
    c.event lib (.feed data offset length) = {
      call := .feed data offset length
      result := .status ((c.feed data offset length).run lib).1
      failed := (c.feed data offset length).fails lib } := by
  simp [event_eq, perform]

theorem run_perform_feed (c : Computation σ) (lib : Library σ) (data : Bytes)
    (offset length : Nat) : ((c.perform (.feed data offset length)).run lib).2 =
      ((c.feed data offset length).run lib).2 := by
  rw [perform, Exchange.run_map]

/-- The library can only fail at a feeding that asks something of it. -/
theorem fails_feed (lib : Library σ) (h : c.primitive = some p) (data : Bytes)
    (offset length : Nat) : (c.feed data offset length).fails lib =
      if data.length < offset + length ∨ length = 0 then false
      else !(lib.absorb p (data.slice offset length)).isOk := by
  rw [feed_of_live h]
  by_cases hr : data.length < offset + length
  · simp [hr, Exchange.fails]
  · by_cases hl : length = 0
    · subst hl
      have hlt : ¬data.length < offset := by omega
      simp [hlt, Exchange.fails]
    · simp [hr, hl, Exchange.fails]

theorem passage_feed (lib : Library σ) (h : c.primitive = some p) (data : Bytes)
    (offset length : Nat) : Passage c (c.event lib (.feed data offset length))
      ((c.feed data offset length).run lib).2 := by
  have hfail := fails_feed lib h data offset length
  rw [event_feed]
  rcases run_feed lib h data offset length with
    ⟨hr, hf⟩ | ⟨hr, hl, hf⟩ | ⟨hr, hl, q, hq, hf⟩ | ⟨hr, hl, e, he, hf⟩
  · rw [if_pos (.inl hr)] at hfail
    rw [hf, hfail]
    exact .refused rfl rfl rfl
  · rw [if_pos (.inr hl)] at hfail
    rw [hf, hfail]
    rw [← hl]
    exact .fed rfl rfl rfl
  · rw [if_neg (by omega), hq] at hfail
    rw [hf, hfail]
    exact .fed rfl rfl rfl
  · rw [if_neg (by omega), he] at hfail
    rw [hf, hfail]
    exact .ended rfl rfl

theorem passage (lib : Library σ) (h : c.primitive = some p) (call : Call) :
    Passage c (c.event lib call) ((c.perform call).run lib).2 := by
  cases call with
  | feed data offset length =>
    rw [run_perform_feed]
    exact passage_feed lib h data offset length
  | finalize | finalizeInto | verify | discard =>
    rw [(perform_last lib h (by simp)).2]
    exact .ended rfl (Event.fed?_of_not_feed (by simp [Fields.event]))

/-- Nothing is taken in or brought out once a computation is over. -/
theorem event_finalized (lib : Library σ) (h : c.phase = .finalized) (call : Call) :
    (c.event lib call).fed? = none ∧ (c.event lib call).yields = false := by
  have hr := run_perform_finalized lib h call
  cases call <;> simp [event_eq, hr, Event.fed?, Event.yields, Call.refuse]

theorem after_finalized (lib : Library σ) (h : c.phase = .finalized) (calls : List Call) :
    c.after lib calls = c := by
  induction calls with
  | nil => rfl
  | cons call rest ih => rw [after_cons, perform_finalized h, ih]

theorem history_finalized (h : c.phase = .finalized) {calls : List Call} {e : Event}
    (he : e ∈ c.history lib calls) : e.fed? = none ∧ e.yields = false := by
  induction calls with
  | nil => cases he
  | cons call rest ih =>
    rw [history_cons, perform_finalized h] at he
    rcases List.mem_cons.mp he with rfl | he
    · exact event_finalized lib h call
    · exact ih he

theorem phase_after_eq_finalized_iff (lib : Library σ) (hs : c.primitive = some p)
    (calls : List Call) :
    (c.after lib calls).phase = .finalized ↔ ∃ e ∈ c.history lib calls, e.ends = true := by
  induction calls generalizing c p with
  | nil => simp [phase_live hs]
  | cons call rest ih =>
    have hp := passage lib hs call
    rw [after_cons, history_cons]
    generalize c.event lib call = e at hp ⊢
    generalize ((c.perform call).run lib).2 = d at hp ⊢
    cases hp with
    | ended he => simp [he, after_finalized lib c.phase_retire]
    | refused he => simp [he, ih hs]
    | fed he =>
      rw [ih (c.primitive_fed _ _)]
      simp [he]

theorem phase_after_eq_idle_iff (lib : Library σ) (hs : c.primitive = some p)
    (calls : List Call) : (c.after lib calls).phase = .idle ↔
      c.phase = .idle ∧ ∀ e ∈ c.history lib calls, e.ends = false ∧ e.fed? = none := by
  induction calls generalizing c p with
  | nil => simp
  | cons call rest ih =>
    have hp := passage lib hs call
    rw [after_cons, history_cons, List.forall_mem_cons]
    generalize c.event lib call = e at hp ⊢
    generalize ((c.perform call).run lib).2 = d at hp ⊢
    cases hp with
    | ended he => simp [he, after_finalized lib c.phase_retire]
    | refused he hf => simp [he, hf, ih hs]
    | fed he hf =>
      rw [ih (c.primitive_fed _ _)]
      simp [hf]

theorem algorithm_after (lib : Library σ) (c : Computation σ) (calls : List Call) :
    (c.after lib calls).algorithm = c.algorithm := by
  induction calls generalizing c with
  | nil => rfl
  | cons call rest ih => rw [after_cons, ih, algorithm_perform]

/-- A computation that is not over has the key that it had. -/
theorem binding_after (lib : Library σ) (c : Computation σ) (calls : List Call)
    (live : (c.after lib calls).phase ≠ .finalized) :
    (c.after lib calls).binding = c.binding := by
  induction calls generalizing c with
  | nil => rfl
  | cons call rest ih =>
    rw [after_cons] at live ⊢
    rw [ih _ live]
    by_cases hf : c.phase = .finalized
    · rw [perform_finalized hf]
    · obtain ⟨p, hs⟩ := exists_live hf
      rcases perform_live_fields lib hs call with ha | ⟨_, hb, _⟩
      · rw [ha, after_finalized lib c.phase_retire] at live
        exact absurd c.phase_retire live
      · exact hb

theorem processed_after (lib : Library σ) (c : Computation σ) (calls : List Call) :
    (c.after lib calls).processed =
      c.processed + ((c.history lib calls).filterMap Event.fed?).sum.toUInt64 := by
  induction calls generalizing c with
  | nil => simp
  | cons call rest ih =>
    rw [after_cons, history_cons, ih]
    by_cases hf : c.phase = .finalized
    · rw [perform_finalized hf, List.filterMap_cons_none (event_finalized lib hf call).1]
    · obtain ⟨p, hs⟩ := exists_live hf
      have hp := passage lib hs call
      generalize c.event lib call = e at hp ⊢
      generalize ((c.perform call).run lib).2 = d at hp ⊢
      cases hp with
      | ended he hf => rw [List.filterMap_cons_none hf]; rfl
      | refused he hf => rw [List.filterMap_cons_none hf]
      | fed he hf =>
        rw [List.filterMap_cons_some hf, List.sum_cons]
        simp [Computation.fed, UInt64.add_assoc]

theorem countP_yields_le_one (lib : Library σ) (c : Computation σ) (calls : List Call) :
    (c.history lib calls).countP Event.yields ≤ 1 := by
  have quiet {c : Computation σ} (h : c.phase = .finalized) (calls : List Call) :
      (c.history lib calls).countP Event.yields = 0 := by
    apply List.countP_eq_zero.mpr
    intro e he
    simp [(history_finalized h he).2]
  induction calls generalizing c with
  | nil => simp
  | cons call rest ih =>
    by_cases hf : c.phase = .finalized
    · rw [quiet hf]
      exact Nat.zero_le _
    · obtain ⟨p, hs⟩ := exists_live hf
      have hp := passage lib hs call
      rw [history_cons, List.countP_cons]
      generalize c.event lib call = e at hp ⊢
      generalize ((c.perform call).run lib).2 = d at hp ⊢
      cases hp with
      | ended he =>
        rw [quiet c.phase_retire]
        split <;> omega
      | refused he hf hy => simpa [hy] using ih _
      | fed he hf hy => simpa [hy] using ih _

/-- No call takes a computation back. -/
theorem rank_le_perform (lib : Library σ) (c : Computation σ) (call : Call) :
    c.phase.rank ≤ ((c.perform call).run lib).2.phase.rank := by
  by_cases hf : c.phase = .finalized
  · exact Nat.le_of_eq (by rw [perform_finalized hf])
  · obtain ⟨p, hs⟩ := exists_live hf
    have hp := passage lib hs call
    generalize ((c.perform call).run lib).2 = d at hp ⊢
    cases hp with
    | ended => exact c.phase.rank_le_finalized
    | refused => exact Nat.le_refl _
    | fed =>
      have live := phase_live hs
      cases hph : c.phase <;> simp_all [Phase.rank]

theorem rank_le_after (lib : Library σ) (c : Computation σ) (calls : List Call) :
    c.phase.rank ≤ (c.after lib calls).phase.rank := by
  induction calls generalizing c with
  | nil => exact Nat.le_refl _
  | cons call rest ih => exact Nat.le_trans (rank_le_perform lib c call) (ih _)

end Computation

namespace Service

variable {s : Service σ} {a : Algorithm} {key : Bytes} {c : Computation σ}

theorem beginMac_start {key : Key} {k l : Custody} (h : s.beginMac a key k = (.ok c, l)) :
    a.kind = .mac ∧ ∃ p b, c = .start a p (some b) := by
  obtain ⟨hm, b, p, _, _, rfl⟩ := beginMac_eq_ok h
  exact ⟨(checkMac_eq_ok_iff.mp hm).1, p, b, rfl⟩

/-- A computation begins with a key if it is a MAC, and only then. -/
theorem Begun.start (h : s.Begun a key c) :
    ∃ p b, c = .start a p b ∧ (b.isSome = true ↔ a.kind = .mac) := by
  cases h with
  | digest h =>
    obtain ⟨hk, _, p, _, rfl⟩ := beginDigest_eq_ok_iff.mp h
    exact ⟨p, none, rfl, by simp [hk]⟩
  | mac h =>
    obtain ⟨hk, p, b, rfl⟩ := beginMac_start h
    exact ⟨p, some b, rfl, by simp [hk]⟩
  | macFromHandle _ h =>
    obtain ⟨_, _, _, _, hm, _⟩ := beginMacFromHandle_eq_ok h
    obtain ⟨hk, p, b, rfl⟩ := beginMac_start hm
    exact ⟨p, some b, rfl, by simp [hk]⟩

/-- The life of a computation under any calls, to feed all of a buffer being a call to feed a range of
it. Its phase only goes forward. It is over as soon as there was a call that ends it, whatever came
of that call; from then on it has neither primitive nor key, and it refuses everything but to be
discarded again. Up to then a MAC has its key, and its count is of the bytes that it was fed. All
this is about the bare fields, on which the operations work without a proof that they agree; the
computation is what they come to. -/
theorem computation_lifecycle (s : Service σ) (a : Algorithm) (key : Bytes) (c : Computation σ)
    (begun : s.Begun a key c) (calls : List Call) :
    let f := c.toFields.after s.library calls
    let events := c.toFields.history s.library calls
    let total := (events.filterMap Event.fed?).sum
    (∀ more, f.phase.rank ≤ (f.after s.library more).phase.rank) ∧
    (f.phase = .idle ↔ ∀ e ∈ events, e.ends = false ∧ e.fed? = none) ∧
    (f.phase = .finalized ↔ f.primitive = none) ∧
    (f.primitive = none → f.binding = none) ∧
    (f.primitive ≠ none → (f.isKeyed = true ↔ a.kind = .mac)) ∧
    (f.phase = .finalized ↔ ∃ e ∈ events, e.ends = true) ∧
    (f.phase = .finalized →
      (∀ data offset length, (f.perform (.feed data offset length)).run s.library =
        (.status (.error (.retired "update")), f)) ∧
      (∀ capacity, (f.perform (.finalize capacity)).run s.library =
        (.output (.error (.retired "finalize")), f)) ∧
      (∀ out offset length, (f.perform (.finalizeInto out offset length)).run s.library =
        (.written (.error (.retired "finalize")) out, f)) ∧
      (∀ expected, (f.perform (.verify expected)).run s.library =
        (.status (.error (.retired "finalize")), f)) ∧
      (f.perform .discard).run s.library = (.status (.ok ()), f)) ∧
    events.countP Event.yields ≤ 1 ∧
    f.processed = total.toUInt64 ∧ (total < 2 ^ 64 → f.processed.toNat = total) ∧
    f.algorithm = a ∧ (c.after s.library calls).toFields = f := by
  intro f events total
  obtain ⟨p, b, rfl, hkey⟩ := begun.start
  let c := Computation.start a p b
  have hs : c.primitive = some p := rfl
  have hf : (c.after s.library calls).toFields = f := Computation.toFields_after ..
  have processed : f.processed = total.toUInt64 := by
    rw [← hf, Computation.processed_after s.library c calls]
    exact UInt64.zero_add _
  refine ⟨?_, ?_, ?_, ?_, ?_, ?_, ?_, Computation.countP_yields_le_one s.library c calls, processed,
    ?_, ?_, hf⟩
  · intro more
    rw [← hf, ← Computation.toFields_after]
    exact Computation.rank_le_after s.library _ more
  · rw [← hf, Computation.phase_after_eq_idle_iff s.library hs calls]
    exact and_iff_right rfl
  · rw [← hf]
    exact Computation.phase_eq_finalized_iff
  · rw [← hf]
    exact (c.after s.library calls).agree.unbound
  · intro live
    rw [← hf] at live ⊢
    rw [Fields.isKeyed, Computation.binding_after s.library c calls
      (mt Computation.phase_eq_finalized_iff.mp live)]
    exact hkey
  · rw [← hf]
    exact Computation.phase_after_eq_finalized_iff s.library hs calls
  · intro ended
    rw [← hf] at ended
    have hr (call : Call) : (f.perform call).run s.library =
        (if call = .discard then .status (.ok ()) else call.refuse (.retired call.operation), f) := by
      rw [← hf, Computation.run_toFields_perform, Computation.run_perform_finalized _ ended]
    exact ⟨fun _ _ _ => hr _, fun _ => hr _, fun _ _ _ => hr _, fun _ => hr _, hr _⟩
  · intro hlt
    rw [processed]
    exact Nat.mod_eq_of_lt hlt
  · rw [← hf]
    exact Computation.algorithm_after s.library c calls

/-- A MAC over a library that fails at the second feeding of any bytes. -/
theorem failing_mac_lifecycle :
    let library : Library Nat := {
      name := "failing"
      digest := fun _ _ => .ok 0
      mac := fun _ _ _ => .ok 0
      absorb := fun n _ => if n = 0 then .ok 1 else .error (.foreign "fault")
      output := fun _ => .ok [] }
    let s : Service Nat := { library, policy := {} }
    let k : Custody := { vault := { materials := #[⟨[1, 2, 3], .any, 1⟩] }, source := .direct }
    let calls : List Call := [.feed [7, 8, 9] 1 2, .feed [7] 1 1, .feed [7] 0 0, .feed [7] 0 1]
    ∃ c, (s.beginMac .hmacSha256 ⟨0⟩ k).1 = .ok c ∧ s.Begun .hmacSha256 [1, 2, 3] c ∧
      (c.toFields.after library calls).primitive = none ∧
      (c.toFields.after library calls).binding = none ∧
      (c.toFields.after library calls).processed.toNat = 2 ∧
      ((c.toFields.after library calls).perform (.finalize 32)).run library =
        (.output (.error (.retired "finalize")), c.toFields.after library calls) := by
  intro library s k calls
  obtain ⟨c, hc⟩ : ∃ c, (s.beginMac .hmacSha256 ⟨0⟩ k).1 = .ok c := ⟨_, rfl⟩
  have hbegin : s.beginMac .hmacSha256 ⟨0⟩ k = (.ok c, (s.beginMac .hmacSha256 ⟨0⟩ k).2) :=
    Prod.ext hc rfl
  have begun : s.Begun .hmacSha256 [1, 2, 3] c := .mac hbegin
  cases hc
  obtain ⟨_, _, gone, unbound, _, ended, refused, _, _, count, _⟩ :=
    computation_lifecycle s .hmacSha256 [1, 2, 3] _ begun calls
  have hended := ended.mpr ⟨_, List.mem_of_getLast? rfl, rfl⟩
  have hgone := gone.mp hended
  exact ⟨_, rfl, begun, hgone, unbound hgone, count (by decide), (refused hended).2.1 32⟩

end Service

end StreamDigest
