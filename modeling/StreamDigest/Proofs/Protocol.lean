import StreamDigest.Proofs.Lifecycle

namespace StreamDigest

variable {σ : Type}

namespace Exchange

variable {α β : Type}

/-- What is asked of a primitive, which is there already. -/
def sent? : Exchange σ α → Option (σ × Request)
  | answer _ | digest .. | mac .. => none
  | absorb p data _ => some (p, .absorb data)
  | output p _ => some (p, .output)

@[simp]
theorem sent?_map (f : α → β) (x : Exchange σ α) : (x.map f).sent? = x.sent? := by
  cases x <;> rfl

theorem fails_congr {x : Exchange σ α} {y : Exchange σ β} (lib : Library σ)
    (hx : x.request = x.sent?.map Prod.snd) (hy : y.request = y.sent?.map Prod.snd)
    (h : x.sent? = y.sent?) : x.fails lib = y.fails lib := by
  cases x <;> cases y <;> simp_all [request, sent?, fails]

end Exchange

namespace Call

def isFeed : Call → Bool
  | feed .. => true
  | finalize _ | finalizeInto .. | verify _ | discard => false

/-- What a feeding has for a primitive: the bytes of a range within bounds, if there are any. -/
def piece? : Call → Option Bytes
  | feed data offset length =>
    if data.length < offset + length ∨ length = 0 then none else some (data.slice offset length)
  | finalize _ | finalizeInto .. | verify _ | discard => none

/-- Whether there is room for an output of `len` bytes, in a call that asks for one. -/
def asksOutput (len : Nat) : Call → Bool
  | finalize capacity => len ≤ capacity
  | finalizeInto out offset length => offset + length ≤ out.length && len ≤ length
  | verify _ => true
  | feed .. | discard => false

/-- The pieces that there are for a primitive before the first call of another kind. -/
def pieces (calls : List Call) : List Bytes :=
  (calls.takeWhile isFeed).filterMap piece?

/-- Whether the first call that is no feeding asks for an output of `len` bytes. -/
def closeWithOutput (len : Nat) (calls : List Call) : Bool :=
  (calls.find? fun call => !call.isFeed).any (asksOutput len)

theorem piece?_ne_nil {call : Call} {piece : Bytes} (h : call.piece? = some piece) : piece ≠ [] := by
  cases call with
  | feed data offset length =>
    rw [piece?] at h
    by_cases hr : data.length < offset + length ∨ length = 0
    · rw [if_pos hr] at h
      cases h
    · rw [if_neg hr] at h
      cases h
      apply List.ne_nil_of_length_pos
      rw [Bytes.slice, List.length_take, List.length_drop]
      omega
  | finalize | finalizeInto | verify | discard => cases h

theorem pieces_cons_of_feed {call : Call} (h : call.isFeed = true) (rest : List Call) :
    pieces (call :: rest) = call.piece?.toList ++ pieces rest := by
  rw [pieces, List.takeWhile_cons_of_pos h, List.filterMap_cons]
  cases call.piece? <;> rfl

theorem pieces_cons_of_last {call : Call} (h : call.isFeed = false) (rest : List Call) :
    pieces (call :: rest) = [] := by
  rw [pieces, List.takeWhile_cons_of_neg (by simp [h]), List.filterMap_nil]

theorem closeWithOutput_cons_of_feed {call : Call} (h : call.isFeed = true) (len : Nat)
    (rest : List Call) : closeWithOutput len (call :: rest) = closeWithOutput len rest := by
  rw [closeWithOutput, List.find?_cons_of_neg (by simp [h]), closeWithOutput]

theorem closeWithOutput_cons_of_last {call : Call} (h : call.isFeed = false) (len : Nat)
    (rest : List Call) : closeWithOutput len (call :: rest) = call.asksOutput len := by
  rw [closeWithOutput, List.find?_cons_of_pos (by simp [h]), Option.any_some]

theorem ne_nil_of_mem_pieces {calls : List Call} {data : Bytes} (h : data ∈ pieces calls) :
    data ≠ [] := by
  obtain ⟨call, _, hc⟩ := List.mem_filterMap.mp h
  exact piece?_ne_nil hc

end Call

/-- What a primitive is asked when it is fed one piece after the other, up to the first at which the
library fails. -/
def Library.course (lib : Library σ) (p : σ) : List Bytes → List (σ × Request)
  | [] => []
  | data :: rest => (p, .absorb data) ::
      match lib.absorb p data with
      | .ok q => lib.course q rest
      | .error _ => []

namespace Library

variable {lib : Library σ} {p q : σ} {pieces : List Bytes}

theorem foldlM_cons_ok {data : Bytes} (h : lib.absorb p data = .ok q) (rest : List Bytes) :
    (data :: rest).foldlM lib.absorb p = rest.foldlM lib.absorb q := by
  rw [List.foldlM_cons, h]
  rfl

theorem foldlM_cons_error {data : Bytes} {e : Failure} (h : lib.absorb p data = .error e)
    (rest : List Bytes) : (data :: rest).foldlM lib.absorb p = .error e := by
  rw [List.foldlM_cons, h]
  rfl

theorem course_of_ok (h : pieces.foldlM lib.absorb p = .ok q) :
    (lib.course p pieces).map Prod.snd = pieces.map .absorb := by
  induction pieces generalizing p with
  | nil => rfl
  | cons data rest ih =>
    cases hp : lib.absorb p data with
    | error e => cases (foldlM_cons_error hp rest).symm.trans h
    | ok p' => simp [course, hp, ih ((foldlM_cons_ok hp rest).symm.trans h)]

theorem course_of_error {front back : List Bytes} {data : Bytes} {e : Failure}
    (h : front.foldlM lib.absorb p = .ok q) (he : lib.absorb q data = .error e) :
    (front ++ data :: back).foldlM lib.absorb p = .error e ∧
      (lib.course p (front ++ data :: back)).map Prod.snd = (front ++ [data]).map .absorb := by
  induction front generalizing p with
  | nil =>
    cases h
    exact ⟨foldlM_cons_error he back, by simp [course, he]⟩
  | cons first rest ih =>
    cases hp : lib.absorb p first with
    | error e' => cases (foldlM_cons_error hp rest).symm.trans h
    | ok p' =>
      obtain ⟨hfold, hcourse⟩ := ih ((foldlM_cons_ok hp rest).symm.trans h)
      exact ⟨(foldlM_cons_ok hp _).trans hfold, by simpa [course, hp] using hcourse⟩

/-- Each piece is for what the pieces before it have made of the primitive. -/
theorem course_addressed {i : Nat} {r : Request} (h : (lib.course p pieces)[i]? = some (q, r)) :
    (pieces.take i).foldlM lib.absorb p = .ok q := by
  induction pieces generalizing p i with
  | nil => cases h
  | cons data rest ih =>
    cases i with
    | zero =>
      cases h
      rfl
    | succ i =>
      rw [course, List.getElem?_cons_succ] at h
      cases hp : lib.absorb p data with
      | error e =>
        rw [hp] at h
        cases h
      | ok p' =>
        rw [hp] at h
        exact (foldlM_cons_ok hp _).trans (ih h)

theorem mem_course {r : Request} (h : (q, r) ∈ lib.course p pieces) :
    ∃ data ∈ pieces, r = .absorb data := by
  induction pieces generalizing p with
  | nil => cases h
  | cons data rest ih =>
    rw [course] at h
    rcases List.mem_cons.mp h with h | h
    · cases h
      exact ⟨data, List.mem_cons_self, rfl⟩
    · cases hp : lib.absorb p data with
      | error e =>
        rw [hp] at h
        cases h
      | ok p' =>
        rw [hp] at h
        obtain ⟨data', hm, hr⟩ := ih h
        exact ⟨data', List.mem_cons_of_mem data hm, hr⟩

theorem length_course_of_ok (h : pieces.foldlM lib.absorb p = .ok q) :
    (lib.course p pieces).length = pieces.length := by
  simpa using congrArg List.length (course_of_ok h)

end Library

namespace Computation

variable {lib : Library σ} {c : Computation σ} {p : σ}

/-- All that is asked of primitives in one call after the other. -/
def traffic (c : Computation σ) (lib : Library σ) : List Call → List (σ × Request)
  | [] => []
  | call :: rest =>
    (c.perform call).sent?.toList ++ ((c.perform call).run lib).2.traffic lib rest

theorem sent?_finalized (h : c.phase = .finalized) (call : Call) :
    (c.perform call).sent? = none := by
  have hs := phase_eq_finalized_iff.mp h
  cases call <;> simp [perform, feed_of_retired hs, finalize_of_retired hs, finalizeInto_eq, verify_eq,
    hs, Exchange.map, Exchange.sent?]

theorem traffic_finalized (h : c.phase = .finalized) (calls : List Call) :
    c.traffic lib calls = [] := by
  induction calls with
  | nil => rfl
  | cons call rest ih => rw [traffic, sent?_finalized h, perform_finalized h, ih]; rfl

/-- A feeding asks its primitive to take in a piece, if it has one. -/
theorem sent?_feed (h : c.primitive = some p) {call : Call} (hc : call.isFeed = true) :
    (c.perform call).sent? = call.piece?.map fun data => (p, .absorb data) := by
  cases call with
  | feed data offset length =>
    rw [perform, Exchange.sent?_map, Call.piece?, feed_of_live h]
    by_cases hr : data.length < offset + length
    · simp [hr, Exchange.sent?]
    · by_cases hl : length = 0
      · subst hl
        have hlt : ¬data.length < offset := by omega
        simp [hlt, Exchange.sent?]
      · simp [hr, hl, Exchange.sent?]
  | finalize | finalizeInto | verify | discard => cases hc

/-- Any other call asks its primitive for the output, or for nothing. -/
theorem sent?_last (h : c.primitive = some p) {call : Call} (hc : call.isFeed = false) :
    (c.perform call).sent? = if call.asksOutput c.outputLen then some (p, .output) else none := by
  have sent_finalize (capacity : Nat) : (c.finalize capacity).sent? =
      if c.outputLen ≤ capacity then some (p, .output) else none := by
    rw [finalize_of_live h]
    by_cases hlt : capacity < c.outputLen
    · have hle : ¬c.outputLen ≤ capacity := by omega
      simp [hlt, hle, Exchange.sent?]
    · have hle : c.outputLen ≤ capacity := by omega
      simp [hlt, hle, Exchange.sent?]
  cases call with
  | feed data offset length => cases hc
  | finalize capacity => simp [perform, sent_finalize, Call.asksOutput]
  | finalizeInto out offset length =>
    rw [perform, Exchange.sent?_map, finalizeInto_eq, h]
    by_cases hr : out.length < offset + length
    · have hle : ¬offset + length ≤ out.length := by omega
      simp [hr, hle, Exchange.sent?, Call.asksOutput]
    · have hle : offset + length ≤ out.length := by omega
      simp [hr, hle, sent_finalize, Call.asksOutput]
  | verify expected => simp [perform, verify_eq, sent_finalize, Call.asksOutput]
  | discard => simp [perform, Exchange.sent?, Call.asksOutput]

/-- A call on a computation does not set one up: all that it asks, it asks of the primitive. -/
theorem request_perform (c : Computation σ) (call : Call) :
    (c.perform call).request = (c.perform call).sent?.map Prod.snd := by
  have request_finalize (capacity : Nat) :
      (c.finalize capacity).request = (c.finalize capacity).sent?.map Prod.snd := by
    cases hp : c.primitive with
    | none => rw [finalize_of_retired hp]; rfl
    | some p =>
      rw [finalize_of_live hp]
      split <;> rfl
  cases call with
  | feed data offset length =>
    rw [perform, Exchange.request_map, Exchange.sent?_map]
    cases hp : c.primitive with
    | none => rw [feed_of_retired hp]; rfl
    | some p =>
      rw [feed_of_live hp]
      split
      · rfl
      · split <;> rfl
  | finalize capacity =>
    rw [perform, Exchange.request_map, Exchange.sent?_map, request_finalize]
  | finalizeInto out offset length =>
    rw [perform, Exchange.request_map, Exchange.sent?_map, finalizeInto_eq]
    split
    · rfl
    · split
      · rfl
      · rw [Exchange.request_map, Exchange.sent?_map, request_finalize]
  | verify expected =>
    rw [perform, Exchange.request_map, Exchange.sent?_map, verify_eq, Exchange.request_map,
      Exchange.sent?_map, request_finalize]
  | discard => rfl

/-- What a feeding makes of a computation: the same, or one with what has become of its primitive, or
one that is over because the library has failed. -/
theorem perform_feed (lib : Library σ) (h : c.primitive = some p) {call : Call}
    (hc : call.isFeed = true) :
    (call.piece? = none ∧ ((c.perform call).run lib).2.primitive = some p) ∨
    (∃ data q, call.piece? = some data ∧ lib.absorb p data = .ok q ∧
      ((c.perform call).run lib).2.primitive = some q) ∨
    ∃ data e, call.piece? = some data ∧ lib.absorb p data = .error e ∧
      ((c.perform call).run lib).2.phase = .finalized := by
  cases call with
  | feed data offset length =>
    rw [run_perform_feed, Call.piece?]
    rcases run_feed lib h data offset length with
      ⟨hr, hf⟩ | ⟨hr, hl, hf⟩ | ⟨hr, hl, q, hq, hf⟩ | ⟨hr, hl, e, he, hf⟩
    · rw [if_pos (.inl hr), hf]
      exact .inl ⟨rfl, h⟩
    · rw [if_pos (.inr hl), hf]
      exact .inl ⟨rfl, rfl⟩
    · rw [if_neg (by omega), hf]
      exact .inr (.inl ⟨_, q, rfl, hq, rfl⟩)
    · rw [if_neg (by omega), hf]
      exact .inr (.inr ⟨_, e, rfl, he, rfl⟩)
  | finalize | finalizeInto | verify | discard => cases hc

theorem outputLen_perform (lib : Library σ) (c : Computation σ) (call : Call) :
    ((c.perform call).run lib).2.outputLen = c.outputLen :=
  congrArg Algorithm.outputLen (c.algorithm_perform call)

/-- The pieces that are fed up to the first call of another kind, as far as the library takes them in,
and that call's request if it comes to it. -/
theorem traffic_eq (lib : Library σ) (h : c.primitive = some p) (calls : List Call) :
    c.traffic lib calls = lib.course p (Call.pieces calls) ++
      match (Call.pieces calls).foldlM lib.absorb p with
      | .ok q => if Call.closeWithOutput c.outputLen calls then [(q, .output)] else []
      | .error _ => [] := by
  induction calls generalizing c p with
  | nil => rfl
  | cons call rest ih =>
    cases hc : call.isFeed with
    | false =>
      have hover : ((c.perform call).run lib).2.phase = .finalized := by
        exact phase_last lib c call (by rintro _ _ _ rfl; cases hc)
      rw [traffic, sent?_last h hc, traffic_finalized hover, Call.pieces_cons_of_last hc,
        Call.closeWithOutput_cons_of_last hc]
      cases call.asksOutput c.outputLen <;> rfl
    | true =>
      rw [traffic, sent?_feed h hc, Call.pieces_cons_of_feed hc,
        Call.closeWithOutput_cons_of_feed hc]
      rcases perform_feed lib h hc with
        ⟨hnone, hs⟩ | ⟨data, q, hsome, hq, hs⟩ | ⟨data, e, hsome, he, hover⟩
      · rw [ih hs, outputLen_perform, hnone]
        rfl
      · rw [ih hs, outputLen_perform, hsome, Option.toList_some, List.singleton_append,
          Library.course, hq, Library.foldlM_cons_ok hq]
        rfl
      · rw [traffic_finalized hover, hsome, Option.toList_some, List.singleton_append,
          Library.course, he, Library.foldlM_cons_error he]
        rfl

/-- Each request is for what the pieces before it have made of the primitive. -/
theorem traffic_addressed (h : c.primitive = some p) {calls : List Call} {i : Nat} {q : σ}
    {r : Request} (hi : (c.traffic lib calls)[i]? = some (q, r)) :
    ((Call.pieces calls).take i).foldlM lib.absorb p = .ok q := by
  rw [traffic_eq lib h, List.getElem?_append] at hi
  split at hi
  · exact Library.course_addressed hi
  · next hlt =>
    cases hfold : (Call.pieces calls).foldlM lib.absorb p with
    | error e => simp [hfold] at hi
    | ok q' =>
      rw [Library.length_course_of_ok hfold] at hi hlt
      rw [List.take_of_length_le (Nat.not_lt.mp hlt), hfold]
      have hm : (q, r) ∈ [(q', Request.output)] := by
        rw [hfold] at hi
        cases ha : Call.closeWithOutput c.outputLen calls with
        | false => simp [ha] at hi
        | true => exact List.mem_of_getElem? (by simpa [ha] using hi)
      cases List.mem_singleton.mp hm
      rfl

theorem ne_nil_of_mem_traffic (h : c.primitive = some p) {calls : List Call} {data : Bytes}
    (hm : .absorb data ∈ (c.traffic lib calls).map Prod.snd) : data ≠ [] := by
  rw [traffic_eq lib h, List.map_append, List.mem_append] at hm
  rcases hm with hm | hm
  · obtain ⟨⟨q, r⟩, hm, rfl⟩ := List.mem_map.mp hm
    obtain ⟨piece, hp, hr⟩ := Library.mem_course hm
    cases hr
    exact Call.ne_nil_of_mem_pieces hp
  · cases hfold : (Call.pieces calls).foldlM lib.absorb p with
    | error e => simp [hfold] at hm
    | ok q => cases ha : Call.closeWithOutput c.outputLen calls <;> simp [hfold, ha] at hm

theorem traffic_append (c : Computation σ) (lib : Library σ) (front back : List Call) :
    c.traffic lib (front ++ back) = c.traffic lib front ++ (c.after lib front).traffic lib back := by
  induction front generalizing c with
  | nil => rfl
  | cons call rest ih => rw [List.cons_append, traffic, traffic, ih, after_cons, List.append_assoc]

/-- The output is asked for by the call that ends the computation, if by any. -/
theorem mem_traffic_output_iff (lib : Library σ) (h : c.primitive = some p) (calls : List Call) :
    .output ∈ (c.traffic lib calls).map Prod.snd ↔
      ∃ e, (c.history lib calls).find? Event.ends = some e ∧
        e.call.asksOutput c.outputLen = true := by
  induction calls generalizing c p with
  | nil => simp [traffic]
  | cons call rest ih =>
    have hp := passage lib h call
    have hlen := outputLen_perform lib c call
    have hcall : (c.event lib call).call = call := rfl
    rw [traffic, history_cons, List.map_append, List.mem_append]
    cases hc : call.isFeed with
    | false =>
      have hends : (c.event lib call).ends = true := by
        cases call <;> first | rfl | cases hc
      have hover : ((c.perform call).run lib).2.phase = .finalized := by
        exact phase_last lib c call (by rintro _ _ _ rfl; cases hc)
      rw [sent?_last h hc, traffic_finalized hover, List.find?_cons_of_pos hends]
      cases ha : call.asksOutput c.outputLen <;> simp [hcall, ha]
    | true =>
      have hquiet : .output ∉ (c.perform call).sent?.toList.map Prod.snd := by
        rw [sent?_feed h hc]
        cases call.piece? <;> simp
      have hasks : call.asksOutput c.outputLen = false := by
        cases call <;> first | rfl | cases hc
      rw [or_iff_right hquiet]
      generalize c.event lib call = event at hp hcall ⊢
      generalize ((c.perform call).run lib).2 = d at hp hlen ⊢
      rw [← hlen]
      cases hp with
      | ended he =>
        rw [traffic_finalized c.phase_retire, List.find?_cons_of_pos he]
        simp [hcall, hlen, hasks]
      | refused he =>
        rw [List.find?_cons_of_neg (by simp [he])]
        exact ih h
      | fed he =>
        rw [List.find?_cons_of_neg (by simp [he])]
        exact ih rfl

end Computation

namespace Service

/-- What the primitive of a computation gets to see of any calls. It is asked to take in the pieces
that were fed within bounds before any other call, one after the other up to the first at which the
library fails. If there was none, it is asked for its output by the call that ends the computation, if
that has room for it. Nothing is asked of it after that, and never to take in nothing; and nothing is asked of the library
but through it. -/
theorem primitive_protocol (s : Service σ) (a : Algorithm) (key : Bytes) (c : Computation σ)
    (begun : s.Begun a key c) (calls : List Call) :
    let lib := s.library
    let pieces := Call.pieces calls
    let requests := (c.traffic lib calls).map Prod.snd
    ∃ p, c.primitive = some p ∧
      (∀ q, pieces.foldlM lib.absorb p = .ok q →
        requests = pieces.map .absorb ++
          if Call.closeWithOutput a.outputLen calls then [.output] else []) ∧
      (∀ front data back q e, pieces = front ++ data :: back →
        front.foldlM lib.absorb p = .ok q → lib.absorb q data = .error e →
        requests = (front ++ [data]).map .absorb) ∧
      (∀ i q r, (c.traffic lib calls)[i]? = some (q, r) →
        (pieces.take i).foldlM lib.absorb p = .ok q) ∧
      (.output ∈ requests ↔ ∃ e, (c.history lib calls).find? Event.ends = some e ∧
        e.call.asksOutput a.outputLen = true) ∧
      (∀ data, .absorb data ∈ requests → data ≠ []) ∧
      (∀ call, ((c.after lib calls).perform call).request =
        ((c.after lib calls).perform call).sent?.map Prod.snd) ∧
      ∀ more, (c.after lib calls).phase = .finalized →
        c.traffic lib (calls ++ more) = c.traffic lib calls := by
  intro lib pieces requests
  obtain ⟨p, b, rfl, _⟩ := begun.start
  have hs : (Computation.start a p b).primitive = some p := rfl
  have hsent := congrArg (List.map Prod.snd) (Computation.traffic_eq lib hs calls)
  rw [List.map_append] at hsent
  refine ⟨p, rfl, ?_, ?_, fun i q r => Computation.traffic_addressed hs,
    Computation.mem_traffic_output_iff lib hs calls,
    fun data => Computation.ne_nil_of_mem_traffic hs, Computation.request_perform _, ?_⟩
  · intro q hq
    have hlen : (Computation.start a p b).outputLen = a.outputLen := rfl
    rw [hq, Library.course_of_ok hq, hlen] at hsent
    refine hsent.trans ?_
    cases Call.closeWithOutput a.outputLen calls <;> rfl
  · intro front data back q e hpieces hq he
    obtain ⟨hfold, hcourse⟩ : (front ++ data :: back).foldlM lib.absorb p = .error e ∧
        (lib.course p (front ++ data :: back)).map Prod.snd = (front ++ [data]).map .absorb :=
      Library.course_of_error hq he
    rw [← hpieces] at hfold hcourse
    rw [hfold, hcourse] at hsent
    exact hsent.trans (List.append_nil _)
  · intro more hover
    rw [Computation.traffic_append, Computation.traffic_finalized hover, List.append_nil]

/-- A library that takes in two pieces and no more: a MAC that is finalized in time, and one that is
fed on. -/
theorem protocol_of_two_pieces :
    let library : Library Nat := {
      name := "two pieces"
      digest := fun _ _ => .ok 0
      mac := fun _ _ _ => .ok 0
      absorb := fun n _ => if n < 2 then .ok (n + 1) else .error (.foreign "fault")
      output := fun _ => .ok [] }
    let s : Service Nat := { library, policy := {} }
    let k : Custody := { vault := { materials := #[⟨[1, 2, 3], .any, 1⟩] }, source := .direct }
    let feeds : List Call := [.feed [7, 8, 9] 1 2, .feed [7] 1 1, .feed [7] 0 0, .feed [7] 0 1]
    let fed : List Request := [.absorb [8, 9], .absorb [7]]
    ∃ c, (s.beginMac .hmacSha256 ⟨0⟩ k).1 = .ok c ∧ s.Begun .hmacSha256 [1, 2, 3] c ∧
      (c.traffic library (feeds ++ [.finalize 32, .feed [5] 0 1])).map Prod.snd = fed ++ [.output] ∧
      (c.traffic library (feeds ++ [.feed [5] 0 1, .feed [6] 0 1, .finalize 32])).map Prod.snd =
        fed ++ [.absorb [5]] := by
  intro library s k feeds fed
  obtain ⟨c, hc⟩ : ∃ c, (s.beginMac .hmacSha256 ⟨0⟩ k).1 = .ok c := ⟨_, rfl⟩
  have begun : s.Begun .hmacSha256 [1, 2, 3] c := .mac (Prod.ext hc rfl)
  obtain ⟨p, hp, taken, _⟩ := primitive_protocol s .hmacSha256 [1, 2, 3] c begun
    (feeds ++ [.finalize 32, .feed [5] 0 1])
  obtain ⟨q, hq, _, failed, _⟩ := primitive_protocol s .hmacSha256 [1, 2, 3] c begun
    (feeds ++ [.feed [5] 0 1, .feed [6] 0 1, .finalize 32])
  cases hc
  cases hp
  cases hq
  exact ⟨_, rfl, begun, taken 2 rfl,
    failed [[8, 9], [7]] [5] [[6]] 2 (.foreign "fault") rfl rfl rfl⟩

end Service

end StreamDigest
