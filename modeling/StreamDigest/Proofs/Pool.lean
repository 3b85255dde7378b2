import StreamDigest.Pool
import StreamDigest.Proofs.Arena
import StreamDigest.Proofs.Computation
import StreamDigest.Proofs.Service

namespace StreamDigest

namespace Pool

variable {σ : Type} {p : Pool σ}

/-- How an action begins a computation, if it is to open a handle. -/
def Action.begin? (s : Service σ) :
    Action → Option (Custody → Except Fault (Computation σ) × Custody)
  | .openDigest a n => some fun custody => ((s.on n).beginDigest a, custody)
  | .openMac a key n => some ((s.on n).beginMacFromHandle a key)
  | _ => none

/-- Whether an action is one on the store. -/
def Action.asksStore : Action → Bool
  | .insertKey .. | .removeKey _ | .outstanding => true
  | .openDigest .. | .openMac .. | .call .. | .digest .. => false

theorem begin?_of_asksStore {s : Service σ} {a : Action} (h : a.asksStore = true) :
    a.begin? s = none := by
  cases a <;> first | rfl | cases h

theorem begin_start {s : Service σ} {a : Action} {k l : Custody} {c : Computation σ}
    {begin : Custody → Except Fault (Computation σ) × Custody} (hb : a.begin? s = some begin)
    (hc : begin k = (.ok c, l)) : ∃ algorithm p b, c = .start algorithm p b := by
  cases a with
  | openDigest a n =>
    cases hb
    obtain ⟨_, _, p, _, rfl⟩ := Service.beginDigest_eq_ok_iff.mp (Prod.mk.inj hc).1
    exact ⟨a, p, none, rfl⟩
  | openMac a key n =>
    cases hb
    obtain ⟨_, _, _, _, hm, _⟩ := Service.beginMacFromHandle_eq_ok hc
    obtain ⟨_, b, p, _, _, rfl⟩ := Service.beginMac_eq_ok hm
    exact ⟨a, p, some b, rfl⟩
  | call | insertKey | removeKey | outstanding | digest => cases hb

/-- All that an action can do. -/
inductive Step (p : Pool σ) : Action → Reply → Pool σ → Prop
  | full {a begin} (hb : a.begin? p.service = some begin)
      (full : p.service.policy.maxLive.toNat ≤ p.live) :
      Step p a (.opened (.error
        (.initialization s!"{p.service.policy.maxLive} contexts already open"))) p
  | failed {a begin e custody} (hb : a.begin? p.service = some begin)
      (room : p.live < p.service.policy.maxLive.toNat)
      (he : begin p.custody = (.error e, custody)) :
      Step p a (.opened (.error e)) { p with custody }
  | opened {a begin c custody} (hb : a.begin? p.service = some begin)
      (room : p.live < p.service.policy.maxLive.toNat)
      (hc : begin p.custody = (.ok c, custody)) :
      Step p a (.opened (.ok (p.arena.takeRoom.insert c).1)) { p with
        custody := custody.settle ((p.arena.takeRoom.insert c).2.1.bind (·.binding)) none
        arena := (p.arena.takeRoom.insert c).2.2 }
  | unknown {h call} (hf : p.arena.find h = .unknown) :
      Step p (.call h call) (.result (call.refuse .invalidHandle)) p
  | retired {h call} (hf : p.arena.find h = .retired) :
      Step p (.call h call) (.result (call.refuse (.retired call.operation))) p
  | kept {h call c r after} (hf : p.arena.find h = .here c)
      (hp : (c.perform call).run p.service.library = (r, after)) (live : after.phase ≠ .finalized) :
      Step p (.call h call) (.result r) { p with
        custody := p.custody.settle c.binding after.binding
        arena := p.arena.fill h.index after }
  | ended {h call c r after} (hf : p.arena.find h = .here c)
      (hp : (c.perform call).run p.service.library = (r, after)) (gone : after.phase = .finalized) :
      Step p (.call h call) (.result r) { p with
        custody := p.custody.settle c.binding after.binding
        arena := p.arena.vacate h.index }
  | inserted {bytes hardware key custody}
      (hi : p.custody.insert? bytes hardware = some (key, custody)) :
      Step p (.insertKey bytes hardware) (.key key) { p with custody }
  | removed {key b custody} (hr : p.custody.remove? key = some (b, custody)) :
      Step p (.removeKey key) (.removed b) { p with custody }
  | counted {n custody} (ho : p.custody.outstanding? = some (n, custody)) :
      Step p .outstanding (.count n) { p with custody }
  | storeless {a} (hs : a.asksStore = true) (hd : p.custody.source = .direct) :
      Step p a .absent p
  | digested {a data n} :
      Step p (.digest a data n) (.output ((p.service.on n).digest a data)) p

theorem enroll_step {a : Action} {begin : Custody → Except Fault (Computation σ) × Custody}
    (hb : a.begin? p.service = some begin) :
    Step p a (.opened (p.enroll begin).1) (p.enroll begin).2 := by
  unfold enroll
  by_cases hfull : p.service.policy.maxLive.toNat ≤ p.live
  · rw [if_pos hfull]
    exact .full hb hfull
  · rw [if_neg hfull]
    rcases hbegin : begin p.custody with ⟨e | c, custody⟩
    · exact .failed hb (by omega) hbegin
    · exact .opened hb (by omega) hbegin

theorem call_step (h : Handle) (call : Call) :
    Step p (.call h call) (.result (p.call h call).1) (p.call h call).2 := by
  unfold Pool.call
  cases hf : p.arena.find h with
  | unknown => exact .unknown hf
  | retired => exact .retired hf
  | here c =>
    rcases hp : (c.perform call).run p.service.library with ⟨r, after⟩
    have gone := Computation.phase_last p.service.library c call
    rw [hp] at gone
    cases call with
    | feed data offset length =>
      by_cases ended : after.phase = .finalized
      · simpa [hp, ended, Arena.retire_fill hf] using Step.ended hf hp ended
      · simpa [hp, ended] using Step.kept hf hp ended
    | finalize | finalizeInto | verify | discard =>
      simpa only [hp] using Step.ended hf hp (gone (by simp))

theorem perform_step (p : Pool σ) (a : Action) : Step p a (p.perform a).1 (p.perform a).2 := by
  cases a with
  | openDigest a n => exact enroll_step rfl
  | openMac a key n => exact enroll_step rfl
  | call h call => exact call_step h call
  | insertKey bytes hardware =>
    simp only [perform]
    cases hi : p.custody.insert? bytes hardware with
    | some r => exact .inserted hi
    | none => exact .storeless rfl (by revert hi; simp [Custody.insert?]; split <;> simp_all)
  | removeKey key =>
    simp only [perform]
    cases hr : p.custody.remove? key with
    | some r => exact .removed hr
    | none => exact .storeless rfl (by revert hr; simp [Custody.remove?]; split <;> simp_all)
  | outstanding =>
    simp only [perform]
    cases ho : p.custody.outstanding? with
    | some r => exact .counted ho
    | none => exact .storeless rfl (by revert ho; simp [Custody.outstanding?]; split <;> simp_all)
  | digest a data n => exact .digested

/-- The pool after a run of actions. -/
def after (p : Pool σ) (actions : List Action) : Pool σ :=
  actions.foldl (fun p a => (p.perform a).2) p

def Reply.opened? : Reply → Option Handle
  | .opened (.ok h) => some h
  | _ => none

/-- The handle through which an action with this reply has retired a computation. -/
def Reply.retired? (r : Reply) (a : Action) : Option Handle :=
  match r, a with
  | .result r, .call h call => if call.retires r then some h else none
  | _, _ => none

/-- A call on a computation that was running retires it if it is over then. -/
theorem Reply.retired?_result {lib : Library σ} {c after : Computation σ} {call : Call} {r : Result}
    (running : c.phase ≠ .finalized) (hp : (c.perform call).run lib = (r, after)) (i : Handle) :
    (Reply.result r).retired? (.call i call) =
      if after.phase = .finalized then some i else none := by
  have hiff := Computation.retires_iff lib running call
  rw [hp] at hiff
  simp [Reply.retired?, hiff]

/-- No refusal of a pool retires anything. -/
theorem Reply.retired?_refuse {call : Call} {e : Fault}
    (he : e = .invalidHandle ∨ e = .retired call.operation) (i : Handle) :
    (Reply.result (call.refuse e)).retired? (.call i call) = none := by
  rcases he with rfl | rfl
  · simp [Reply.retired?, call.not_retires_refuse_invalidHandle]
  · simp [Reply.retired?, call.not_retires_refuse_retired]

/-- The handles that a run has opened, one by one. -/
def opens (p : Pool σ) : List Action → List Handle
  | [] => []
  | a :: rest => (p.perform a).1.opened?.toList ++ (p.perform a).2.opens rest

/-- The handles through which a run has retired computations, one by one. -/
def retirements (p : Pool σ) : List Action → List Handle
  | [] => []
  | a :: rest => ((p.perform a).1.retired? a).toList ++ (p.perform a).2.retirements rest

@[simp]
theorem after_nil (p : Pool σ) : p.after [] = p := rfl

@[simp]
theorem after_cons (p : Pool σ) (a : Action) (rest : List Action) :
    p.after (a :: rest) = (p.perform a).2.after rest := rfl

theorem after_append (p : Pool σ) (front back : List Action) :
    p.after (front ++ back) = (p.after front).after back :=
  List.foldl_append

theorem opens_append (p : Pool σ) (front back : List Action) :
    p.opens (front ++ back) = p.opens front ++ (p.after front).opens back := by
  induction front generalizing p with
  | nil => rfl
  | cons a rest ih => simp [opens, ih]

theorem retirements_append (p : Pool σ) (front back : List Action) :
    p.retirements (front ++ back) = p.retirements front ++ (p.after front).retirements back := by
  induction front generalizing p with
  | nil => rfl
  | cons a rest ih => simp [retirements, ih]

theorem Step.service {q : Pool σ} {a : Action} {r : Reply} (st : Step p a r q) :
    q.service = p.service := by
  cases st <;> rfl

theorem service_perform (p : Pool σ) (a : Action) : (p.perform a).2.service = p.service :=
  (perform_step p a).service

theorem service_after (p : Pool σ) (actions : List Action) :
    (p.after actions).service = p.service := by
  induction actions generalizing p with
  | nil => rfl
  | cons a rest ih => rw [after_cons, ih, service_perform]

/-- Only a handle that leads to a computation retires one. -/
theorem Step.here_of_retired {q : Pool σ} {a : Action} {r : Reply} {h : Handle}
    (st : Step p a r q) (hr : r.retired? a = some h) :
    ∃ c, p.arena.find h = .here c := by
  cases st with
  | unknown => simp [Reply.retired?, Call.not_retires_refuse_invalidHandle] at hr
  | retired => simp [Reply.retired?, Call.not_retires_refuse_retired] at hr
  | kept hf | ended hf =>
    simp only [Reply.retired?, Option.ite_none_right_eq_some, Option.some.injEq] at hr
    obtain ⟨_, rfl⟩ := hr
    exact ⟨_, hf⟩
  | full | failed | opened | inserted | removed | counted | storeless | digested =>
    simp [Reply.retired?] at hr

/-- What is in a pool is still to be retired. -/
theorem Step.running {q : Pool σ} {a : Action} {r : Reply} (st : Step p a r q)
    (range : p.arena.FreeInRange) (running : ∀ c ∈ p.arena.contents, c.phase ≠ .finalized) :
    ∀ c ∈ q.arena.contents, c.phase ≠ .finalized := by
  cases st with
  | @opened _ begin c custody hb room hc =>
    obtain ⟨algorithm, primitive, b, rfl⟩ := begin_start hb hc
    obtain ⟨rest, hbefore, hafter⟩ := Arena.insert_contents (s := p.arena.takeRoom) range
      (Computation.start algorithm primitive b)
    intro d hd
    rcases List.mem_cons.mp (hafter.mem_iff.mp hd) with rfl | hd
    · exact Computation.phase_live rfl
    · exact running d (hbefore.mem_iff.mpr (List.mem_append_right _ hd))
  | kept hf hp live =>
    obtain ⟨rest, hbefore, hafter⟩ := Arena.fill_contents hf
    intro d hd
    rcases List.mem_cons.mp (hafter.mem_iff.mp hd) with rfl | hd
    · exact live
    · exact running d (hbefore.mem_iff.mpr (List.mem_cons_of_mem _ hd))
  | ended hf hp gone =>
    intro d hd
    exact running d ((Arena.vacate_contents hf).mem_iff.mpr (List.mem_cons_of_mem _ hd))
  | full | failed | unknown | retired | inserted | removed | counted | storeless | digested =>
    exact running

end Pool

end StreamDigest
