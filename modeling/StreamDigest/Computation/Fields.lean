import StreamDigest.Binding
import StreamDigest.Library.Exchange

namespace StreamDigest

inductive Phase
  | idle
  | updating
  | finalized
  deriving DecidableEq, Repr

def Phase.name : Phase → String
  | idle => "Idle"
  | updating => "Updating"
  | finalized => "Finalized"

/-- What a digest or MAC under way consists of. Nothing here makes the phase, the primitive and the key
agree with each other: the operations have to see to that. -/
structure Fields (σ : Type) where
  algorithm : Algorithm
  phase : Phase
  primitive : Option σ
  binding : Option Binding
  processed : UInt64
  deriving DecidableEq, Repr

namespace Fields

variable {σ : Type}

def isKeyed (c : Fields σ) : Bool :=
  c.binding.isSome

def usesRestrictedKey (c : Fields σ) : Bool :=
  match c.binding with
  | some (.restricted _) => true
  | _ => false

def outputLen (c : Fields σ) : Nat :=
  c.algorithm.outputLen

def describe (c : Fields σ) : String :=
  s!"StreamingContext \x7b algorithm: {c.algorithm.identifier}, state: {c.phase.name}, " ++
    s!"keyed: {c.isKeyed}, bytes_processed: {c.processed} \x7d"

/-- Lets go of the primitive and the key. -/
def release (c : Fields σ) : Fields σ :=
  { c with primitive := none, binding := none, phase := .finalized }

/-- Takes the primitive out for the last operation there is, and lets go of the key. -/
def take (c : Fields σ) (operation : String) : Except Fault σ × Fields σ :=
  match c.primitive with
  | none => (.error (.retired operation), c)
  | some primitive => (.ok primitive, c.release)

/-- Takes in `length` bytes of `data` from `offset` on. A range outside of `data` changes nothing,
and an empty one asks nothing of the library. -/
def feed (c : Fields σ) (data : Bytes) (offset length : Nat) :
    Exchange σ (Except Fault Unit × Fields σ) :=
  match c.primitive with
  | none => .answer (.error (.retired "update"), c)
  | some primitive =>
    match checkRange "update" data.length offset length with
    | .error e => .answer (.error e, c)
    | .ok _ =>
      if length = 0 then .answer (.ok (), { c with phase := .updating })
      else
        .absorb primitive (data.slice offset length) fun
          | .error e => (.error e.onComputation, c.release)
          | .ok primitive => (.ok (), { c with
              primitive := some primitive
              processed := c.processed + length.toUInt64
              phase := .updating })

def checkOutput (c : Fields σ) (output : Bytes) : Except Fault Bytes :=
  if output.length = c.outputLen then .ok output
  else .error (.computation
    s!"{c.algorithm.name} produced {output.length} bytes, expected {c.outputLen}")

/-- Retires the computation; the output comes if the caller has room for `capacity` bytes. -/
def finalize (c : Fields σ) (capacity : Nat) : Exchange σ (Except Fault Bytes × Fields σ) :=
  match c.take "finalize" with
  | (.error e, c) => .answer (.error e, c)
  | (.ok primitive, c) =>
    if capacity < c.outputLen then .answer (.error (.outputTooSmall c.outputLen capacity), c)
    else
      .output primitive fun
        | .ok output => (c.checkOutput output, c)
        | .error e => (.error e.onComputation, c)

/-- Finalizes into `length` bytes of `out` from `offset` on and counts the bytes written. -/
def finalizeInto (c : Fields σ) (out : Bytes) (offset length : Nat) :
    Exchange σ (Except Fault Nat × Bytes × Fields σ) :=
  match c.primitive with
  | none => .answer (.error (.retired "finalize"), out, c)
  | some _ =>
    match checkRange "finalize" out.length offset length with
    | .error e => .answer (.error e, out, c.release)
    | .ok _ =>
      (c.finalize length).map fun
        | (.ok output, c) => (.ok output.length, out.overwrite offset output, c)
        | (.error e, c) => (.error e, out, c)

def compare (expected output : Bytes) : Except Fault Unit :=
  if output = expected then .ok () else .error .verification

def verify (c : Fields σ) (expected : Bytes) : Exchange σ (Except Fault Unit × Fields σ) :=
  (c.finalize c.outputLen).map fun (r, c) => (r.bind (compare expected), c)

/-- The primitive is gone at the end and only then, and the key with it. -/
structure Agree (c : Fields σ) : Prop where
  ended : c.phase = .finalized ↔ c.primitive = none
  unbound : c.primitive = none → c.binding = none

variable {c : Fields σ}

theorem agree_release (c : Fields σ) : c.release.Agree :=
  ⟨by simp [release], fun _ => rfl⟩

theorem agree_updating (c : Fields σ) {primitive : σ} (h : c.primitive = some primitive)
    (hp : c.phase = .updating) : c.Agree :=
  ⟨by simp [h, hp], by simp [h]⟩

theorem Agree.take (h : c.Agree) (operation : String) : (c.take operation).2.Agree := by
  unfold Fields.take
  split
  · exact h
  · exact c.agree_release

theorem Agree.feed (h : c.Agree) (data : Bytes) (offset length : Nat) :
    (c.feed data offset length).Always fun x => x.2.Agree := by
  unfold Fields.feed
  split
  · exact h
  · next primitive hp =>
    split
    · exact h
    · split
      · exact agree_updating _ hp rfl
      · intro r
        cases r with
        | error e => exact c.agree_release
        | ok primitive => exact agree_updating _ rfl rfl

theorem Agree.finalize (h : c.Agree) (capacity : Nat) :
    (c.finalize capacity).Always fun x => x.2.Agree := by
  have taken := h.take "finalize"
  unfold Fields.finalize
  generalize c.take "finalize" = x at taken ⊢
  obtain ⟨e | primitive, d⟩ := x
  · exact taken
  · dsimp only
    split
    · exact taken
    · intro r
      cases r <;> exact taken

theorem Agree.finalizeInto (h : c.Agree) (out : Bytes) (offset length : Nat) :
    (c.finalizeInto out offset length).Always fun x => x.2.2.Agree := by
  unfold Fields.finalizeInto
  split
  · exact h
  · split
    · exact c.agree_release
    · refine (h.finalize length).map fun x hx => ?_
      rcases x with ⟨e | output, d⟩ <;> exact hx

theorem Agree.verify (h : c.Agree) (expected : Bytes) :
    (c.verify expected).Always fun x => x.2.Agree :=
  (h.finalize c.outputLen).map fun _ hx => hx

end Fields

end StreamDigest
