import StreamDigest.Computation.Fields

namespace StreamDigest

/-- One digest or MAC, from its creation to the one call that retires it. Its phase, its primitive and
its key agree: each operation on the fields keeps them so. -/
structure Computation (σ : Type) extends Fields σ where
  agree : toFields.Agree
  deriving DecidableEq, Repr

namespace Computation

variable {σ : Type}

def start (algorithm : Algorithm) (primitive : σ) (binding : Option Binding) : Computation σ where
  algorithm
  phase := .idle
  primitive := some primitive
  binding
  processed := 0
  agree := ⟨by simp, by simp⟩

/-- The outcome of an operation on the fields, with the fields for a computation again. -/
def ofFields {α : Type} (x : Exchange σ (α × Fields σ)) (h : x.Always fun y => y.2.Agree) :
    Exchange σ (α × Computation σ) :=
  (x.attach h).map fun y => (y.1.1, { y.1.2 with agree := y.2 })

/-- Lets go of the primitive and the key. -/
def retire (c : Computation σ) : Computation σ :=
  { c.release with agree := c.agree_release }

def feed (c : Computation σ) (data : Bytes) (offset length : Nat) :
    Exchange σ (Except Fault Unit × Computation σ) :=
  ofFields (c.toFields.feed data offset length) (c.agree.feed data offset length)

def finalize (c : Computation σ) (capacity : Nat) :
    Exchange σ (Except Fault Bytes × Computation σ) :=
  ofFields (c.toFields.finalize capacity) (c.agree.finalize capacity)

def finalizeInto (c : Computation σ) (out : Bytes) (offset length : Nat) :
    Exchange σ (Except Fault Nat × Bytes × Computation σ) :=
  ((c.toFields.finalizeInto out offset length).attach (c.agree.finalizeInto out offset length)).map
    fun y => (y.1.1, y.1.2.1, { y.1.2.2 with agree := y.2 })

def verify (c : Computation σ) (expected : Bytes) :
    Exchange σ (Except Fault Unit × Computation σ) :=
  ofFields (c.toFields.verify expected) (c.agree.verify expected)

/-- Takes in one piece after the other, up to the first that fails. -/
def feedAll (c : Computation σ) (lib : Library σ) : List Bytes → Except Fault Unit × Computation σ
  | [] => (.ok (), c)
  | data :: rest =>
    match (c.feed data 0 data.length).run lib with
    | (.ok (), c) => c.feedAll lib rest
    | (.error e, c) => (.error e, c)

/-- Takes in all of `data` and finalizes. -/
def complete (c : Computation σ) (lib : Library σ) (data : Bytes) :
    Except Fault Bytes × Computation σ :=
  match (c.feed data 0 data.length).run lib with
  | (.ok (), c) => (c.finalize c.outputLen).run lib
  | (.error e, c) => (.error e, c)

end Computation

end StreamDigest
