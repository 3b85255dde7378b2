import StreamDigest.Computation

namespace StreamDigest

inductive Call
  | feed (data : Bytes) (offset length : Nat)
  | finalize (capacity : Nat)
  | finalizeInto (out : Bytes) (offset length : Nat)
  | verify (expected : Bytes)
  | discard
  deriving DecidableEq, Repr

inductive Result
  | status (r : Except Fault Unit)
  | output (r : Except Fault Bytes)
  | written (r : Except Fault Nat) (out : Bytes)

namespace Call

def operation : Call → String
  | feed .. => "update"
  | finalize _ | finalizeInto .. | verify _ => "finalize"
  | discard => "discard"

/-- The result of a call that never reaches a computation. -/
def refuse (e : Fault) : Call → Result
  | feed .. | verify _ | discard => .status (.error e)
  | finalize _ => .output (.error e)
  | finalizeInto out .. => .written (.error e) out

end Call

namespace Fields

variable {σ : Type}

def perform (c : Fields σ) : Call → Exchange σ (Result × Fields σ)
  | .feed data offset length => (c.feed data offset length).map fun (r, c) => (.status r, c)
  | .finalize capacity => (c.finalize capacity).map fun (r, c) => (.output r, c)
  | .finalizeInto out offset length =>
    (c.finalizeInto out offset length).map fun (r, out, c) => (.written r out, c)
  | .verify expected => (c.verify expected).map fun (r, c) => (.status r, c)
  | .discard => .answer (.status (.ok ()), c.release)

end Fields

namespace Computation

variable {σ : Type}

def perform (c : Computation σ) : Call → Exchange σ (Result × Computation σ)
  | .feed data offset length => (c.feed data offset length).map fun (r, c) => (.status r, c)
  | .finalize capacity => (c.finalize capacity).map fun (r, c) => (.output r, c)
  | .finalizeInto out offset length =>
    (c.finalizeInto out offset length).map fun (r, out, c) => (.written r out, c)
  | .verify expected => (c.verify expected).map fun (r, c) => (.status r, c)
  | .discard => .answer (.status (.ok ()), c.retire)

end Computation

end StreamDigest
