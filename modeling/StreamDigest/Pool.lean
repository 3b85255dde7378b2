import StreamDigest.Arena
import StreamDigest.Computation.Call
import StreamDigest.Service

namespace StreamDigest

/-- Computations under handles, begun by one service with the keys of one source. -/
structure Pool (σ : Type) where
  service : Service σ
  custody : Custody
  arena : Arena (Computation σ) := {}

inductive Pool.Action
  | openDigest (a : Algorithm) (occasion : Nat)
  | openMac (a : Algorithm) (key : UInt64) (occasion : Nat)
  | call (h : Handle) (call : Call)
  | insertKey (bytes : Bytes) (hardware : Bool)
  | removeKey (key : UInt64)
  | outstanding
  | digest (a : Algorithm) (data : Bytes) (occasion : Nat)
  deriving DecidableEq, Repr

/-- The answer to an action. It is `absent` if the action needs a store and there is none. -/
inductive Pool.Reply
  | opened (r : Except Fault Handle)
  | result (r : Result)
  | key (handle : UInt64)
  | removed (b : Bool)
  | count (n : Nat)
  | output (r : Except Fault Bytes)
  | absent

namespace Pool

variable {σ : Type}

def live (p : Pool σ) : Nat :=
  p.arena.live

/-- Begins a computation and gives it a handle, if there is room. The room is taken up first, and
given back if the computation does not begin. -/
def enroll (p : Pool σ) (begin : Custody → Except Fault (Computation σ) × Custody) :
    Except Fault Handle × Pool σ :=
  if p.service.policy.maxLive.toNat ≤ p.live then
    (.error (.initialization s!"{p.service.policy.maxLive} contexts already open"), p)
  else
    let arena := p.arena.takeRoom
    match begin p.custody with
    | (.error e, custody) => (.error e, { p with custody, arena := arena.returnRoom })
    | (.ok c, custody) =>
      let (handle, displaced, arena) := arena.insert c
      (.ok handle, { p with custody := custody.settle (displaced.bind (·.binding)) none, arena })

def openDigest (p : Pool σ) (a : Algorithm) (occasion : Nat) : Except Fault Handle × Pool σ :=
  p.enroll fun custody => ((p.service.on occasion).beginDigest a, custody)

def openMac (p : Pool σ) (a : Algorithm) (key : UInt64) (occasion : Nat) :
    Except Fault Handle × Pool σ :=
  p.enroll ((p.service.on occasion).beginMacFromHandle a key)

/-- Performs a call on the computation under a handle. To feed it leaves it where it is, unless that
retires it; all other calls take it out of its slot first, whatever comes of them. Then the handle leads
nowhere any more. -/
def call (p : Pool σ) (h : Handle) (call : Call) : Result × Pool σ :=
  match p.arena.find h with
  | .unknown => (call.refuse .invalidHandle, p)
  | .retired => (call.refuse (.retired call.operation), p)
  | .here c =>
    let (result, after) := (c.perform call).run p.service.library
    let arena :=
      match call with
      | .feed .. =>
        let arena := p.arena.fill h.index after
        if after.phase = .finalized then arena.retire h else arena
      | _ => p.arena.vacate h.index
    (result, { p with custody := p.custody.settle c.binding after.binding, arena })

def perform (p : Pool σ) : Action → Reply × Pool σ
  | .openDigest a occasion => (p.openDigest a occasion).map .opened id
  | .openMac a key occasion => (p.openMac a key occasion).map .opened id
  | .call h call => (p.call h call).map .result id
  | .insertKey bytes hardware =>
    match p.custody.insert? bytes hardware with
    | some (key, custody) => (.key key, { p with custody })
    | none => (.absent, p)
  | .removeKey key =>
    match p.custody.remove? key with
    | some (removed, custody) => (.removed removed, { p with custody })
    | none => (.absent, p)
  | .outstanding =>
    match p.custody.outstanding? with
    | some (n, custody) => (.count n, { p with custody })
    | none => (.absent, p)
  | .digest a data occasion => (.output ((p.service.on occasion).digest a data), p)

end Pool

end StreamDigest
