import StreamDigest.Computation
import StreamDigest.Policy

namespace StreamDigest

/-- What begins computations: a library, the policy on its use, and the occasion that it is used on. -/
structure Service (σ : Type) where
  library : Library σ
  policy : Policy
  occasion : Nat := 0

namespace Service

variable {σ : Type}

/-- The same service on another occasion. -/
def on (s : Service σ) (occasion : Nat) : Service σ :=
  { s with occasion }

def make (library : Library σ) (policy : Policy) : Except Fault (Service σ) :=
  policy.validate.map fun _ => { library, policy }

def checkPermitted (s : Service σ) (a : Algorithm) : Except Fault Unit :=
  if s.policy.permits a then .ok () else .error (.unsupportedAlgorithm s!"{a.name} (disabled)")

def askDigest (s : Service σ) (a : Algorithm) : Exchange σ (Except Fault (Computation σ)) :=
  if a.kind ≠ .digest then .answer (.error (.unsupportedAlgorithm s!"{a.name} is not a digest"))
  else
    match s.checkPermitted a with
    | .error e => .answer (.error e)
    | .ok () =>
      .digest s.occasion a fun
        | .ok primitive => .ok (.start a primitive none)
        | .error e => .error e.onCreation

def askDigestNamed (s : Service σ) (name : String) : Exchange σ (Except Fault (Computation σ)) :=
  match Algorithm.named name with
  | .error e => .answer (.error e)
  | .ok a => s.askDigest a

def beginDigest (s : Service σ) (a : Algorithm) : Except Fault (Computation σ) :=
  (s.askDigest a).run s.library

def beginDigestNamed (s : Service σ) (name : String) : Except Fault (Computation σ) :=
  (s.askDigestNamed name).run s.library

/-- What is looked at before a MAC takes hold of its key, in this order. -/
def checkMac (s : Service σ) (a : Algorithm) (key : Key) (c : Custody) : Except Fault Unit := do
  if a.kind ≠ .mac then .error (.unsupportedAlgorithm s!"{a.name} is not a MAC mechanism")
  s.checkPermitted a
  if !c.isLive key then .error .invalidKeyHandle
  let len := (c.vault.bytes key).length
  if len < s.policy.minKeyLen.toNat then
    .error (.invalidKey s!"key is {len} bytes, at least {s.policy.minKeyLen} required")

/-- Takes a signing copy of the key, or else a reference to the key itself. -/
def bindKey (s : Service σ) (key : Key) (c : Custody) : Except Fault Binding × Custody :=
  match c.copyForSigning key with
  | (some copy, c) => (.ok (.restricted copy), c)
  | (none, c) =>
    if s.policy.keyFallback then (.ok (.shared key), { c with vault := c.vault.retain key })
    else (.error (.initialization "no signing copy of the key available"), c)

/-- What beginning a MAC asks of the library, and what comes of it. A key that was taken hold of is let
go again if the library fails. -/
def askMac (s : Service σ) (a : Algorithm) (key : Key) (c : Custody) :
    Exchange σ (Except Fault (Computation σ) × Custody) :=
  match s.checkMac a key c with
  | .error e => .answer (.error e, c)
  | .ok () =>
    match s.bindKey key c with
    | (.error e, c) => .answer (.error e, c)
    | (.ok binding, c) =>
      .mac s.occasion a (c.vault.bytes binding.key) fun
        | .error e => (.error e.onCreation, c.release binding.key)
        | .ok primitive => (.ok (.start a primitive (some binding)), c)

def askMacFromHandle (s : Service σ) (a : Algorithm) (handle : UInt64) (c : Custody) :
    Exchange σ (Except Fault (Computation σ) × Custody) :=
  match c.resolve handle with
  | (.error e, c) => .answer (.error e, c)
  | (.ok key, c) => (s.askMac a key c).map fun (begun, c) => (begun, c.release key)

def beginMac (s : Service σ) (a : Algorithm) (key : Key) (c : Custody) :
    Except Fault (Computation σ) × Custody :=
  (s.askMac a key c).run s.library

def beginMacFromHandle (s : Service σ) (a : Algorithm) (handle : UInt64) (c : Custody) :
    Except Fault (Computation σ) × Custody :=
  (s.askMacFromHandle a handle c).run s.library

def digest (s : Service σ) (a : Algorithm) (data : Bytes) : Except Fault Bytes := do
  let computation ← s.beginDigest a
  (computation.complete s.library data).1

def mac (s : Service σ) (a : Algorithm) (key : Key) (data : Bytes) (c : Custody) :
    Except Fault Bytes × Custody :=
  match s.beginMac a key c with
  | (.error e, c) => (.error e, c)
  | (.ok computation, c) =>
    let (output, after) := computation.complete s.library data
    (output, c.settle computation.binding after.binding)

end Service

end StreamDigest
