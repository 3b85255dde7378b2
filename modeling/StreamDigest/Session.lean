import StreamDigest.Computation.Call
import StreamDigest.Service

namespace StreamDigest

/-- Where a step takes its keys from: nowhere in particular, or a store by its number. -/
inductive Place
  | direct
  | store (number : Nat)
  deriving DecidableEq, Repr

/-- One service at work on any number of stores, and what its caller holds: keys and computations
by number. What the caller has dropped leaves its number unused. -/
structure Session (σ : Type) where
  service : Service σ
  vault : Vault := {}
  stores : Array KeyStore
  keys : Array (Option Key) := #[]
  computations : Array (Option (Computation σ)) := #[]

/-- What the caller can do. To set up a computation is up to the library on that occasion. -/
inductive Session.Action
  | key (bytes : Bytes) (usage : Usage)
  | cloneKey (key : Nat)
  | signingCopy (key : Nat)
  | dropKey (key : Nat)
  | inspectKey (key : Nat)
  | sameMaterial (key other : Nat)
  | insert (place : Place) (bytes : Bytes) (hardware : Bool)
  | remove (place : Place) (handle : UInt64)
  | resolve (place : Place) (handle : UInt64)
  | copyForSigning (place : Place) (key : Nat)
  | isLive (place : Place) (key : Nat)
  | outstanding (place : Place)
  | beginDigest (a : Algorithm) (occasion : Nat)
  | beginDigestNamed (name : String) (occasion : Nat)
  | beginMac (a : Algorithm) (key : Nat) (place : Place) (occasion : Nat)
  | beginMacFromHandle (a : Algorithm) (handle : UInt64) (place : Place) (occasion : Nat)
  | digest (a : Algorithm) (data : Bytes) (occasion : Nat)
  | mac (a : Algorithm) (key : Nat) (place : Place) (data : Bytes) (occasion : Nat)
  | inspect (computation : Nat)
  | call (computation : Nat) (call : Call)
  | feedPieces (computation : Nat) (data : Bytes) (size : Nat)
  | drop (computation : Nat)
  deriving DecidableEq, Repr

/-- The answer to an action. It is `absent` if the action names something that is not there. -/
inductive Session.Reply
  | done
  | key (number : Nat)
  | noKey
  | material (m : Material)
  | flag (b : Bool)
  | handle (handle : UInt64)
  | count (n : Nat)
  | computation (number : Nat)
  | output (b : Bytes)
  | result (r : Result)
  | fault (f : Fault)
  | absent

namespace Session

variable {σ : Type}

def key? (s : Session σ) (number : Nat) : Option Key :=
  s.keys[number]?.join

def computation? (s : Session σ) (number : Nat) : Option (Computation σ) :=
  s.computations[number]?.join

def custody? (s : Session σ) : Place → Option Custody
  | .direct => some { vault := s.vault, source := .direct }
  | .store number => s.stores[number]?.map fun store => { vault := s.vault, source := .store store }

def keep (s : Session σ) (place : Place) (c : Custody) : Session σ :=
  match place, c.source with
  | .store number, .store store =>
    { s with vault := c.vault, stores := s.stores.setIfInBounds number store }
  | _, _ => { s with vault := c.vault }

def addKey (s : Session σ) (key : Key) : Reply × Session σ :=
  (.key s.keys.size, { s with keys := s.keys.push (some key) })

def addComputation (s : Session σ) : Except Fault (Computation σ) → Reply × Session σ
  | .ok c => (.computation s.computations.size, { s with computations := s.computations.push (some c) })
  | .error e => (.fault e, s)

/-- Puts a computation in its place again, after a step that may have let go of its key. -/
def replace (s : Session σ) (number : Nat) (before after : Computation σ) : Session σ :=
  { s with
    vault := s.vault.settle before.binding after.binding
    computations := s.computations.setIfInBounds number (some after) }

def ofOutput : Except Fault Bytes → Reply
  | .ok b => .output b
  | .error e => .fault e

def perform? (s : Session σ) : Action → Option (Reply × Session σ)
  | .key bytes usage =>
    let (key, vault) := s.vault.deposit bytes usage
    some ({ s with vault }.addKey key)
  | .cloneKey number => do
    let key ← s.key? number
    return { s with vault := s.vault.retain key }.addKey key
  | .signingCopy number => do
    let (copy, vault) := s.vault.signingCopy (← s.key? number)
    return { s with vault }.addKey copy
  | .dropKey number => do
    let key ← s.key? number
    return (.done, { s with vault := s.vault.release key, keys := s.keys.setIfInBounds number none })
  | .inspectKey number => do
    return (.material (← s.vault.find? (← s.key? number)), s)
  | .sameMaterial number other => do
    return (.flag ((← s.key? number) = (← s.key? other)), s)
  | .insert place bytes hardware => do
    let (handle, c) ← (← s.custody? place).insert? bytes hardware
    return (.handle handle, s.keep place c)
  | .remove place handle => do
    let (removed, c) ← (← s.custody? place).remove? handle
    return (.flag removed, s.keep place c)
  | .resolve place handle => do
    match (← s.custody? place).resolve handle with
    | (.ok key, c) => return (s.keep place c).addKey key
    | (.error e, c) => return (.fault e, s.keep place c)
  | .copyForSigning place number => do
    match (← s.custody? place).copyForSigning (← s.key? number) with
    | (some copy, c) => return (s.keep place c).addKey copy
    | (none, c) => return (.noKey, s.keep place c)
  | .isLive place number => do
    return (.flag ((← s.custody? place).isLive (← s.key? number)), s)
  | .outstanding place => do
    let (n, c) ← (← s.custody? place).outstanding?
    return (.count n, s.keep place c)
  | .beginDigest a occasion => some (s.addComputation ((s.service.on occasion).beginDigest a))
  | .beginDigestNamed name occasion =>
    some (s.addComputation ((s.service.on occasion).beginDigestNamed name))
  | .beginMac a number place occasion => do
    let (begun, c) := (s.service.on occasion).beginMac a (← s.key? number) (← s.custody? place)
    return (s.keep place c).addComputation begun
  | .beginMacFromHandle a handle place occasion => do
    let (begun, c) := (s.service.on occasion).beginMacFromHandle a handle (← s.custody? place)
    return (s.keep place c).addComputation begun
  | .digest a data occasion => some (ofOutput ((s.service.on occasion).digest a data), s)
  | .mac a number place data occasion => do
    let (output, c) := (s.service.on occasion).mac a (← s.key? number) data (← s.custody? place)
    return (ofOutput output, s.keep place c)
  | .inspect number => do
    let _ ← s.computation? number
    return (.done, s)
  | .call number call => do
    let c ← s.computation? number
    let (result, after) := (c.perform call).run s.service.library
    return (.result result, s.replace number c after)
  | .feedPieces number data size => do
    let c ← s.computation? number
    let (status, after) := c.feedAll s.service.library (data.pieces size)
    return (.result (.status status), s.replace number c after)
  | .drop number => do
    let c ← s.computation? number
    let s := s.replace number c c.retire
    return (.done, { s with computations := s.computations.setIfInBounds number none })

def perform (s : Session σ) (action : Action) : Reply × Session σ :=
  (s.perform? action).getD (.absent, s)

end Session

end StreamDigest
