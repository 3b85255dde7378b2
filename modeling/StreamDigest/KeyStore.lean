import StreamDigest.Fault
import StreamDigest.Vault

namespace StreamDigest

structure Entry where
  handle : UInt64
  key : Key
  hardware : Bool
  deriving DecidableEq, Repr

/-- Keys under handles that count from one, and the signing copies that were made of them. The count
comes round after the last word. Copies are no references: a store may go on to list some that nothing
refers to any more. -/
structure KeyStore where
  lastHandle : UInt64 := 0
  entries : List Entry := []
  copies : List Key := []
  deriving DecidableEq, Repr

namespace KeyStore

def entry? (s : KeyStore) (handle : UInt64) : Option Entry :=
  s.entries.find? fun e => e.handle = handle

def entryOf? (s : KeyStore) (key : Key) : Option Entry :=
  s.entries.find? fun e => e.key = key

/-- Revokes a handle and gives up the store's reference; tells whether there was one. -/
def remove (s : KeyStore) (v : Vault) (handle : UInt64) : Bool × KeyStore × Vault :=
  match s.entry? handle with
  | none => (false, s, v)
  | some e =>
    (true, { s with entries := s.entries.filter fun e => e.handle ≠ handle }, v.release e.key)

def put (s : KeyStore) (e : Entry) : KeyStore :=
  { s with lastHandle := e.handle, entries := e :: s.entries }

/-- Stores a new key under the next handle. A key that has the handle already makes way for it. -/
def insert (s : KeyStore) (v : Vault) (bytes : Bytes) (hardware : Bool) :
    UInt64 × KeyStore × Vault :=
  let (key, v) := v.deposit bytes .any
  let handle := s.lastHandle + 1
  let (_, s, v) := s.remove v handle
  (handle, s.put { handle, key, hardware }, v)

/-- Strikes the signing copies off that nothing refers to any more. -/
def prune (s : KeyStore) (v : Vault) : KeyStore :=
  { s with copies := s.copies.filter fun key => 0 < v.references key }

/-- How many signing copies made here are still referred to. -/
def outstanding (s : KeyStore) (v : Vault) : Nat :=
  (s.prune v).copies.length

end KeyStore

/-- Where a caller says its keys come from: nowhere in particular, or a store. -/
inductive KeySource
  | direct
  | store (s : KeyStore)
  deriving DecidableEq, Repr

/-- All key material, with the source that is in use. -/
structure Custody where
  vault : Vault := {}
  source : KeySource := .store {}
  deriving DecidableEq, Repr

namespace Custody

def release (c : Custody) (key : Key) : Custody :=
  { c with vault := c.vault.release key }

/-- The key under a handle, to which the caller gets a reference. -/
def resolve (c : Custody) (handle : UInt64) : Except Fault Key × Custody :=
  match c.source with
  | .direct => (.error .invalidKeyHandle, c)
  | .store s =>
    match s.entry? handle with
    | some e => (.ok e.key, { c with vault := c.vault.retain e.key })
    | none => (.error .invalidKeyHandle, c)

def isLive (c : Custody) (key : Key) : Bool :=
  !(c.vault.bytes key).isEmpty &&
    match c.source with
    | .direct => true
    | .store s => (s.entryOf? key).isSome

/-- A signing copy of `key`, if the source can make one. A store keeps account of its copies, and
looks through the account whenever it adds to it. -/
def copyForSigning (c : Custody) (key : Key) : Option Key × Custody :=
  match c.source with
  | .direct =>
    let (copy, vault) := c.vault.signingCopy key
    (some copy, { c with vault })
  | .store s =>
    match s.entryOf? key with
    | some { hardware := false, .. } =>
      let (copy, vault) := c.vault.signingCopy key
      let s := s.prune vault
      (some copy, { vault, source := .store { s with copies := copy :: s.copies } })
    | _ => (none, c)

/-- Stores a new key, if the source is a store. -/
def insert? (c : Custody) (bytes : Bytes) (hardware : Bool) : Option (UInt64 × Custody) :=
  match c.source with
  | .direct => none
  | .store s =>
    let (handle, s, vault) := s.insert c.vault bytes hardware
    some (handle, { vault, source := .store s })

def remove? (c : Custody) (handle : UInt64) : Option (Bool × Custody) :=
  match c.source with
  | .direct => none
  | .store s =>
    let (removed, s, vault) := s.remove c.vault handle
    some (removed, { vault, source := .store s })

/-- Counts the outstanding signing copies, if the source is a store; others are struck off. -/
def outstanding? (c : Custody) : Option (Nat × Custody) :=
  match c.source with
  | .direct => none
  | .store s => some (s.outstanding c.vault, { c with source := .store (s.prune c.vault) })

end Custody

end StreamDigest
