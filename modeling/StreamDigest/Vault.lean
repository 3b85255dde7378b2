import StreamDigest.Bytes

namespace StreamDigest

inductive Usage
  | any
  | signing
  deriving DecidableEq, Repr

def Usage.name : Usage → String
  | any => "Any"
  | signing => "Signing"

/-- Which material a key refers to. Keys are the same if their serials are, whatever the bytes. -/
structure Key where
  serial : Nat
  deriving DecidableEq, Repr

structure Material where
  bytes : Bytes
  usage : Usage
  references : Nat
  deriving DecidableEq, Repr

/-- The text of a key, which keeps its bytes back. -/
def Material.describe (m : Material) : String :=
  s!"KeyMaterial \x7b len: {m.bytes.length}, usage: {m.usage.name} \x7d"

/-- All key material there has been, by serial, with the number of references to each. -/
structure Vault where
  materials : Array Material := #[]
  deriving DecidableEq, Repr

namespace Vault

def find? (v : Vault) (key : Key) : Option Material :=
  v.materials[key.serial]?

def bytes (v : Vault) (key : Key) : Bytes :=
  match v.find? key with
  | some m => m.bytes
  | none => []

def usage (v : Vault) (key : Key) : Usage :=
  match v.find? key with
  | some m => m.usage
  | none => .any

def references (v : Vault) (key : Key) : Nat :=
  match v.find? key with
  | some m => m.references
  | none => 0

/-- Takes in new material, to which the returned key is the one reference. -/
def deposit (v : Vault) (bytes : Bytes) (usage : Usage) : Key × Vault :=
  (⟨v.materials.size⟩, ⟨v.materials.push { bytes, usage, references := 1 }⟩)

/-- Takes in `len` bytes drawn from `entropy`. -/
def generate (v : Vault) (entropy : Nat → UInt8) (len : Nat) : Key × Vault :=
  v.deposit ((List.range len).map entropy) .any

/-- Takes in fresh material with the bytes of `key`, for signing only. -/
def signingCopy (v : Vault) (key : Key) : Key × Vault :=
  v.deposit (v.bytes key) .signing

def retain (v : Vault) (key : Key) : Vault :=
  ⟨v.materials.modify key.serial fun m => { m with references := m.references + 1 }⟩

def release (v : Vault) (key : Key) : Vault :=
  ⟨v.materials.modify key.serial fun m => { m with references := m.references - 1 }⟩

end Vault

end StreamDigest
