import StreamDigest.Hash

namespace StreamDigest

inductive Kind
  | digest
  | mac
  deriving DecidableEq, Repr

inductive Algorithm
  | sha1
  | sha256
  | sha384
  | sha512
  | blake2b
  | hmacSha1
  | hmacSha256
  | hmacSha384
  | hmacSha512
  | blake2bMac
  deriving DecidableEq, Repr

namespace Algorithm

def all : List Algorithm :=
  [sha1, sha256, sha384, sha512, blake2b, hmacSha1, hmacSha256, hmacSha384, hmacSha512, blake2bMac]

def kind : Algorithm → Kind
  | sha1 | sha256 | sha384 | sha512 | blake2b => .digest
  | hmacSha1 | hmacSha256 | hmacSha384 | hmacSha512 | blake2bMac => .mac

def name : Algorithm → String
  | sha1 => "SHA-1"
  | sha256 => "SHA-256"
  | sha384 => "SHA-384"
  | sha512 => "SHA-512"
  | blake2b => "BLAKE2B-256"
  | hmacSha1 => "HMAC-SHA1"
  | hmacSha256 => "HMAC-SHA256"
  | hmacSha384 => "HMAC-SHA384"
  | hmacSha512 => "HMAC-SHA512"
  | blake2bMac => "BLAKE2B-MAC-256"

/-- The name in documents and descriptions. -/
def identifier : Algorithm → String
  | sha1 => "Sha1"
  | sha256 => "Sha256"
  | sha384 => "Sha384"
  | sha512 => "Sha512"
  | blake2b => "Blake2b256"
  | hmacSha1 => "HmacSha1"
  | hmacSha256 => "HmacSha256"
  | hmacSha384 => "HmacSha384"
  | hmacSha512 => "HmacSha512"
  | blake2bMac => "Blake2bMac256"

def ofIdentifier? (s : String) : Option Algorithm :=
  all.find? fun a => a.identifier = s

/-- The hash that the algorithm is or is built on. -/
def hash : Algorithm → Hash
  | sha1 | hmacSha1 => .sha1
  | sha256 | hmacSha256 => .sha256
  | sha384 | hmacSha384 => .sha384
  | sha512 | hmacSha512 => .sha512
  | blake2b | blake2bMac => .blake2b

def ofHash : Hash → Algorithm
  | .sha1 => sha1
  | .sha256 => sha256
  | .sha384 => sha384
  | .sha512 => sha512
  | .blake2b => blake2b

def outputLen (a : Algorithm) : Nat :=
  a.hash.outputLen

def blockLen (a : Algorithm) : Nat :=
  a.hash.blockLen

theorem mem_all (a : Algorithm) : a ∈ all := by
  cases a <;> simp [all]

end Algorithm

end StreamDigest
