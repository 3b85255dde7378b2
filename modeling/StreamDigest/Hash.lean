import StreamDigest.Hash.Blake2b
import StreamDigest.Hash.Sha1
import StreamDigest.Hash.Sha2

namespace StreamDigest

inductive Hash
  | sha1
  | sha256
  | sha384
  | sha512
  | blake2b
  deriving DecidableEq, Repr

namespace Hash

abbrev Chain : Hash → Type
  | sha1 => Vector UInt32 5
  | sha256 => Vector UInt32 8
  | sha384 | sha512 | blake2b => Vector UInt64 8

def iterated : (h : Hash) → Iterated h.Chain
  | sha1 => StreamDigest.sha1.iterated
  | sha256 => StreamDigest.sha256.iterated
  | sha384 => StreamDigest.sha384.iterated
  | sha512 => StreamDigest.sha512.iterated
  | blake2b => Blake2b.iterated

def digest : Hash → Bytes → Bytes
  | sha1 => StreamDigest.sha1.digest
  | sha256 => StreamDigest.sha256.digest
  | sha384 => StreamDigest.sha384.digest
  | sha512 => StreamDigest.sha512.digest
  | blake2b => Blake2b.digest []

def outputLen : Hash → Nat
  | sha1 => 20
  | sha256 => 32
  | sha384 => 48
  | sha512 => 64
  | blake2b => Blake2b.outputLen

def blockLen : Hash → Nat
  | sha1 | sha256 => 64
  | sha384 | sha512 | blake2b => 128

theorem iterated_blockLen (h : Hash) : h.iterated.blockLen = h.blockLen := by
  cases h <;> rfl

theorem blockLen_pos (h : Hash) : 0 < h.blockLen := by
  cases h <;> decide

/-- Taking a message in and closing gives its digest. -/
theorem iterated_output (h : Hash) (message : Bytes) :
    h.iterated.output (h.iterated.absorb h.iterated.start message) = h.digest message := by
  cases h with
  | sha1 => exact StreamDigest.sha1.iterated_output (by decide) message
  | sha256 => exact StreamDigest.sha256.iterated_output (by decide) message
  | sha384 => exact StreamDigest.sha384.iterated_output (by decide) message
  | sha512 => exact StreamDigest.sha512.iterated_output (by decide) message
  | blake2b => exact Blake2b.iterated_output [] message

example : (sha1.digest "abc".toUTF8.toList).hex = "a9993e364706816aba3e25717850c26c9cd0d89d" := by
  decide +kernel

example : (sha512.digest "abc".toUTF8.toList).hex =
    "ddaf35a193617abacc417349ae20413112e6fa4e89a97ea20a9eeee64b55d39a" ++
      "2192992a274fc1a836ba3c23a3feebbd454d4423643ce80e2a9ac94fa54ca49f" := by
  decide +kernel

end Hash

end StreamDigest
