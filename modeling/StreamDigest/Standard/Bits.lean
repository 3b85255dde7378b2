import Mathlib.Data.Nat.NthRoot.Defs
import Mathlib.Data.Nat.Prime.Basic
import StreamDigest.Bytes

namespace StreamDigest

namespace Standard

variable {w : Nat}

/-- The bits of a word, the most significant first. -/
def bits (x : BitVec w) : List Bool :=
  List.ofFn x.getMsb

/-- The number that a bit string spells. -/
def value (m : List Bool) : Nat :=
  m.foldl (fun n x => 2 * n + x.toNat) 0

/-- The `j`-th of the words of `w` bits that a bit string consists of. -/
def wordAt (w : Nat) (m : List Bool) (j : Nat) : BitVec w :=
  BitVec.ofNat w (value ((m.drop (w * j)).take w))

def ofBytes (b : Bytes) : List Bool :=
  b.flatMap fun x => bits x.toBitVec

def toBytes (m : List Bool) : Bytes :=
  List.ofFn fun i : Fin (m.length / 8) => UInt8.ofBitVec (wordAt 8 m i)

/-- A word of which the bytes come least significant first. -/
def ofLittle (w : Nat) (b : Bytes) : BitVec w :=
  BitVec.ofNat w (value (ofBytes b.reverse))

def toLittle (x : BitVec w) : Bytes :=
  (toBytes (bits x)).reverse

def rotl (n : Nat) (x : BitVec w) : BitVec w :=
  x <<< n ||| x >>> (w - n)

def rotr (n : Nat) (x : BitVec w) : BitVec w :=
  x >>> n ||| x <<< (w - n)

/-- The first eighty primes. -/
def primes : List Nat :=
  (List.range 410).filter Nat.Prime

/-- The first `w` fractional bits of the `k`-th root of the prime number `i`, counted from zero. -/
def rootBits (k w i : Nat) : BitVec w :=
  BitVec.ofNat w (Nat.nthRoot k (primes.getD i 0 * 2 ^ (k * w)))

end Standard

end StreamDigest
