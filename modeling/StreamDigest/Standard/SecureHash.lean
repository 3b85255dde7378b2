import Mathlib.Data.Fin.VecNotation
import StreamDigest.Standard.Bits

namespace StreamDigest

namespace Standard

variable {w n : Nat}

def ch (x y z : BitVec w) : BitVec w :=
  (x &&& y) ^^^ (~~~x &&& z)

def parity (x y z : BitVec w) : BitVec w :=
  x ^^^ y ^^^ z

def maj (x y z : BitVec w) : BitVec w :=
  (x &&& y) ^^^ (x &&& z) ^^^ (y &&& z)

/-- The least `k` for which `l + 1 + k` is `14 * w` modulo `16 * w`. -/
def zeroCount (w l : Nat) : Nat :=
  (((14 * w : Nat) - (l + 1 : Nat) : Int) % (16 * w : Nat)).toNat

/-- A message with a one bit, as few zeros as do, and its own length in two words, so that it
consists of blocks of sixteen words. Of lengths that two words do not hold the standard says
nothing. -/
def padded (w : Nat) (m : List Bool) : List Bool :=
  m ++ true :: List.replicate (zeroCount w m.length) false ++ bits (BitVec.ofNat (2 * w) m.length)

/-- A hash that carries `n` words of `w` bits from block to block. The schedule draws a word for
each round from the block, and a round is told its number and its word. -/
structure SecureHash (w n : Nat) where
  initial : Fin n → BitVec w
  rounds : Nat
  schedule : (Fin 16 → BitVec w) → Nat → BitVec w
  round : Nat → BitVec w → (Fin n → BitVec w) → Fin n → BitVec w
  outputBits : Nat

namespace SecureHash

def compress (s : SecureHash w n) (h : Fin n → BitVec w) (m : Fin 16 → BitVec w) :
    Fin n → BitVec w :=
  let v := (List.range s.rounds).foldl (fun v t => s.round t (s.schedule m t) v) h
  fun i => h i + v i

/-- What is carried when so many blocks of a padded message are compressed. -/
def chain (s : SecureHash w n) (m : List Bool) : Nat → Fin n → BitVec w
  | 0 => s.initial
  | i + 1 => s.compress (s.chain m i) fun t => wordAt w m (16 * i + t)

def digest (s : SecureHash w n) (message : Bytes) : Bytes :=
  let m := padded w (ofBytes message)
  let h := s.chain m (m.length / (16 * w))
  toBytes (((List.ofFn h).flatMap bits).take s.outputBits)

end SecureHash

def sha1Schedule (m : Fin 16 → BitVec 32) (t : Nat) : BitVec 32 :=
  if h : t < 16 then m ⟨t, h⟩
  else rotl 1 (sha1Schedule m (t - 3) ^^^ sha1Schedule m (t - 8) ^^^ sha1Schedule m (t - 14) ^^^
    sha1Schedule m (t - 16))

def sha1Function (t : Nat) : BitVec 32 → BitVec 32 → BitVec 32 → BitVec 32 :=
  if t < 20 then ch else if t < 40 then parity else if t < 60 then maj else parity

def sha1Constant (t : Nat) : BitVec 32 :=
  if t < 20 then 0x5a827999 else if t < 40 then 0x6ed9eba1
  else if t < 60 then 0x8f1bbcdc else 0xca62c1d6

def sha1 : SecureHash 32 5 where
  initial := ![0x67452301, 0xefcdab89, 0x98badcfe, 0x10325476, 0xc3d2e1f0]
  rounds := 80
  schedule := sha1Schedule
  round t x v :=
    let (a, b, c, d, e) := (v 0, v 1, v 2, v 3, v 4)
    ![rotl 5 a + sha1Function t b c d + e + sha1Constant t + x, a, rotl 30 b, c, d]
  outputBits := 160

/-- The functions in which the later hashes of the family differ: two for the rounds and two for
the schedule. -/
structure Sigmas (w : Nat) where
  upper0 : BitVec w → BitVec w
  upper1 : BitVec w → BitVec w
  lower0 : BitVec w → BitVec w
  lower1 : BitVec w → BitVec w

namespace Sigmas

def schedule (s : Sigmas w) (m : Fin 16 → BitVec w) (t : Nat) : BitVec w :=
  if h : t < 16 then m ⟨t, h⟩
  else s.lower1 (s.schedule m (t - 2)) + s.schedule m (t - 7) + s.lower0 (s.schedule m (t - 15)) +
    s.schedule m (t - 16)

def round (s : Sigmas w) (t : Nat) (x : BitVec w) (v : Fin 8 → BitVec w) : Fin 8 → BitVec w :=
  let (a, b, c, d, e, f, g, h) := (v 0, v 1, v 2, v 3, v 4, v 5, v 6, v 7)
  let t1 := h + s.upper1 e + ch e f g + rootBits 3 w t + x
  let t2 := s.upper0 a + maj a b c
  ![t1 + t2, a, b, c, d + t1, e, f, g]

def narrow : Sigmas 32 where
  upper0 x := rotr 2 x ^^^ rotr 13 x ^^^ rotr 22 x
  upper1 x := rotr 6 x ^^^ rotr 11 x ^^^ rotr 25 x
  lower0 x := rotr 7 x ^^^ rotr 18 x ^^^ x >>> 3
  lower1 x := rotr 17 x ^^^ rotr 19 x ^^^ x >>> 10

def wide : Sigmas 64 where
  upper0 x := rotr 28 x ^^^ rotr 34 x ^^^ rotr 39 x
  upper1 x := rotr 14 x ^^^ rotr 18 x ^^^ rotr 41 x
  lower0 x := rotr 1 x ^^^ rotr 8 x ^^^ x >>> 7
  lower1 x := rotr 19 x ^^^ rotr 61 x ^^^ x >>> 6

end Sigmas

def sha256 : SecureHash 32 8 where
  initial i := rootBits 2 32 i
  rounds := 64
  schedule := Sigmas.narrow.schedule
  round := Sigmas.narrow.round
  outputBits := 256

def sha512 : SecureHash 64 8 where
  initial i := rootBits 2 64 i
  rounds := 80
  schedule := Sigmas.wide.schedule
  round := Sigmas.wide.round
  outputBits := 512

def sha384 : SecureHash 64 8 :=
  { sha512 with
    initial := fun i => rootBits 2 64 (8 + i)
    outputBits := 384 }

end Standard

end StreamDigest
