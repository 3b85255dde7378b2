import StreamDigest.Hash.MerkleDamgard
import StreamDigest.Hash.Roots
import StreamDigest.Word

namespace StreamDigest

/-- What tells the members of the family apart: one constant a round, three rotations for each
of the two register functions, two rotations and a shift for each of the two schedule functions. -/
structure Sha2 (ω : Type) where
  constants : List ω
  register0 : Nat × Nat × Nat
  register1 : Nat × Nat × Nat
  schedule0 : Nat × Nat × Nat
  schedule1 : Nat × Nat × Nat

namespace Sha2

open Word

variable {ω : Type} [Word ω]

def register (n : Nat × Nat × Nat) (x : ω) : ω :=
  rotateRight x n.1 ^^^ rotateRight x n.2.1 ^^^ rotateRight x n.2.2

def schedule (n : Nat × Nat × Nat) (x : ω) : ω :=
  rotateRight x n.1 ^^^ rotateRight x n.2.1 ^^^ shiftRight x n.2.2

def round (p : Sha2 ω) (s : Vector ω 8 × Window ω) (k : ω) : Vector ω 8 × Window ω :=
  let (v, w) := s
  let t := v[7] + register p.register1 v[4] + choose v[4] v[5] v[6] + k + w.oldest
  let u := register p.register0 v[0] + majority v[0] v[1] v[2]
  (#v[t + u, v[0], v[1], v[2], v[3] + t, v[4], v[5], v[6]],
    w.advance (schedule p.schedule1 w[14] + w[9] + schedule p.schedule0 w[1] + w.oldest))

def compress (p : Sha2 ω) (chain : Vector ω 8) (block : Bytes) : Vector ω 8 :=
  chain.zipWith (· + ·) (p.constants.foldl p.round (chain, readBig 16 block)).1

def narrow : Sha2 UInt32 where
  constants := (cubeRoots.take 64).map fun x : UInt64 => (x >>> 32).toUInt32
  register0 := (2, 13, 22)
  register1 := (6, 11, 25)
  schedule0 := (7, 18, 3)
  schedule1 := (17, 19, 10)

def wide : Sha2 UInt64 where
  constants := cubeRoots
  register0 := (28, 34, 39)
  register1 := (14, 18, 41)
  schedule0 := (1, 8, 7)
  schedule1 := (19, 61, 6)

end Sha2

def sha256 : MerkleDamgard (Vector UInt32 8) where
  blockLen := 64
  lengthLen := 8
  initial := Vector.ofFn fun i => (squareRoots.get (i.castAdd 8) >>> 32).toUInt32
  compress := Sha2.narrow.compress
  output := Word.writeBig

def sha512 : MerkleDamgard (Vector UInt64 8) where
  blockLen := 128
  lengthLen := 16
  initial := Vector.ofFn fun i => squareRoots.get (i.castAdd 8)
  compress := Sha2.wide.compress
  output := Word.writeBig

/-- SHA-512 from other initial values, cut to 48 bytes. -/
def sha384 : MerkleDamgard (Vector UInt64 8) where
  blockLen := 128
  lengthLen := 16
  initial := Vector.ofFn fun i => squareRoots.get (i.natAdd 8)
  compress := Sha2.wide.compress
  output chain := (Word.writeBig chain).take 48

end StreamDigest
