import StreamDigest.Bytes

namespace StreamDigest

/-- Machine words of a hash function: sums wrap, and a word is read and written as `size` bytes. -/
class Word (ω : Type) extends Add ω, AndOp ω, XorOp ω, Complement ω where
  size : Nat
  ofNat : Nat → ω
  toNat : ω → Nat
  shiftRight : ω → Nat → ω
  rotateRight : ω → Nat → ω

instance : Word UInt32 where
  size := 4
  ofNat := UInt32.ofNat
  toNat := UInt32.toNat
  shiftRight x n := x >>> n.toUInt32
  rotateRight x n := x >>> n.toUInt32 ||| x <<< (32 - n).toUInt32

instance : Word UInt64 where
  size := 8
  ofNat := UInt64.ofNat
  toNat := UInt64.toNat
  shiftRight x n := x >>> n.toUInt64
  rotateRight x n := x >>> n.toUInt64 ||| x <<< (64 - n).toUInt64

namespace Word

variable {ω : Type} [Word ω]

def rotateLeft (x : ω) (n : Nat) : ω :=
  rotateRight x (8 * size ω - n)

/-- The `n` words at the front of `b`, most significant byte first. -/
def readBig (n : Nat) (b : Bytes) : Vector ω n :=
  Vector.ofFn fun i => ofNat (b.slice (i * size ω) (size ω)).ofBigEndian

/-- The `n` words at the front of `b`, least significant byte first. -/
def readLittle (n : Nat) (b : Bytes) : Vector ω n :=
  Vector.ofFn fun i => ofNat (b.slice (i * size ω) (size ω)).ofLittleEndian

def writeBig {n : Nat} (v : Vector ω n) : Bytes :=
  v.toList.flatMap fun x => Bytes.bigEndian (size ω) (toNat x)

def writeLittle {n : Nat} (v : Vector ω n) : Bytes :=
  v.toList.flatMap fun x => Bytes.littleEndian (size ω) (toNat x)

def choose (x y z : ω) : ω :=
  (x &&& y) ^^^ (~~~x &&& z)

def majority (x y z : ω) : ω :=
  (x &&& y) ^^^ (x &&& z) ^^^ (y &&& z)

def parity (x y z : ω) : ω :=
  x ^^^ y ^^^ z

theorem length_writeBig {n : Nat} (v : Vector ω n) : (writeBig v).length = n * size ω := by
  simp [writeBig, List.length_flatMap, List.map_const']

theorem length_writeLittle {n : Nat} (v : Vector ω n) : (writeLittle v).length = n * size ω := by
  simp [writeLittle, List.length_flatMap, List.map_const']

end Word

/-- Sixteen consecutive words of a message schedule. -/
abbrev Window (ω : Type) := Vector ω 16

def Window.oldest {ω : Type} (w : Window ω) : ω :=
  w[0]

def Window.advance {ω : Type} (w : Window ω) (x : ω) : Window ω :=
  w.tail.push x

end StreamDigest
