namespace StreamDigest

abbrev Bytes := List UInt8

/-- The end of a range, if it is not beyond `available`. Where sums of bounds wrap around, a range that
has no end is told by its end being less than its start. -/
def rangeEnd? {ν : Type} [Add ν] [LT ν] [DecidableLT ν] (available offset length : ν) : Option ν :=
  if offset + length < offset then none
  else if available < offset + length then none
  else some (offset + length)

namespace Bytes

def slice (b : Bytes) (offset length : Nat) : Bytes :=
  (b.drop offset).take length

/-- Replaces the bytes from `offset` on by `part`. -/
def overwrite (b : Bytes) (offset : Nat) (part : Bytes) : Bytes :=
  b.take offset ++ part ++ b.drop (offset + part.length)

/-- The first `count` consecutive pieces of `size` bytes. -/
def cut (size : Nat) : Nat → Bytes → List Bytes
  | 0, _ => []
  | count + 1, b => b.take size :: cut size count (b.drop size)

/-- The whole blocks of `size` bytes. -/
def blocks (size : Nat) (b : Bytes) : List Bytes :=
  cut size (b.length / size) b

/-- Consecutive pieces of `size` bytes that use up `b`; only the last may be shorter. -/
def pieces (size : Nat) (b : Bytes) : List Bytes :=
  cut size ((b.length + size - 1) / size) b

def zeros (n : Nat) : Bytes :=
  List.replicate n 0

def ofLittleEndian (b : Bytes) : Nat :=
  b.foldr (fun x n => x.toNat + 256 * n) 0

def littleEndian : Nat → Nat → Bytes
  | 0, _ => []
  | size + 1, n => n.toUInt8 :: littleEndian size (n / 256)

def ofBigEndian (b : Bytes) : Nat :=
  b.foldl (fun n x => 256 * n + x.toNat) 0

def bigEndian (size n : Nat) : Bytes :=
  (littleEndian size n).reverse

def hexDigit (n : Nat) : Char :=
  Char.ofNat (if n < 10 then '0'.toNat + n else 'a'.toNat + (n - 10))

/-- Two lower-case hexadecimal digits a byte. -/
def hex (b : Bytes) : String :=
  String.ofList (b.flatMap fun x => [hexDigit (x.toNat / 16), hexDigit (x.toNat % 16)])

@[simp]
theorem length_zeros (n : Nat) : (zeros n).length = n := by
  simp [zeros]

@[simp]
theorem length_littleEndian (size n : Nat) : (littleEndian size n).length = size := by
  induction size generalizing n with
  | zero => rfl
  | succ size ih => simp [littleEndian, ih]

@[simp]
theorem length_bigEndian (size n : Nat) : (bigEndian size n).length = size := by
  simp [bigEndian]

theorem cut_add (size m n : Nat) (b : Bytes) :
    cut size (m + n) b = cut size m b ++ cut size n (b.drop (m * size)) := by
  induction m generalizing b with
  | zero => simp [cut]
  | succ m ih =>
    rw [Nat.add_right_comm]
    simp only [cut, ih, List.drop_drop, List.cons_append]
    rw [show size + m * size = (m + 1) * size by grind]

theorem cut_append {size n : Nat} {a : Bytes} (h : n * size ≤ a.length) (b : Bytes) :
    cut size n (a ++ b) = cut size n a := by
  induction n generalizing a with
  | zero => rfl
  | succ n ih =>
    have fits : size ≤ a.length := by grind
    simp only [cut]
    rw [List.take_append_of_le_length fits, List.drop_append_of_le_length fits,
      ih (by simp only [List.length_drop]; grind)]

/-- Blocks may be cut off the front before the rest is cut. -/
theorem blocks_append {size n : Nat} {a : Bytes} (positive : 0 < size) (h : n * size ≤ a.length)
    (b : Bytes) : blocks size (a ++ b) = cut size n a ++ blocks size (a.drop (n * size) ++ b) := by
  have count : (a ++ b).length / size = n + (a.drop (n * size) ++ b).length / size := by
    rw [Nat.mul_comm] at h ⊢
    rw [← Nat.mul_add_div positive]
    congr 1
    simp only [List.length_append, List.length_drop]
    omega
  rw [blocks, count, cut_add, cut_append h, List.drop_append_of_le_length h, blocks]

end Bytes

end StreamDigest
