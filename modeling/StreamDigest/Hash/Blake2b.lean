import StreamDigest.Hash.Iterated
import StreamDigest.Hash.Roots
import StreamDigest.Word

namespace StreamDigest

namespace Blake2b

open Word

def blockLen : Nat := 128

def outputLen : Nat := 32

def maxKeyLen : Nat := 64

def initial : Vector UInt64 8 :=
  Vector.ofFn fun i => squareRoots[i.val]

/-- The initial values with the output length, the key length and sequential mode mixed in. -/
def parameterized (keyLen : Nat) : Vector UInt64 8 :=
  initial.zipWith (· ^^^ ·)
    #v[0x01010000 + 256 * keyLen.toUInt64 + outputLen.toUInt64, 0, 0, 0, 0, 0, 0, 0]

/-- The order in which each round takes the message words. -/
def orders : List (Vector (Fin 16) 16) := [
  #v[0, 1, 2, 3, 4, 5, 6, 7, 8, 9, 10, 11, 12, 13, 14, 15],
  #v[14, 10, 4, 8, 9, 15, 13, 6, 1, 12, 0, 2, 11, 7, 5, 3],
  #v[11, 8, 12, 0, 5, 2, 15, 13, 10, 14, 3, 6, 7, 1, 9, 4],
  #v[7, 9, 3, 1, 13, 12, 11, 14, 2, 6, 5, 10, 4, 0, 15, 8],
  #v[9, 0, 5, 7, 2, 4, 10, 15, 14, 1, 11, 12, 6, 8, 3, 13],
  #v[2, 12, 6, 10, 0, 11, 8, 3, 4, 13, 7, 5, 15, 14, 1, 9],
  #v[12, 5, 1, 15, 14, 13, 4, 10, 0, 7, 6, 3, 9, 2, 8, 11],
  #v[13, 11, 7, 14, 12, 1, 3, 9, 5, 0, 15, 4, 8, 6, 2, 10],
  #v[6, 15, 14, 9, 11, 3, 0, 8, 12, 2, 13, 7, 1, 4, 10, 5],
  #v[10, 2, 8, 4, 7, 6, 1, 5, 15, 11, 9, 14, 3, 12, 13, 0]]

/-- The registers that each of a round's eight mixings works on: columns, then diagonals. -/
def lanes : Vector (Fin 16 × Fin 16 × Fin 16 × Fin 16) 8 := #v[
  (0, 4, 8, 12), (1, 5, 9, 13), (2, 6, 10, 14), (3, 7, 11, 15),
  (0, 5, 10, 15), (1, 6, 11, 12), (2, 7, 8, 13), (3, 4, 9, 14)]

def mix (v : Vector UInt64 16) (lane : Fin 16 × Fin 16 × Fin 16 × Fin 16) (x y : UInt64) :
    Vector UInt64 16 :=
  let (a, b, c, d) := lane
  let v := v.set a (v[a] + v[b] + x)
  let v := v.set d (rotateRight (v[d] ^^^ v[a]) 32)
  let v := v.set c (v[c] + v[d])
  let v := v.set b (rotateRight (v[b] ^^^ v[c]) 24)
  let v := v.set a (v[a] + v[b] + y)
  let v := v.set d (rotateRight (v[d] ^^^ v[a]) 16)
  let v := v.set c (v[c] + v[d])
  v.set b (rotateRight (v[b] ^^^ v[c]) 63)

def round (m : Vector UInt64 16) (v : Vector UInt64 16) (order : Vector (Fin 16) 16) :
    Vector UInt64 16 :=
  Fin.foldl 8 (fun v i => mix v lanes[i] m[order[2 * i.val]] m[order[2 * i.val + 1]]) v

/-- Compresses a block that ends `count` bytes into the message; the closing block is marked. -/
def compress (closing : Bool) (chain : Vector UInt64 8) (count : Nat) (block : Bytes) :
    Vector UInt64 8 :=
  let v := chain ++ initial
  let v := v.set 12 (v[12] ^^^ count.toUInt64)
  let v := v.set 13 (v[13] ^^^ (count / UInt64.size).toUInt64)
  let v := v.set 14 (if closing then ~~~v[14] else v[14])
  let v := (orders ++ orders.take 2).foldl (round (readLittle 16 block)) v
  Vector.ofFn fun i => chain[i] ^^^ v[i.val] ^^^ v[i.val + 8]

def pad (b : Bytes) : Bytes :=
  b ++ Bytes.zeros (blockLen - b.length)

def close (chain : Vector UInt64 8) (count : Nat) (rest : Bytes) : Bytes :=
  (writeLittle (compress true chain count (pad rest))).take outputLen

def iterated : Iterated (Vector UInt64 8) where
  blockLen := blockLen
  initial := parameterized 0
  compress := compress false
  close := close

/-- A key goes in front of the message as a block of its own. -/
def keyBlock (key : Bytes) : Bytes :=
  if key = [] then [] else pad key

def start (key : Bytes) : Progress (Vector UInt64 8) where
  chain := parameterized key.length
  count := 0
  pending := keyBlock key

def fold (chain : Vector UInt64 8) (count : Nat) : List Bytes → Vector UInt64 8
  | [] => chain
  | block :: rest => fold (compress false chain (count + blockLen) block) (count + blockLen) rest

/-- All blocks but the last are compressed in turn, and then the last, which may be empty. -/
def digest (key message : Bytes) : Bytes :=
  let input := keyBlock key ++ message
  let before := (input.length - 1) / blockLen
  let chain := fold (parameterized key.length) 0 (input.cut blockLen before)
  close chain input.length (input.drop (before * blockLen))

theorem iterated_fold (chain : Vector UInt64 8) (count : Nat) (blocks : List Bytes) :
    iterated.fold chain count blocks = fold chain count blocks := by
  induction blocks generalizing chain count with
  | nil => rfl
  | cons block rest ih => exact ih _ _

theorem iterated_output (key message : Bytes) :
    iterated.output (iterated.absorb (start key) message) = digest key message := by
  have le := iterated.waiting_le (keyBlock key ++ message)
  simp only [Iterated.absorb, start, Iterated.drain_eq, Iterated.output, iterated_fold,
    List.length_drop, Nat.zero_add]
  rw [Nat.add_sub_cancel' le]
  rfl

end Blake2b

end StreamDigest
