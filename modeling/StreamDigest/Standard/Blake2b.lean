import Mathlib.Data.Fin.Tuple.Basic
import Mathlib.Data.Fin.VecNotation
import StreamDigest.Standard.Bits

namespace StreamDigest

namespace Standard

namespace Blake2b

/-- For each round the words of the block that it takes in turn, one hexadecimal digit each. -/
def orders : Fin 10 → Nat := ![
  0x0123456789abcdef, 0xea489fd61c02b753, 0xb8c052fdae367194, 0x7931dcbe265a40f8,
  0x905724afe1bc683d, 0x2c6a0b834d75fe19, 0xc51fed4a0763928b, 0xdb7ec13950f4862a,
  0x6fe9b308c2d714a5, 0xa2847615fb9e3cd0]

def order (round i : Nat) : Fin 16 :=
  ⟨orders (Fin.ofNat 10 round) >>> (4 * (15 - i)) % 16, Nat.mod_lt _ (by decide)⟩

def initial (i : Fin 8) : BitVec 64 :=
  rootBits 2 64 i

/-- What the rounds work on: the eight words that are carried, and eight more. -/
abbrev Working := Fin (8 + 8) → BitVec 64

def mix (v : Working) (a b c d : Fin (8 + 8)) (x y : BitVec 64) : Working :=
  let v := Function.update v a (v a + v b + x)
  let v := Function.update v d (rotr 32 (v d ^^^ v a))
  let v := Function.update v c (v c + v d)
  let v := Function.update v b (rotr 24 (v b ^^^ v c))
  let v := Function.update v a (v a + v b + y)
  let v := Function.update v d (rotr 16 (v d ^^^ v a))
  let v := Function.update v c (v c + v d)
  Function.update v b (rotr 63 (v b ^^^ v c))

def round (m : Fin 16 → BitVec 64) (v : Working) (i : Nat) : Working :=
  let s := order i
  let v := mix v 0 4 8 12 (m (s 0)) (m (s 1))
  let v := mix v 1 5 9 13 (m (s 2)) (m (s 3))
  let v := mix v 2 6 10 14 (m (s 4)) (m (s 5))
  let v := mix v 3 7 11 15 (m (s 6)) (m (s 7))
  let v := mix v 0 5 10 15 (m (s 8)) (m (s 9))
  let v := mix v 1 6 11 12 (m (s 10)) (m (s 11))
  let v := mix v 2 7 8 13 (m (s 12)) (m (s 13))
  mix v 3 4 9 14 (m (s 14)) (m (s 15))

/-- Here `t` is the number of bytes up to the end of the block. -/
def compress (h : Fin 8 → BitVec 64) (m : Fin 16 → BitVec 64) (t : Nat) (last : Bool) :
    Fin 8 → BitVec 64 :=
  let v : Working := Fin.append h initial
  let v := Function.update v 12 (v 12 ^^^ BitVec.ofNat 64 t)
  let v := Function.update v 13 (v 13 ^^^ BitVec.ofNat 64 (t / 2 ^ 64))
  let v := if last then Function.update v 14 (v 14 ^^^ BitVec.allOnes 64) else v
  let v := (List.range 12).foldl (round m) v
  fun i => h i ^^^ v (i.castAdd 8) ^^^ v (i.natAdd 8)

/-- The words of the `i`-th block. Zeros follow the data. -/
def block (data : Bytes) (i : Nat) (j : Fin 16) : BitVec 64 :=
  ofLittle 64 (List.ofFn fun k : Fin 8 => data.getD (128 * i + 8 * j + k) 0)

/-- A key has a block to itself, and there is a block if there is nothing else. -/
def digest (key message : Bytes) : Bytes :=
  let data := (if key = [] then [] else key ++ List.replicate (128 - key.length) 0) ++ message
  let count := max 1 ((data.length + 127) / 128)
  let h := fun i : Fin 8 => if i.val = 0
    then initial i ^^^ 0x01010000#64 ^^^ BitVec.ofNat 64 key.length <<< 8 ^^^ 32#64
    else initial i
  let h := (List.range (count - 1)).foldl
    (fun h i => compress h (block data i) (128 * (i + 1)) false) h
  let h := compress h (block data (count - 1)) data.length true
  ((List.ofFn h).flatMap toLittle).take 32

end Blake2b

end Standard

end StreamDigest
