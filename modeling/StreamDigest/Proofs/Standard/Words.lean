import Mathlib.Data.Fintype.Basic
import Mathlib.Tactic.FinCases
import StreamDigest.Proofs.Standard.Bits
import StreamDigest.Standard.SecureHash
import StreamDigest.Word

namespace StreamDigest

section Shifts

variable {w n : Nat}

theorem toNat_ofNat_mod (hn : n < w) : (BitVec.ofNat w n % BitVec.ofNat w w).toNat = n := by
  have hw : w < 2 ^ w := Nat.lt_two_pow_self
  rw [BitVec.toNat_umod, BitVec.toNat_ofNat, BitVec.toNat_ofNat, Nat.mod_eq_of_lt hw,
    Nat.mod_eq_of_lt (hn.trans hw), Nat.mod_eq_of_lt hn]

theorem shiftRight_mod (x : BitVec w) (hn : n < w) :
    x >>> (BitVec.ofNat w n % BitVec.ofNat w w) = x >>> n := by
  rw [BitVec.ushiftRight_eq', toNat_ofNat_mod hn]

theorem shiftLeft_mod (x : BitVec w) (hn : n < w) :
    x <<< (BitVec.ofNat w n % BitVec.ofNat w w) = x <<< n := by
  rw [BitVec.shiftLeft_eq', toNat_ofNat_mod hn]

end Shifts

/-- Machine words that are words of `w` bits under another name. -/
class Word.Exact (ω : Type) [Word ω] (w : outParam Nat) where
  bits : ω → BitVec w
  width : w = 8 * Word.size ω
  toNat_bits (x : ω) : (bits x).toNat = Word.toNat x
  bits_ofNat (n : Nat) : bits (Word.ofNat n) = BitVec.ofNat w n
  bits_add (x y : ω) : bits (x + y) = bits x + bits y
  bits_and (x y : ω) : bits (x &&& y) = bits x &&& bits y
  bits_xor (x y : ω) : bits (x ^^^ y) = bits x ^^^ bits y
  bits_complement (x : ω) : bits (~~~x) = ~~~bits x
  bits_shiftRight (x : ω) {n : Nat} (hn : n < w) : bits (Word.shiftRight x n) = bits x >>> n
  bits_rotateRight (x : ω) {n : Nat} (hn : 0 < n) (hw : n < w) :
    bits (Word.rotateRight x n) = Standard.rotr n (bits x)

instance : Word.Exact UInt32 32 where
  bits := UInt32.toBitVec
  width := rfl
  toNat_bits _ := rfl
  bits_ofNat _ := rfl
  bits_add _ _ := rfl
  bits_and _ _ := rfl
  bits_xor _ _ := rfl
  bits_complement _ := rfl
  bits_shiftRight x _ hn := shiftRight_mod x.toBitVec hn
  bits_rotateRight x _ hn hw := congrArg₂ (· ||| ·) (shiftRight_mod x.toBitVec hw)
    (shiftLeft_mod x.toBitVec (Nat.sub_lt (Nat.zero_lt_of_lt hw) hn))

instance : Word.Exact UInt64 64 where
  bits := UInt64.toBitVec
  width := rfl
  toNat_bits _ := rfl
  bits_ofNat _ := rfl
  bits_add _ _ := rfl
  bits_and _ _ := rfl
  bits_xor _ _ := rfl
  bits_complement _ := rfl
  bits_shiftRight x _ hn := shiftRight_mod x.toBitVec hn
  bits_rotateRight x _ hn hw := congrArg₂ (· ||| ·) (shiftRight_mod x.toBitVec hw)
    (shiftLeft_mod x.toBitVec (Nat.sub_lt (Nat.zero_lt_of_lt hw) hn))

namespace Word

open Exact

attribute [simp] bits_add bits_and bits_xor bits_complement

variable {ω : Type} {w n : Nat} [Word ω] [Exact ω w]

def wordsOf (v : Vector ω n) : Fin n → BitVec w :=
  fun i => bits v[i]

theorem ofFn_wordsOf (v : Vector ω n) : List.ofFn (wordsOf v) = v.toList.map bits := by
  apply List.ext_getElem (by simp)
  simp [wordsOf]

theorem bits_rotateLeft (x : ω) {n : Nat} (hn : 0 < n) (hw : n < w) :
    bits (rotateLeft x n) = Standard.rotl n (bits x) := by
  rw [rotateLeft, ← width (ω := ω), bits_rotateRight x (by omega) (by omega), Standard.rotr,
    Standard.rotl, Nat.sub_sub_self hw.le, BitVec.or_comm]

theorem bits_choose (x y z : ω) : bits (choose x y z) = Standard.ch (bits x) (bits y) (bits z) := by
  simp [choose, Standard.ch]

theorem bits_majority (x y z : ω) :
    bits (majority x y z) = Standard.maj (bits x) (bits y) (bits z) := by
  simp [majority, Standard.maj]

theorem bits_parity (x y z : ω) :
    bits (parity x y z) = Standard.parity (bits x) (bits y) (bits z) := by
  simp [parity, Standard.parity]

theorem wordsOf_five (a b c d e : ω) :
    wordsOf #v[a, b, c, d, e] = ![bits a, bits b, bits c, bits d, bits e] := by
  funext i
  fin_cases i <;> rfl

theorem wordsOf_eight (a b c d e f g h : ω) : wordsOf #v[a, b, c, d, e, f, g, h] =
    ![bits a, bits b, bits c, bits d, bits e, bits f, bits g, bits h] := by
  funext i
  fin_cases i <;> rfl

theorem wordsOf_zipWith_add (v u : Vector ω n) :
    wordsOf (v.zipWith (· + ·) u) = fun i => wordsOf v i + wordsOf u i := by
  funext i
  simp [wordsOf]

theorem wordsOf_readBig (b : Bytes) :
    wordsOf (readBig (ω := ω) n b) = fun i : Fin n => Standard.wordAt w (Standard.ofBytes b) i := by
  funext i
  rw [Standard.wordAt_ofBytes (width (ω := ω))]
  simp [wordsOf, readBig, bits_ofNat]

theorem ofBytes_writeBig (v : Vector ω n) :
    Standard.ofBytes (writeBig v) = (List.ofFn (wordsOf v)).flatMap Standard.bits := by
  have hbits (x : ω) : Standard.ofBytes (Bytes.bigEndian (size ω) (toNat x)) =
      Standard.bits (bits x) := by
    rw [Standard.ofBytes_bigEndian (width (ω := ω)), ← toNat_bits, BitVec.ofNat_toNat,
      BitVec.setWidth_eq]
  rw [ofFn_wordsOf]
  simp only [writeBig, Standard.ofBytes, List.flatMap_assoc, List.flatMap_map] at hbits ⊢
  simp only [hbits]

end Word

end StreamDigest
