import Mathlib.Data.List.GetD
import Mathlib.Data.List.Induction
import StreamDigest.Standard.Bits

namespace StreamDigest

namespace Standard

variable {w : Nat}

theorem value_append_singleton (m : List Bool) (x : Bool) :
    value (m ++ [x]) = 2 * value m + x.toNat := by
  simp [value]

/-- The last bit of a string is the lowest. -/
theorem testBit_value (m : List Bool) (i : Nat) :
    (value m).testBit i = m.reverse.getD i false := by
  induction m using List.reverseRecOn generalizing i with
  | nil => simp [value]
  | append_singleton m x ih =>
    rw [value_append_singleton, List.reverse_append]
    cases i with
    | zero => cases x <;> simp
    | succ i =>
      have hdiv : (2 * value m + x.toNat) / 2 = value m := by
        have hx := Bool.toNat_lt x
        omega
      rw [Nat.testBit_succ, hdiv, ih]
      simp

theorem value_inj {m n : List Bool} (hl : m.length = n.length) (h : value m = value n) : m = n := by
  have hr : m.reverse = n.reverse := by
    apply List.ext_getElem (by simpa using hl)
    intro i hm hn
    have hi := congrArg (Nat.testBit · i) h
    simp only [testBit_value] at hi
    rwa [List.getD_eq_getElem _ _ hm, List.getD_eq_getElem _ _ hn] at hi
  exact List.reverse_inj.mp hr

@[simp]
theorem length_bits (x : BitVec w) : (bits x).length = w := by
  simp [bits]

theorem value_bits (x : BitVec w) : value (bits x) = x.toNat := by
  apply Nat.eq_of_testBit_eq
  intro i
  rw [testBit_value, BitVec.testBit_toNat]
  by_cases hi : i < w
  · have hlt : i < (bits x).reverse.length := by simpa using hi
    rw [List.getD_eq_getElem _ _ hlt, List.getElem_reverse]
    simp only [bits, List.getElem_ofFn, List.length_ofFn]
    change x.toNat.testBit (w - 1 - (w - 1 - i)) = x.toNat.testBit i
    congr 1
    omega
  · have hge : (bits x).reverse.length ≤ i := by simpa using hi
    rw [List.getD_eq_default _ _ hge, BitVec.getLsbD_of_ge _ _ (by omega)]

theorem value_foldl (m : List Bool) (n : Nat) :
    m.foldl (fun n x => 2 * n + x.toNat) n = 2 ^ m.length * n + value m := by
  induction m using List.reverseRecOn with
  | nil => simp [value]
  | append_singleton m x ih =>
    rw [List.foldl_append, ih, value_append_singleton, List.length_append]
    simp only [List.foldl_cons, List.foldl_nil, List.length_singleton, Nat.pow_succ]
    grind

theorem value_ofBytes (b : Bytes) : value (ofBytes b) = b.ofBigEndian := by
  have step (n : Nat) (x : UInt8) : (bits x.toBitVec).foldl (fun n x => 2 * n + x.toNat) n =
      256 * n + x.toNat := by
    rw [value_foldl, length_bits, value_bits]
    rfl
  rw [value, ofBytes, List.foldl_flatMap, Bytes.ofBigEndian]
  congr
  funext n x
  exact step n x

@[simp]
theorem length_ofBytes (b : Bytes) : (ofBytes b).length = 8 * b.length := by
  simp [ofBytes, List.length_flatMap, List.map_const', Nat.mul_comm]

theorem ofBytes_append (a b : Bytes) : ofBytes (a ++ b) = ofBytes a ++ ofBytes b := by
  simp [ofBytes]

theorem drop_ofBytes (n : Nat) (b : Bytes) : (ofBytes b).drop (8 * n) = ofBytes (b.drop n) := by
  by_cases h : n ≤ b.length
  · conv_lhs => rw [← List.take_append_drop n b, ofBytes_append]
    rw [List.drop_append_of_le_length (by simp [h]), List.drop_eq_nil_of_le (by simp [h])]
    simp
  · rw [List.drop_eq_nil_of_le (by rw [length_ofBytes]; omega), List.drop_eq_nil_of_le (by omega)]
    rfl

theorem take_ofBytes (n : Nat) (b : Bytes) : (ofBytes b).take (8 * n) = ofBytes (b.take n) := by
  by_cases h : n ≤ b.length
  · conv_lhs => rw [← List.take_append_drop n b, ofBytes_append]
    rw [List.take_append_of_le_length (by simp [h]),
      List.take_of_length_le (by rw [length_ofBytes, List.length_take]; omega)]
  · rw [List.take_of_length_le (by rw [length_ofBytes]; omega), List.take_of_length_le (by omega)]

/-- The words of a byte string are read from its bytes, the most significant first. -/
theorem wordAt_ofBytes {k : Nat} (hw : w = 8 * k) (b : Bytes) (j : Nat) :
    wordAt w (ofBytes b) j = BitVec.ofNat w (b.slice (j * k) k).ofBigEndian := by
  rw [wordAt, hw, Nat.mul_assoc, drop_ofBytes, take_ofBytes, value_ofBytes, Nat.mul_comm k j]
  rfl

theorem toBytes_ofBytes (b : Bytes) : toBytes (ofBytes b) = b := by
  apply List.ext_getElem (by simp [toBytes])
  intro i hl hr
  have hone : b.slice (i * 1) 1 = [b[i]] := by
    rw [Bytes.slice, Nat.mul_one, List.drop_eq_getElem_cons hr]
    rfl
  simp only [toBytes, List.getElem_ofFn]
  rw [wordAt_ofBytes (k := 1) rfl, hone]
  simp [Bytes.ofBigEndian]

theorem ofLittleEndian_littleEndian (size n : Nat) :
    (Bytes.littleEndian size n).ofLittleEndian = n % 256 ^ size := by
  induction size generalizing n with
  | zero => simp [Bytes.littleEndian, Bytes.ofLittleEndian, Nat.mod_one]
  | succ size ih =>
    have h := ih (n / 256)
    simp only [Bytes.littleEndian, Bytes.ofLittleEndian, List.foldr_cons] at h ⊢
    rw [h, Nat.pow_succ, Nat.mul_comm (256 ^ size), Nat.mod_mul]
    rfl

theorem ofBigEndian_reverse (b : Bytes) : Bytes.ofBigEndian b.reverse = b.ofLittleEndian := by
  simp only [Bytes.ofBigEndian, Bytes.ofLittleEndian, List.foldl_reverse, Nat.add_comm]

theorem ofBytes_bigEndian {k : Nat} (hw : w = 8 * k) (n : Nat) :
    ofBytes (Bytes.bigEndian k n) = bits (BitVec.ofNat w n) := by
  subst hw
  apply value_inj (by simp)
  rw [value_ofBytes, value_bits, Bytes.bigEndian, ofBigEndian_reverse, ofLittleEndian_littleEndian,
    BitVec.toNat_ofNat, Nat.pow_mul]

end Standard

end StreamDigest
