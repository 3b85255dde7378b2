import StreamDigest.Hash.Blake2b
import StreamDigest.Proofs.Standard.Roots
import StreamDigest.Proofs.Standard.Words
import StreamDigest.Standard.Blake2b

namespace StreamDigest

namespace Blake2b

open Word Exact

variable {n : Nat}

theorem wordsOf_set (v : Vector UInt64 n) {i : Nat} (hi : i < n) (x : UInt64) :
    wordsOf (v.set i x) = Function.update (wordsOf v) ⟨i, hi⟩ (bits x) := by
  funext j
  by_cases h : j = ⟨i, hi⟩
  · subst h
    simp [wordsOf]
  · have hne : i ≠ j.val := fun e => h (Fin.ext e.symm)
    simp [wordsOf, Function.update_of_ne h, Vector.getElem_set_ne _ _ hne]

theorem bits_getElem (v : Vector UInt64 n) {i : Nat} (hi : i < n) : bits v[i] = wordsOf v ⟨i, hi⟩ :=
  rfl

theorem wordsOf_initial : wordsOf initial = Standard.Blake2b.initial := by
  funext i
  rw [wordsOf, initial, Fin.getElem_fin, Vector.getElem_ofFn]
  exact Standard.squareRoots_wide (i.castAdd 8)

theorem wordsOf_parameterized {keyLen : Nat} (h : keyLen ≤ maxKeyLen) :
    wordsOf (parameterized keyLen) = fun i : Fin 8 => if i.val = 0
      then Standard.Blake2b.initial i ^^^ 0x01010000#64 ^^^ BitVec.ofNat 64 keyLen <<< 8 ^^^ 32#64
      else Standard.Blake2b.initial i := by
  have hkey : ∀ k : Fin 65, bits (0x01010000 + 256 * k.val.toUInt64 + outputLen.toUInt64) =
      0x01010000#64 ^^^ BitVec.ofNat 64 k <<< 8 ^^^ 32#64 := by
    decide +kernel
  have hparameter := hkey ⟨keyLen, Nat.lt_succ_of_le h⟩
  have hzip (v u : Vector UInt64 8) (i : Fin 8) :
      wordsOf (v.zipWith (· ^^^ ·) u) i = wordsOf v i ^^^ wordsOf u i := by
    simp [wordsOf]
  have hzero (x : BitVec 64) (i : Fin 8) (hi : i.val ≠ 0) : ![x, 0, 0, 0, 0, 0, 0, 0] i = 0 := by
    fin_cases i <;> first | rfl | exact absurd rfl hi
  funext i
  rw [parameterized, hzip, wordsOf_initial, wordsOf_eight]
  by_cases hi : i.val = 0
  · obtain rfl : i = 0 := Fin.ext hi
    rw [if_pos hi, BitVec.xor_assoc, BitVec.xor_assoc, ← BitVec.xor_assoc 0x01010000#64,
      ← hparameter]
    rfl
  · rw [if_neg hi]
    exact (congrArg _ (hzero _ i hi)).trans BitVec.xor_zero

theorem wordsOf_mix (v : Vector UInt64 16) (lane : Fin 16 × Fin 16 × Fin 16 × Fin 16)
    (x y : UInt64) : wordsOf (mix v lane x y) = Standard.Blake2b.mix (wordsOf v)
      lane.1 lane.2.1 lane.2.2.1 lane.2.2.2 (bits x) (bits y) := by
  obtain ⟨a, b, c, d⟩ := lane
  have h16 (x : UInt64) := bits_rotateRight x (show 0 < 16 by decide) (by decide)
  have h24 (x : UInt64) := bits_rotateRight x (show 0 < 24 by decide) (by decide)
  have h32 (x : UInt64) := bits_rotateRight x (show 0 < 32 by decide) (by decide)
  have h63 (x : UInt64) := bits_rotateRight x (show 0 < 63 by decide) (by decide)
  simp only [mix, Standard.Blake2b.mix, wordsOf_set, bits_add, bits_xor, h16, h24, h32, h63,
    Fin.getElem_fin, bits_getElem]

theorem orders_eq : orders ++ orders.take 2 =
    (List.range 12).map fun i => Vector.ofFn fun j : Fin 16 => Standard.Blake2b.order i j := by
  decide +kernel

theorem foldl_eight {α : Type} (f : α → Fin 8 → α) (x : α) :
    Fin.foldl 8 f x = f (f (f (f (f (f (f (f x 0) 1) 2) 3) 4) 5) 6) 7 := by
  simp only [Fin.foldl_succ, Fin.foldl_zero]
  rfl

theorem wordsOf_round (m v : Vector UInt64 16) (i : Nat) :
    wordsOf (round m v (Vector.ofFn fun j : Fin 16 => Standard.Blake2b.order i j)) =
      Standard.Blake2b.round (wordsOf m) (wordsOf v) i := by
  simp only [round, Standard.Blake2b.round, foldl_eight, wordsOf_mix, Fin.getElem_fin,
    bits_getElem, Vector.getElem_ofFn]
  generalize Standard.Blake2b.mix = mix
  rfl

theorem wordsOf_append {m : Nat} (v : Vector UInt64 m) (u : Vector UInt64 n) :
    wordsOf (v ++ u) = Fin.append (wordsOf v) (wordsOf u) := by
  funext i
  refine Fin.addCases (fun i => ?_) (fun i => ?_) i
  · rw [Fin.append_left]
    simp [wordsOf]
  · rw [Fin.append_right]
    simp [wordsOf]

theorem wordsOf_set_xor (v : Vector UInt64 n) {i : Nat} (hi : i < n) (x : UInt64) :
    wordsOf (v.set i (v[i] ^^^ x)) =
      Function.update (wordsOf v) ⟨i, hi⟩ (wordsOf v ⟨i, hi⟩ ^^^ bits x) := by
  rw [wordsOf_set, bits_xor, bits_getElem]

theorem wordsOf_closing (closing : Bool) (v : Vector UInt64 n) {i : Nat} (hi : i < n) :
    wordsOf (v.set i (if closing then ~~~v[i] else v[i])) =
      if closing then Function.update (wordsOf v) ⟨i, hi⟩ (wordsOf v ⟨i, hi⟩ ^^^ BitVec.allOnes 64)
      else wordsOf v := by
  rw [wordsOf_set]
  cases closing with
  | true => simp only [↓reduceIte, bits_complement, bits_getElem, BitVec.xor_allOnes]
  | false => exact Function.update_eq_self _ _

theorem wordsOf_rounds (m v : Vector UInt64 16) : wordsOf ((orders ++ orders.take 2).foldl (round m) v) =
    (List.range 12).foldl (Standard.Blake2b.round (wordsOf m)) (wordsOf v) := by
  rw [orders_eq]
  induction List.range 12 generalizing v with
  | nil => rfl
  | cons i rest ih => rw [List.map_cons, List.foldl_cons, List.foldl_cons, ih, wordsOf_round]

theorem wordsOf_compress (closing : Bool) (chain : Vector UInt64 8) (count : Nat) (block : Bytes) :
    wordsOf (compress closing chain count block) = Standard.Blake2b.compress (wordsOf chain)
      (wordsOf (readLittle 16 block : Vector UInt64 16)) count closing := by
  have hjoin (v : Vector UInt64 16) :
      wordsOf (Vector.ofFn fun i : Fin 8 => chain[i] ^^^ v[i.val] ^^^ v[i.val + 8]) =
        fun i => wordsOf chain i ^^^ wordsOf v (i.castAdd 8) ^^^ wordsOf v (i.natAdd 8) := by
    funext i
    simp [wordsOf]
  simp only [compress, Standard.Blake2b.compress, hjoin, wordsOf_rounds]
  rw [wordsOf_closing, wordsOf_set_xor, wordsOf_set_xor, wordsOf_append, wordsOf_initial]
  rfl

theorem getD_pad (b : Bytes) (n : Nat) : (pad b).getD n 0 = b.getD n 0 := by
  rw [pad]
  by_cases h : n < b.length
  · exact List.getD_append _ _ _ _ h
  · rw [List.getD_append_right _ _ _ _ (by omega), List.getD_eq_default b _ (by omega)]
    simp [Bytes.zeros, List.getD_eq_getElem?_getD, List.getElem?_replicate]
    split <;> rfl

theorem wordsOf_pad (data : Bytes) (i : Nat) :
    wordsOf (readLittle 16 (pad ((data.drop (128 * i)).take 128)) : Vector UInt64 16) =
      Standard.Blake2b.block data i := by
  have hlen : 128 ≤ (pad ((data.drop (128 * i)).take 128)).length := by
    simp only [pad, List.length_append, Bytes.length_zeros, blockLen]
    omega
  have hget (n : Nat) (hn : n < 128) :
      (pad ((data.drop (128 * i)).take 128)).getD n 0 = data.getD (128 * i + n) 0 := by
    rw [getD_pad]
    simp [List.getD_eq_getElem?_getD, hn]
  generalize pad ((data.drop (128 * i)).take 128) = padded at hlen hget
  funext j
  have hslice : padded.slice (j * 8) 8 =
      List.ofFn fun k : Fin 8 => data.getD (128 * i + 8 * j + k) 0 := by
    apply List.ext_getElem
    · simp only [Bytes.slice, List.length_take, List.length_drop, List.length_ofFn]
      omega
    · intro k hk hk8
      have hk8 : k < 8 := by simpa using hk8
      simp only [Bytes.slice, List.getElem_take, List.getElem_drop, List.getElem_ofFn]
      rw [Nat.add_assoc, Nat.mul_comm 8, ← hget _ (by omega), List.getD_eq_getElem]
  have hword : wordsOf (readLittle 16 padded : Vector UInt64 16) j =
      BitVec.ofNat 64 (padded.slice (j * 8) 8).ofLittleEndian := by
    simp only [wordsOf, readLittle, Fin.getElem_fin, Vector.getElem_ofFn, bits_ofNat]
    rfl
  rw [hword, hslice, Standard.Blake2b.block, Standard.ofLittle, Standard.value_ofBytes,
    Standard.ofBigEndian_reverse]

theorem fold_append (chain : Vector UInt64 8) (count : Nat) (xs ys : List Bytes) :
    fold chain count (xs ++ ys) =
      fold (fold chain count xs) (count + 128 * xs.length) ys := by
  induction xs generalizing chain count with
  | nil => simp [fold]
  | cons x xs ih =>
    rw [List.cons_append, fold, ih, fold, List.length_cons, blockLen]
    congr 1
    omega

theorem length_cut (size n : Nat) (b : Bytes) : (b.cut size n).length = n := by
  induction n generalizing b with
  | zero => rfl
  | succ n ih => rw [Bytes.cut, List.length_cons, ih]

theorem wordsOf_fold (chain : Vector UInt64 8) (data : Bytes) {n : Nat}
    (hn : 128 * n ≤ data.length) : wordsOf (fold chain 0 (data.cut 128 n)) =
      (List.range n).foldl (fun h i => Standard.Blake2b.compress h
        (Standard.Blake2b.block data i) (128 * (i + 1)) false) (wordsOf chain) := by
  induction n with
  | zero => rfl
  | succ n ih =>
    have hpad : pad ((data.drop (128 * n)).take 128) = (data.drop (128 * n)).take 128 := by
      have hlen : ((data.drop (128 * n)).take 128).length = 128 := by
        simp only [List.length_take, List.length_drop]
        omega
      rw [pad, hlen]
      exact List.append_nil _
    have hcut : Bytes.cut 128 1 (data.drop (n * 128)) = [pad ((data.drop (128 * n)).take 128)] := by
      rw [hpad, Nat.mul_comm]
      rfl
    rw [Bytes.cut_add, fold_append, List.range_succ, List.foldl_append, ← ih (by omega), hcut,
      length_cut]
    simp only [fold, wordsOf_compress, wordsOf_pad, List.foldl_cons, List.foldl_nil, Nat.zero_add]
    rfl

theorem writeLittle_eq (v : Vector UInt64 8) :
    writeLittle v = (List.ofFn (wordsOf v)).flatMap Standard.toLittle := by
  have hword (x : UInt64) : Standard.toLittle (bits x) = Bytes.littleEndian 8 x.toNat := by
    have hbits : Standard.bits (bits x) = Standard.ofBytes (Bytes.bigEndian 8 x.toNat) := by
      rw [Standard.ofBytes_bigEndian rfl]
      simp [bits]
    rw [Standard.toLittle, hbits, Standard.toBytes_ofBytes, Bytes.bigEndian, List.reverse_reverse]
  rw [ofFn_wordsOf, List.flatMap_map]
  simp only [hword]
  rfl

theorem digest_eq {key : Bytes} (h : key.length ≤ maxKeyLen) (message : Bytes) :
    digest key message = Standard.Blake2b.digest key message := by
  have hblocks (n : Nat) : max 1 ((n + 127) / 128) - 1 = (n - 1) / 128 := by omega
  unfold Standard.Blake2b.digest digest
  simp only [hblocks, blockLen]
  have hkey : keyBlock key = if key = [] then [] else key ++ List.replicate (128 - key.length) 0 :=
    rfl
  rw [hkey]
  generalize (if key = [] then [] else key ++ List.replicate (128 - key.length) 0) ++ message = data
  have hle := Nat.div_mul_le_self (data.length - 1) 128
  have hrest : data.drop ((data.length - 1) / 128 * 128) =
      (data.drop (128 * ((data.length - 1) / 128))).take 128 := by
    rw [List.take_of_length_le (by simp only [List.length_drop]; omega), Nat.mul_comm]
  rw [close, hrest, writeLittle_eq, wordsOf_compress, wordsOf_pad,
    wordsOf_fold _ _ (by omega), wordsOf_parameterized h]
  rfl

end Blake2b

end StreamDigest
