import StreamDigest.Hash.Sha1
import StreamDigest.Hash.Sha2
import StreamDigest.Proofs.Standard.Roots
import StreamDigest.Proofs.Standard.Words

namespace StreamDigest

namespace Standard

variable {w : Nat}

/-- Of all the numbers of zeros that would do, it is the least. -/
theorem zeroCount_eq_mod {l k : Nat} (h : (l + 1 + k) % (16 * w) = 14 * w) :
    zeroCount w l = k % (16 * w) := by
  have hsplit := Nat.div_add_mod (l + 1 + k) (16 * w)
  rw [h] at hsplit
  generalize (l + 1 + k) / (16 * w) = q at hsplit
  have hk : ((14 * w : Nat) - (l + 1 : Nat) : Int) = k - (16 * w : Nat) * q := by
    have hint := congrArg (Nat.cast (R := Int)) hsplit
    push_cast at hint ⊢
    omega
  rw [zeroCount, hk, Int.sub_mul_emod_self_left, ← Int.natCast_emod, Int.toNat_natCast]

theorem ofBytes_zeros (n : Nat) : ofBytes (Bytes.zeros n) = List.replicate (8 * n) false := by
  induction n with
  | zero => rfl
  | succ n ih =>
    have h : ofBytes [0] = List.replicate 8 false := by decide
    rw [Bytes.zeros, List.replicate_succ, ← List.singleton_append, ofBytes_append, h,
      Nat.mul_add, Nat.add_comm, List.replicate_add]
    exact congrArg _ ih

theorem padded_ofBytes {χ : Type} {h : MerkleDamgard χ} (hw : w = 32 ∨ w = 64)
    (hblock : h.blockLen = 2 * w) (hlength : h.lengthLen = w / 4) (message : Bytes) :
    padded w (ofBytes message) = ofBytes (message ++ h.padding message.length) := by
  have hfirst (z : Nat) : ofBytes (0x80 :: Bytes.zeros z) =
      true :: List.replicate (7 + 8 * z) false := by
    have hone : ofBytes [0x80] = true :: List.replicate 7 false := by decide
    rw [← List.singleton_append, ofBytes_append, hone, ofBytes_zeros, List.replicate_add]
    rfl
  have hzeros : zeroCount w (8 * message.length) = 7 + 8 * ((h.blockLen -
      (message.length + 1 + h.lengthLen) % h.blockLen) % h.blockLen) := by
    rw [hblock, hlength]
    rcases hw with rfl | rfl
    · rw [zeroCount_eq_mod (k := 7 + 8 * ((64 - (message.length + 1 + 8) % 64) % 64)) (by omega)]
      omega
    · rw [zeroCount_eq_mod (k := 7 + 8 * ((128 - (message.length + 1 + 16) % 128) % 128)) (by omega)]
      omega
  have hlast : ofBytes (Bytes.bigEndian h.lengthLen (8 * message.length)) =
      bits (BitVec.ofNat (2 * w) (8 * message.length)) :=
    ofBytes_bigEndian (by omega) _
  rw [padded, length_ofBytes, hzeros, ofBytes_append, MerkleDamgard.padding, ofBytes_append,
    hfirst, hlast, List.append_assoc]

end Standard

namespace Word

open Exact

variable {ω : Type} {w n t : Nat} [Word ω] [Exact ω w] {f : Nat → BitVec w} {x : Window ω}

/-- The words of a window are those that a schedule draws from round `t` on. -/
def Shows (x : Window ω) (f : Nat → BitVec w) (t : Nat) : Prop :=
  ∀ i (hi : i < 16), bits x[i] = f (t + i)

theorem Shows.oldest (h : Shows x f t) : bits x.oldest = f t :=
  h 0 (by decide)

theorem Shows.advance (h : Shows x f t) {y : ω} (hy : bits y = f (t + 16)) :
    Shows (x.advance y) f (t + 1) := by
  intro i hi
  by_cases hlast : i = 15
  · subst hlast
    simpa [Window.advance] using hy
  · have htail : (x.tail)[i] = x[i + 1] := by
      simp only [Vector.tail, Vector.getElem_cast, Vector.getElem_extract, Nat.add_comm]
    simp only [Window.advance]
    rw [Vector.getElem_push_lt (by omega), htail, h (i + 1) (by omega)]
    congr 1
    omega

theorem shows_readBig (b : Bytes) (hf : ∀ i : Fin 16, f i = Standard.wordAt w (Standard.ofBytes b) i) :
    Shows (readBig (ω := ω) 16 b) f 0 := by
  intro i hi
  rw [Nat.zero_add, hf ⟨i, hi⟩]
  exact congrFun (wordsOf_readBig b) ⟨i, hi⟩

theorem output_writeBig {outputBits : Nat} (h : n * w ≤ outputBits) (v : Vector ω n) :
    Standard.ofBytes (writeBig v) =
      ((List.ofFn (wordsOf v)).flatMap Standard.bits).take outputBits := by
  have hl : (Standard.ofBytes (writeBig v)).length = n * w := by
    rw [Standard.length_ofBytes, length_writeBig, width (ω := ω), Nat.mul_left_comm]
  rw [← ofBytes_writeBig, List.take_of_length_le (by omega)]

/-- Rounds that agree one by one agree on the whole. -/
theorem wordsOf_foldl {ρ : Type} {round : Vector ω n × Window ω → ρ → Vector ω n × Window ω}
    {step : Nat → BitVec w → (Fin n → BitVec w) → Fin n → BitVec w} {rs : List ρ}
    (hround : ∀ t (ht : t < rs.length) v x, Shows x f t →
      wordsOf (round (v, x) rs[t]).1 = step t (f t) (wordsOf v) ∧
        Shows (round (v, x) rs[t]).2 f (t + 1))
    (v : Vector ω n) {x : Window ω} (hx : Shows x f 0) :
    wordsOf (rs.foldl round (v, x)).1 =
        (List.range rs.length).foldl (fun u t => step t (f t) u) (wordsOf v) ∧
      Shows (rs.foldl round (v, x)).2 f rs.length := by
  induction rs using List.reverseRecOn with
  | nil => exact ⟨rfl, hx⟩
  | append_singleton rs r ih =>
    have hbefore (t : Nat) (ht : t < rs.length) (v : Vector ω n) (x : Window ω)
        (hx : Shows x f t) : wordsOf (round (v, x) rs[t]).1 = step t (f t) (wordsOf v) ∧
          Shows (round (v, x) rs[t]).2 f (t + 1) := by
      have h := hround t (by simp; omega) v x hx
      rwa [List.getElem_append_left ht] at h
    obtain ⟨hv, hs⟩ := ih hbefore
    have hlast := hround rs.length (by simp) (rs.foldl round (v, x)).1 _ hs
    rw [List.getElem_append_right le_rfl] at hlast
    simp only [List.foldl_append, List.foldl_cons, List.foldl_nil, List.length_append,
      List.length_singleton, List.range_succ, ← hv]
    simpa using hlast

end Word

namespace MerkleDamgard

open Word

variable {ω : Type} {w n : Nat} [Word ω] [Exact ω w]

/-- A hash on bytes that does on each block what a standard hash does on its words. -/
structure Follows (h : MerkleDamgard (Vector ω n)) (s : Standard.SecureHash w n) : Prop where
  wordLen : w = 32 ∨ w = 64
  blockLen : h.blockLen = 2 * w
  lengthLen : h.lengthLen = w / 4
  initial : wordsOf h.initial = s.initial
  compress : ∀ chain block, wordsOf (h.compress chain block) =
    s.compress (wordsOf chain) fun t => Standard.wordAt w (Standard.ofBytes block) t
  output : ∀ chain, Standard.ofBytes (h.output chain) =
    ((List.ofFn (wordsOf chain)).flatMap Standard.bits).take s.outputBits

namespace Follows

variable {h : MerkleDamgard (Vector ω n)} {s : Standard.SecureHash w n}

theorem chain (hf : h.Follows s) (padded : Bytes) (count : Nat) :
    wordsOf ((padded.cut h.blockLen count).foldl h.compress h.initial) =
      s.chain (Standard.ofBytes padded) count := by
  obtain ⟨k, hk⟩ : ∃ k, w = 8 * k := ⟨w / 8, by have := hf.wordLen; omega⟩
  induction count with
  | zero => exact hf.initial
  | succ count ih =>
    rw [Bytes.cut_add, List.foldl_append, Standard.SecureHash.chain, ← ih]
    simp only [Bytes.cut, List.foldl_cons, List.foldl_nil, hf.compress]
    congr
    funext t
    rw [Standard.wordAt_ofBytes hk, Standard.wordAt_ofBytes hk, hf.blockLen, hk]
    have hlast : k ≤ 2 * (8 * k) - t * k := by
      have := Nat.mul_le_mul_right k (Nat.succ_le_of_lt t.isLt)
      grind
    simp only [Bytes.slice, List.drop_take, List.take_take, List.drop_drop, Nat.min_eq_left hlast]
    congr 4
    grind

theorem digest_eq (hf : h.Follows s) (message : Bytes) : h.digest message = s.digest message := by
  have hcount : (Standard.ofBytes (message ++ h.padding message.length)).length / (16 * w) =
      (message ++ h.padding message.length).length / h.blockLen := by
    rw [Standard.length_ofBytes, hf.blockLen, show 16 * w = 8 * (2 * w) by omega]
    exact Nat.mul_div_mul_left _ _ (by decide)
  rw [Standard.SecureHash.digest, Standard.padded_ofBytes hf.wordLen hf.blockLen hf.lengthLen]
  simp only [hcount, ← hf.chain, ← hf.output, Standard.toBytes_ofBytes]
  rfl

end Follows

end MerkleDamgard

namespace Sha1

open Word Exact

theorem getElem_rounds {t : Nat} (ht : t < rounds.length) :
    (∀ x y z : UInt32, bits (rounds[t].1 x y z) =
      Standard.sha1Function t (bits x) (bits y) (bits z)) ∧
      bits rounds[t].2 = Standard.sha1Constant t := by
  have hl : rounds.length = 80 := rfl
  simp only [rounds, List.getElem_append, List.length_append, List.length_replicate,
    List.getElem_replicate, Standard.sha1Function, Standard.sha1Constant]
  by_cases h1 : t < 20
  · simp [h1, show t < 40 by omega, show t < 60 by omega, bits_choose]
    rfl
  by_cases h2 : t < 40
  · simp [h1, h2, show t < 60 by omega, bits_parity]
    rfl
  by_cases h3 : t < 60
  · simp [h1, h2, h3, bits_majority]
    rfl
  · simp [h1, h2, h3, bits_parity]
    rfl

theorem schedule_add (m : Fin 16 → BitVec 32) (t : Nat) :
    Standard.sha1Schedule m (t + 16) = Standard.rotl 1 (Standard.sha1Schedule m (t + 13) ^^^
      Standard.sha1Schedule m (t + 8) ^^^ Standard.sha1Schedule m (t + 2) ^^^
      Standard.sha1Schedule m t) := by
  rw [Standard.sha1Schedule, dif_neg (by omega)]
  rfl

theorem round_eq {v : Vector UInt32 5} {x : Window UInt32} {m : Fin 16 → BitVec 32} {t : Nat}
    (ht : t < rounds.length) (hx : Shows x (Standard.sha1Schedule m) t) :
    wordsOf (round (v, x) rounds[t]).1 =
        Standard.sha1.round t (Standard.sha1Schedule m t) (wordsOf v) ∧
      Shows (round (v, x) rounds[t]).2 (Standard.sha1Schedule m) (t + 1) := by
  obtain ⟨hf, hk⟩ := getElem_rounds ht
  constructor
  · simp only [round, Standard.sha1, wordsOf_five, bits_add, hf, hk, hx.oldest,
      bits_rotateLeft _ (show 0 < 5 by decide) (show 5 < 32 by decide),
      bits_rotateLeft _ (show 0 < 30 by decide) (show 30 < 32 by decide)]
    rfl
  · refine hx.advance ?_
    rw [schedule_add, bits_rotateLeft _ (by decide) (by decide), bits_xor, bits_xor, bits_xor,
      hx.oldest, hx, hx, hx]

theorem compress_eq (chain : Vector UInt32 5) (block : Bytes) :
    wordsOf (compress chain block) = Standard.sha1.compress (wordsOf chain) fun t =>
      Standard.wordAt 32 (Standard.ofBytes block) t := by
  have hx : Shows (readBig 16 block : Window UInt32)
      (Standard.sha1Schedule fun t => Standard.wordAt 32 (Standard.ofBytes block) t) 0 :=
    shows_readBig block fun i => by rw [Standard.sha1Schedule, dif_pos i.isLt]
  have hr := wordsOf_foldl (fun t ht v x hx => round_eq ht hx) chain hx
  rw [compress, wordsOf_zipWith_add, hr.1]
  rfl

theorem follows : sha1.Follows Standard.sha1 where
  wordLen := .inl rfl
  blockLen := rfl
  lengthLen := rfl
  initial := wordsOf_five _ _ _ _ _
  compress := compress_eq
  output := output_writeBig (by decide)

end Sha1

namespace Sha2

open Word Exact

variable {ω : Type} {w : Nat} [Word ω] [Exact ω w] {p : Sha2 ω} {s : Standard.Sigmas w}

/-- A member of the family that has the standard functions, and as its constants the cube roots of
the primes. -/
structure Follows (p : Sha2 ω) (s : Standard.Sigmas w) : Prop where
  register0 : ∀ x : ω, bits (register p.register0 x) = s.upper0 (bits x)
  register1 : ∀ x : ω, bits (register p.register1 x) = s.upper1 (bits x)
  schedule0 : ∀ x : ω, bits (schedule p.schedule0 x) = s.lower0 (bits x)
  schedule1 : ∀ x : ω, bits (schedule p.schedule1 x) = s.lower1 (bits x)
  constants : p.constants.map bits =
    (List.range p.constants.length).map (Standard.rootBits 3 w)

theorem bits_register {k l m : Nat} (x : ω) (hk : 0 < k ∧ k < w) (hl : 0 < l ∧ l < w)
    (hm : 0 < m ∧ m < w) : bits (register (k, l, m) x) =
      Standard.rotr k (bits x) ^^^ Standard.rotr l (bits x) ^^^ Standard.rotr m (bits x) := by
  rw [register, bits_xor, bits_xor, bits_rotateRight x hk.1 hk.2, bits_rotateRight x hl.1 hl.2,
    bits_rotateRight x hm.1 hm.2]

theorem bits_schedule {k l m : Nat} (x : ω) (hk : 0 < k ∧ k < w) (hl : 0 < l ∧ l < w)
    (hm : m < w) : bits (schedule (k, l, m) x) =
      Standard.rotr k (bits x) ^^^ Standard.rotr l (bits x) ^^^ bits x >>> m := by
  rw [schedule, bits_xor, bits_xor, bits_rotateRight x hk.1 hk.2, bits_rotateRight x hl.1 hl.2,
    bits_shiftRight x hm]

theorem narrow_follows : narrow.Follows Standard.Sigmas.narrow where
  register0 x := bits_register x (by decide) (by decide) (by decide)
  register1 x := bits_register x (by decide) (by decide) (by decide)
  schedule0 x := bits_schedule x (by decide) (by decide) (by decide)
  schedule1 x := bits_schedule x (by decide) (by decide) (by decide)
  constants := by
    rw [narrow, List.map_map]
    exact Standard.cubeRoots_narrow

theorem wide_follows : wide.Follows Standard.Sigmas.wide where
  register0 x := bits_register x (by decide) (by decide) (by decide)
  register1 x := bits_register x (by decide) (by decide) (by decide)
  schedule0 x := bits_schedule x (by decide) (by decide) (by decide)
  schedule1 x := bits_schedule x (by decide) (by decide) (by decide)
  constants := Standard.cubeRoots_wide

theorem schedule_add (s : Standard.Sigmas w) (m : Fin 16 → BitVec w) (t : Nat) :
    s.schedule m (t + 16) = s.lower1 (s.schedule m (t + 14)) + s.schedule m (t + 9) +
      s.lower0 (s.schedule m (t + 1)) + s.schedule m t := by
  rw [Standard.Sigmas.schedule, dif_neg (by omega)]
  rfl

namespace Follows

theorem constant (hp : p.Follows s) {t : Nat} (ht : t < p.constants.length) :
    bits p.constants[t] = Standard.rootBits 3 w t := by
  have h := List.getElem_of_eq hp.constants (show t < (p.constants.map bits).length by simpa)
  simpa using h

theorem round_eq (hp : p.Follows s) {v : Vector ω 8} {x : Window ω} {m : Fin 16 → BitVec w}
    {t : Nat} (ht : t < p.constants.length) (hx : Shows x (s.schedule m) t) :
    wordsOf (p.round (v, x) p.constants[t]).1 = s.round t (s.schedule m t) (wordsOf v) ∧
      Shows (p.round (v, x) p.constants[t]).2 (s.schedule m) (t + 1) := by
  constructor
  · simp only [Sha2.round, wordsOf_eight, bits_add, bits_choose, bits_majority, hp.register0,
      hp.register1, hp.constant, hx.oldest]
    rfl
  · refine hx.advance ?_
    rw [schedule_add, bits_add, bits_add, bits_add, hp.schedule0, hp.schedule1, hx.oldest, hx,
      hx, hx]

theorem compress_eq (hp : p.Follows s) (chain : Vector ω 8) (block : Bytes) :
    wordsOf (p.compress chain block) = fun i => wordsOf chain i +
      (List.range p.constants.length).foldl (fun v t => s.round t (s.schedule
        (fun t => Standard.wordAt w (Standard.ofBytes block) t) t) v) (wordsOf chain) i := by
  have hx : Shows (readBig 16 block : Window ω)
      (s.schedule fun t => Standard.wordAt w (Standard.ofBytes block) t) 0 :=
    shows_readBig block fun i => by rw [Standard.Sigmas.schedule, dif_pos i.isLt]
  have hr := wordsOf_foldl (fun t ht v x hx => hp.round_eq ht hx) chain hx
  rw [compress, wordsOf_zipWith_add, hr.1]

end Follows

theorem follows_sha256 : sha256.Follows Standard.sha256 where
  wordLen := .inl rfl
  blockLen := rfl
  lengthLen := rfl
  initial := by
    funext i
    rw [wordsOf, sha256, Fin.getElem_fin, Vector.getElem_ofFn]
    exact Standard.squareRoots_narrow i
  compress := narrow_follows.compress_eq
  output := output_writeBig (by decide)

theorem follows_sha512 : sha512.Follows Standard.sha512 where
  wordLen := .inr rfl
  blockLen := rfl
  lengthLen := rfl
  initial := by
    funext i
    rw [wordsOf, sha512, Fin.getElem_fin, Vector.getElem_ofFn]
    exact Standard.squareRoots_wide (i.castAdd 8)
  compress := wide_follows.compress_eq
  output := output_writeBig (by decide)

theorem follows_sha384 : sha384.Follows Standard.sha384 where
  wordLen := .inr rfl
  blockLen := rfl
  lengthLen := rfl
  initial := by
    funext i
    rw [wordsOf, sha384, Fin.getElem_fin, Vector.getElem_ofFn]
    exact Standard.squareRoots_wide (i.natAdd 8)
  compress := wide_follows.compress_eq
  output chain := by
    rw [← ofBytes_writeBig]
    exact (Standard.take_ofBytes 48 _).symm

end Sha2

end StreamDigest
