import StreamDigest.Fault
import Mathlib

namespace StreamDigest

variable {available offset length stop : UInt64}

/-- The sum of two words is the sum of their numbers, or it has wrapped around and shows it. -/
theorem toNat_add_or_wrapped (offset length : UInt64) :
    (offset.toNat + length.toNat < UInt64.size ∧
      (offset + length).toNat = offset.toNat + length.toNat) ∨
    (UInt64.size ≤ offset.toNat + length.toNat ∧ (offset + length).toNat < offset.toNat) := by
  have hsum := UInt64.toNat_add offset length
  have ho := offset.toNat_lt
  have hl := length.toNat_lt
  have hsize : UInt64.size = 2 ^ 64 := rfl
  omega

/-- A range of words is checked as if its bounds were numbers. -/
theorem rangeEnd?_eq_some_iff : rangeEnd? available offset length = some stop ↔
    offset.toNat + length.toNat ≤ available.toNat ∧ stop = offset + length := by
  have ha : available.toNat < UInt64.size := available.toNat_lt
  simp only [rangeEnd?, UInt64.lt_iff_toNat_lt]
  rcases toNat_add_or_wrapped offset length with ⟨_, hsum⟩ | ⟨hsize, hwrapped⟩
  · rw [if_neg (by omega), hsum]
    by_cases hle : offset.toNat + length.toNat ≤ available.toNat
    · rw [if_neg (by omega)]
      simp [hle, eq_comm]
    · rw [if_pos (by omega)]
      simp [hle]
  · have hle : ¬offset.toNat + length.toNat ≤ available.toNat := by omega
    rw [if_pos hwrapped]
    simp [hle]

theorem rangeEnd?_eq_none_iff : rangeEnd? available offset length = none ↔
    available.toNat < offset.toNat + length.toNat := by
  rw [Option.eq_none_iff_forall_ne_some]
  simp only [ne_eq, rangeEnd?_eq_some_iff, not_and]
  constructor
  · intro h
    exact Nat.not_le.mp fun hle => h _ hle rfl
  · intro hlt _ hle
    omega

/-- Numbers do not wrap around. -/
theorem checkRange_eq (operation : String) (available offset length : Nat) :
    checkRange operation available offset length =
      if available < offset + length then .error (.invalidRange operation offset length available)
      else .ok (offset + length) := by
  have hwrap : ¬offset + length < offset := by omega
  unfold checkRange rangeEnd?
  rw [if_neg hwrap]
  by_cases hr : available < offset + length
  · rw [if_pos hr, if_pos hr]
  · rw [if_neg hr, if_neg hr]

namespace Bytes

variable {b part : Bytes} {start i : Nat}

section within

variable (h : start + part.length ≤ b.length)

include h

theorem length_overwrite : (b.overwrite start part).length = b.length := by
  simp only [overwrite, List.length_append, List.length_take, List.length_drop]
  omega

theorem slice_overwrite : (b.overwrite start part).slice start part.length = part := by
  have hfront : (b.take start).length = start := by
    rw [List.length_take]
    omega
  rw [overwrite, slice, List.append_assoc, List.drop_left' hfront, List.take_left' rfl]

/-- What is not in the range of a write stays as it was. -/
theorem getElem?_overwrite (hi : i < start ∨ start + part.length ≤ i) :
    (b.overwrite start part)[i]? = b[i]? := by
  have hfront : (b.take start).length = start := by
    rw [List.length_take]
    omega
  rw [overwrite]
  rcases hi with hi | hi
  · rw [List.append_assoc, List.getElem?_append_left (by omega), List.getElem?_take_of_lt hi]
  · rw [List.getElem?_append_right (by rw [List.length_append]; omega), List.getElem?_drop,
      List.length_append, hfront]
    congr 1
    omega

end within

/-- What becomes of a buffer that a part is written into: it has the part in its place, which lies
within the buffer, and everything else as it was. -/
structure Written (b : Bytes) (start : Nat) (part after : Bytes) : Prop where
  within : start + part.length ≤ b.length
  length : after.length = b.length
  inside : after.slice start part.length = part
  outside : ∀ i, i < start ∨ start + part.length ≤ i → after[i]? = b[i]?

theorem written_overwrite (h : start + part.length ≤ b.length) :
    b.Written start part (b.overwrite start part) :=
  ⟨h, length_overwrite h, slice_overwrite h, fun _ => getElem?_overwrite h⟩

end Bytes

end StreamDigest
