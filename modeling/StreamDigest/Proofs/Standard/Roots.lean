import StreamDigest.Hash.Roots
import StreamDigest.Standard.Bits

namespace StreamDigest

namespace Standard

/-- Below the square of 21 a factor shows by trial of all numbers that are smaller than that. -/
theorem prime_iff {n : Nat} (hn : n < 410) :
    n.Prime ↔ 2 ≤ n ∧ ∀ d ∈ List.range' 2 19, d < n → ¬d ∣ n := by
  constructor
  · intro hp
    obtain ⟨h2, h⟩ := Nat.prime_def_lt'.mp hp
    exact ⟨h2, fun d hd hlt => h d (List.mem_range'_1.mp hd).1 hlt⟩
  · rintro ⟨h2, h⟩
    refine Nat.prime_def_le_sqrt.mpr ⟨h2, fun d hd hle => ?_⟩
    have hs : Nat.sqrt n < 21 := Nat.sqrt_lt'.mpr (by omega)
    have hlt : Nat.sqrt n < n := Nat.sqrt_lt_self (by omega)
    exact h d (List.mem_range'_1.mpr ⟨hd, by omega⟩) (by omega)

theorem primes_eq : primes = [
    2, 3, 5, 7, 11, 13, 17, 19, 23, 29, 31, 37, 41, 43, 47, 53, 59, 61, 67, 71, 73, 79, 83, 89, 97,
    101, 103, 107, 109, 113, 127, 131, 137, 139, 149, 151, 157, 163, 167, 173, 179, 181, 191, 193,
    197, 199, 211, 223, 227, 229, 233, 239, 241, 251, 257, 263, 269, 271, 277, 281, 283, 293, 307,
    311, 313, 317, 331, 337, 347, 349, 353, 359, 367, 373, 379, 383, 389, 397, 401, 409] := by
  have h : primes = (List.range 410).filter fun n =>
      2 ≤ n ∧ ∀ d ∈ List.range' 2 19, d < n → ¬d ∣ n :=
    List.filter_congr fun n hn => by simp only [prime_iff (List.mem_range.mp hn)]
  rw [h]
  decide +kernel

theorem cubeRoots_wide : cubeRoots.map UInt64.toBitVec = (List.range 80).map (rootBits 3 64) := by
  unfold rootBits
  rw [primes_eq]
  decide +kernel

theorem cubeRoots_narrow : (cubeRoots.take 64).map (fun x : UInt64 => (x >>> 32).toUInt32.toBitVec) =
    (List.range 64).map (rootBits 3 32) := by
  unfold rootBits
  rw [primes_eq]
  decide +kernel

theorem squareRoots_wide (i : Fin 16) : (squareRoots.get i).toBitVec = rootBits 2 64 i := by
  unfold rootBits
  rw [primes_eq]
  decide +kernel +revert

theorem squareRoots_narrow (i : Fin 8) :
    (squareRoots.get (i.castAdd 8) >>> 32).toUInt32.toBitVec = rootBits 2 32 i := by
  unfold rootBits
  rw [primes_eq]
  decide +kernel +revert

end Standard

end StreamDigest
