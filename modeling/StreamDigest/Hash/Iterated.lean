import StreamDigest.Bytes

namespace StreamDigest

/-- A hash that folds a compression over fixed-size blocks. Both `compress` and `close` are told
how many bytes precede the end of the block they are given. -/
structure Iterated (χ : Type) where
  blockLen : Nat
  initial : χ
  compress : χ → Nat → Bytes → χ
  close : χ → Nat → Bytes → Bytes

/-- A hash under way: the chaining value, the bytes compressed into it, and those that wait. -/
structure Progress (χ : Type) where
  chain : χ
  count : Nat
  pending : Bytes

namespace Iterated

variable {χ : Type}

def start (h : Iterated χ) : Progress χ where
  chain := h.initial
  count := 0
  pending := []

/-- Compresses the first `n` pending blocks. -/
def drain (h : Iterated χ) : Nat → Progress χ → Progress χ
  | 0, s => s
  | n + 1, s => h.drain n {
      chain := h.compress s.chain (s.count + h.blockLen) (s.pending.take h.blockLen)
      count := s.count + h.blockLen
      pending := s.pending.drop h.blockLen }

/-- Takes in more bytes. The last block always waits, since it may be the closing one. -/
def absorb (h : Iterated χ) (s : Progress χ) (data : Bytes) : Progress χ :=
  let pending := s.pending ++ data
  h.drain ((pending.length - 1) / h.blockLen) { s with pending }

def output (h : Iterated χ) (s : Progress χ) : Bytes :=
  h.close s.chain (s.count + s.pending.length) s.pending

/-- Compresses blocks that follow the first `count` bytes. -/
def fold (h : Iterated χ) (chain : χ) (count : Nat) : List Bytes → χ
  | [] => chain
  | block :: rest => h.fold (h.compress chain (count + h.blockLen) block) (count + h.blockLen) rest

theorem drain_eq (h : Iterated χ) (n : Nat) (s : Progress χ) :
    h.drain n s = {
      chain := h.fold s.chain s.count (s.pending.cut h.blockLen n)
      count := s.count + n * h.blockLen
      pending := s.pending.drop (n * h.blockLen) } := by
  induction n generalizing s with
  | zero => simp [drain, fold, Bytes.cut]
  | succ n ih =>
    rw [drain, ih]
    simp only [Bytes.cut, fold, List.drop_drop, Progress.mk.injEq, true_and]
    exact ⟨by grind, by congr 1; grind⟩

theorem drain_add (h : Iterated χ) (m n : Nat) (s : Progress χ) :
    h.drain (m + n) s = h.drain n (h.drain m s) := by
  induction m generalizing s with
  | zero => simp [drain]
  | succ m ih =>
    rw [Nat.add_right_comm]
    exact ih _

theorem drain_append (h : Iterated χ) {n : Nat} {s : Progress χ}
    (le : n * h.blockLen ≤ s.pending.length) (data : Bytes) :
    h.drain n { s with pending := s.pending ++ data } =
      { h.drain n s with pending := (h.drain n s).pending ++ data } := by
  rw [drain_eq, drain_eq, Progress.mk.injEq]
  exact ⟨by rw [Bytes.cut_append le], rfl, List.drop_append_of_le_length le⟩

theorem waiting_le (h : Iterated χ) (b : Bytes) : (b.length - 1) / h.blockLen * h.blockLen ≤ b.length := by
  have := Nat.div_mul_le_self (b.length - 1) h.blockLen
  omega

/-- It makes no difference how a message is cut up. -/
theorem absorb_append (h : Iterated χ) (positive : 0 < h.blockLen) (s : Progress χ)
    (a b : Bytes) : h.absorb (h.absorb s a) b = h.absorb s (a ++ b) := by
  have le := h.waiting_le (s.pending ++ a)
  simp only [absorb]
  generalize hm : ((s.pending ++ a).length - 1) / h.blockLen = m at le ⊢
  have joined := h.drain_append (s := { s with pending := s.pending ++ a }) le b
  have rest : (h.drain m { s with pending := s.pending ++ a }).pending =
      (s.pending ++ a).drop (m * h.blockLen) := by rw [drain_eq]
  generalize h.drain m { s with pending := s.pending ++ a } = d at joined rest ⊢
  have count : ((s.pending ++ (a ++ b)).length - 1) / h.blockLen =
      m + ((d.pending ++ b).length - 1) / h.blockLen := by
    rw [rest, ← Nat.mul_add_div positive, Nat.mul_comm]
    by_cases zero : m = 0
    · subst zero
      simp
    · have below := Nat.div_mul_le_self ((s.pending ++ a).length - 1) h.blockLen
      have above : 0 < m * h.blockLen := Nat.mul_pos (Nat.pos_of_ne_zero zero) positive
      rw [hm] at below
      congr 1
      simp only [List.length_append, List.length_drop] at *
      omega
  rw [count, drain_add, ← joined, List.append_assoc]

end Iterated

end StreamDigest
