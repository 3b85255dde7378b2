import StreamDigest.Hash.Iterated

namespace StreamDigest

/-- A hash that pads a message with a one bit, zeros and its bit length, and folds a compression
over the blocks. -/
structure MerkleDamgard (χ : Type) where
  blockLen : Nat
  lengthLen : Nat
  initial : χ
  compress : χ → Bytes → χ
  output : χ → Bytes

namespace MerkleDamgard

variable {χ : Type}

/-- What follows a message of `n` bytes, so that whole blocks come out. -/
def padding (h : MerkleDamgard χ) (n : Nat) : Bytes :=
  0x80 :: Bytes.zeros ((h.blockLen - (n + 1 + h.lengthLen) % h.blockLen) % h.blockLen) ++
    Bytes.bigEndian h.lengthLen (8 * n)

def fold (h : MerkleDamgard χ) (chain : χ) (padded : Bytes) : χ :=
  (padded.blocks h.blockLen).foldl h.compress chain

def digest (h : MerkleDamgard χ) (message : Bytes) : Bytes :=
  h.output (h.fold h.initial (message ++ h.padding message.length))

def iterated (h : MerkleDamgard χ) : Iterated χ where
  blockLen := h.blockLen
  initial := h.initial
  compress chain _ block := h.compress chain block
  close chain n rest := h.output (h.fold chain (rest ++ h.padding n))

theorem iterated_fold (h : MerkleDamgard χ) (chain : χ) (count : Nat) (blocks : List Bytes) :
    h.iterated.fold chain count blocks = blocks.foldl h.compress chain := by
  induction blocks generalizing chain count with
  | nil => rfl
  | cons block rest ih => exact ih _ _

theorem iterated_output (h : MerkleDamgard χ) (positive : 0 < h.blockLen) (message : Bytes) :
    h.iterated.output (h.iterated.absorb h.iterated.start message) = h.digest message := by
  have le := h.iterated.waiting_le message
  simp only [Iterated.absorb, Iterated.start, List.nil_append, Iterated.drain_eq,
    Iterated.output, iterated_fold, List.length_drop]
  generalize (message.length - 1) / h.iterated.blockLen = n at le ⊢
  rw [show 0 + n * h.iterated.blockLen + (message.length - n * h.iterated.blockLen) = message.length by omega]
  change h.output (h.fold _ _) = h.output (h.fold _ _)
  simp only [fold]
  rw [Bytes.blocks_append positive le, List.foldl_append]
  rfl

end MerkleDamgard

end StreamDigest
