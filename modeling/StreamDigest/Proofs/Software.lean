import StreamDigest.Library.Software

namespace StreamDigest

theorem Iterated.absorb_nil {χ : Type} (h : Iterated χ) {s : Progress χ}
    (hs : s.pending.length ≤ h.blockLen) : h.absorb s [] = s := by
  have hz : (s.pending.length - 1) / h.blockLen = 0 := by
    by_cases positive : 0 < h.blockLen
    · exact Nat.div_eq_of_lt (by omega)
    · simp [show h.blockLen = 0 by omega]
  simp [absorb, hz, drain]

theorem Blake2b.length_close (chain : Vector UInt64 8) (count : Nat) (rest : Bytes) :
    (close chain count rest).length = outputLen := by
  rw [close, List.length_take, Word.length_writeLittle]
  rfl

namespace Hash

theorem iterated_blockLen_pos (h : Hash) : 0 < h.iterated.blockLen := by
  rw [iterated_blockLen]
  exact h.blockLen_pos

theorem pending_start (h : Hash) : h.iterated.start.pending.length ≤ h.iterated.blockLen :=
  Nat.zero_le _

theorem length_output (h : Hash) (s : Progress h.Chain) :
    (h.iterated.output s).length = h.outputLen := by
  cases h with
  | sha1 => exact Word.length_writeBig _
  | sha256 => exact Word.length_writeBig _
  | sha384 =>
    have hw (chain : Vector UInt64 8) : (Word.writeBig chain).length = 8 * 8 :=
      Word.length_writeBig chain
    simp [iterated, Iterated.output, MerkleDamgard.iterated, StreamDigest.sha384, hw, outputLen]
  | sha512 => exact Word.length_writeBig _
  | blake2b => exact Blake2b.length_close _ _ _

theorem length_digest (h : Hash) (message : Bytes) : (h.digest message).length = h.outputLen := by
  rw [← h.iterated_output]
  exact h.length_output _

theorem length_hmac (h : Hash) (key message : Bytes) :
    (h.hmac key message).length = h.outputLen :=
  h.length_digest _

theorem outputLen_le_blockLen (h : Hash) : h.outputLen ≤ h.blockLen := by
  cases h <;> decide

theorem length_keyBlock (h : Hash) (key : Bytes) : (h.keyBlock key).length = h.blockLen := by
  have hlen := h.length_digest key
  have hle := h.outputLen_le_blockLen
  simp only [keyBlock, List.length_append, Bytes.length_zeros]
  split <;> omega

end Hash

theorem Algorithm.length_function (a : Algorithm) (key message : Bytes) :
    (a.function key message).length = a.outputLen := by
  have hdigest := a.hash.length_digest message
  have hhmac := a.hash.length_hmac key message
  cases a with
  | sha1 | sha256 | sha384 | sha512 | blake2b => exact hdigest
  | hmacSha1 | hmacSha256 | hmacSha384 | hmacSha512 => exact hhmac
  | blake2bMac => exact Blake2b.length_close _ _ _

namespace Primitive

theorem absorb_append (p : Primitive) (x y : Bytes) :
    (p.absorb x).absorb y = p.absorb (x ++ y) := by
  cases p with
  | plain h s => exact congrArg _ (h.iterated.absorb_append h.iterated_blockLen_pos s x y)
  | hmac h s =>
    simp only [absorb, Hmac.absorb, h.iterated.absorb_append h.iterated_blockLen_pos]

/-- A primitive from which an algorithm's function comes out, whatever message it is fed. -/
structure Computes (p : Primitive) (a : Algorithm) (key : Bytes) : Prop where
  key_le : a = .blake2bMac → key.length ≤ Blake2b.maxKeyLen
  absorb_nil : p.absorb [] = p
  output : ∀ message, (p.absorb message).output = a.function key message

theorem computes_ofHash {a : Algorithm} (ha : a.kind = .digest) (key : Bytes) :
    (ofHash a.hash).Computes a key where
  key_le h := by
    subst h
    cases ha
  absorb_nil := congrArg (plain a.hash) (a.hash.iterated.absorb_nil a.hash.pending_start)
  output message := by
    have ho : a.function key message = a.hash.digest message := by
      cases a <;> first | rfl | cases ha
    rw [ho]
    exact a.hash.iterated_output message

theorem computes_ofHmac {a : Algorithm} {key : Bytes} {p : Primitive} (hne : a ≠ .blake2bMac)
    (ha : ∀ message, a.function key message = a.hash.hmac key message)
    (hp : p = ofHmac a.hash key) : p.Computes a key where
  key_le h := absurd h hne
  absorb_nil := by
    have positive := a.hash.iterated_blockLen_pos
    rw [hp]
    simp only [ofHmac, absorb, Hmac.absorb, Hmac.start, a.hash.iterated.absorb_append positive,
      List.append_nil]
  output message := by
    rw [ha, hp]
    exact Hmac.output_absorb a.hash key message

theorem computes_ofKeyedBlake2b {key : Bytes} {p : Primitive} (h : ofKeyedBlake2b key = .ok p) :
    p.Computes .blake2bMac key := by
  unfold ofKeyedBlake2b at h
  split at h
  · next hlen =>
    cases h
    refine ⟨fun _ => hlen, congrArg (plain .blake2b) (Iterated.absorb_nil _ ?_), ?_⟩
    · change (Blake2b.keyBlock key).length ≤ Blake2b.blockLen
      have hmax : Blake2b.maxKeyLen ≤ Blake2b.blockLen := by decide
      unfold Blake2b.keyBlock
      split
      · exact Nat.zero_le _
      · rw [Blake2b.pad, List.length_append, Bytes.length_zeros]
        omega
    · exact Blake2b.iterated_output key
  · cases h

theorem computes_digest {n : Nat} {a : Algorithm} {p : Primitive}
    (h : Library.software.digest n a = .ok p) (key : Bytes) : p.Computes a key := by
  change Library.softwareDigest a = .ok p at h
  unfold Library.softwareDigest at h
  split at h
  · next ha =>
    cases h
    exact computes_ofHash ha key
  · cases h

theorem computes_mac {n : Nat} {a : Algorithm} {key : Bytes} {p : Primitive}
    (h : Library.software.mac n a key = .ok p) : p.Computes a key := by
  change Library.softwareMac a key = .ok p at h
  unfold Library.softwareMac at h
  cases a with
  | blake2bMac => exact computes_ofKeyedBlake2b h
  | hmacSha1 | hmacSha256 | hmacSha384 | hmacSha512 =>
    exact computes_ofHmac (by decide) (fun _ => rfl) (Except.ok.inj h).symm
  | sha1 | sha256 | sha384 | sha512 | blake2b => cases h

end Primitive

end StreamDigest
