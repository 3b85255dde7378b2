import StreamDigest.Proofs.Software

namespace StreamDigest

namespace Library

/-- What comes of a computation that is begun, fed piece by piece and closed. -/
def compute {σ : Type} (lib : Library σ) (begun : Except Failure σ) (pieces : List Bytes) :
    Except Failure Bytes := do
  lib.output (← pieces.foldlM lib.absorb (← begun))

theorem foldlM_absorb_software {p : Primitive} (hp : p.absorb [] = p) (pieces : List Bytes) :
    pieces.foldlM software.absorb p = .ok (p.absorb pieces.flatten) := by
  have onward (pieces : List Bytes) (message : Bytes) :
      pieces.foldlM software.absorb (p.absorb message) =
        .ok (p.absorb (message ++ pieces.flatten)) := by
    induction pieces generalizing message with
    | nil => simp [pure, Except.pure]
    | cons piece rest ih =>
      have hstep : software.absorb (p.absorb message) piece = .ok (p.absorb (message ++ piece)) :=
        congrArg Except.ok (p.absorb_append message piece)
      rw [List.foldlM_cons, hstep, List.flatten_cons, ← List.append_assoc]
      exact ih (message ++ piece)
  have h := onward pieces []
  rwa [hp, List.nil_append] at h

theorem compute_software {a : Algorithm} {key : Bytes} {p : Primitive} (hp : p.Computes a key)
    (pieces : List Bytes) :
    software.compute (.ok p) pieces = .ok (a.function key pieces.flatten) := by
  have h := foldlM_absorb_software hp.absorb_nil pieces
  have ho : software.output (p.absorb pieces.flatten) = .ok (a.function key pieces.flatten) :=
    congrArg Except.ok (hp.output _)
  simp [compute, h, ho, bind, Except.bind]

theorem compute_digest {a : Algorithm} (ha : a.kind = .digest) (n : Nat) (pieces : List Bytes) :
    software.compute (software.digest n a) pieces = .ok (a.hash.digest pieces.flatten) := by
  have hd : software.digest n a = .ok (.ofHash a.hash) := by
    change softwareDigest a = _
    rw [softwareDigest, ha]
  have hf : a.function [] pieces.flatten = a.hash.digest pieces.flatten := by
    cases a <;> first | rfl | cases ha
  rw [hd, compute_software (Primitive.computes_ofHash ha []), hf]

end Library

namespace Algorithm

theorem kind_ofHash (h : Hash) : (ofHash h).kind = .digest := by
  cases h <;> rfl

theorem hash_ofHash (h : Hash) : (ofHash h).hash = h := by
  cases h <;> rfl

end Algorithm

namespace Library

/-- A MAC of the software library that is built on a hash is made of two digests of that hash: of
the message behind the key with one mask, and of what comes out behind the key with another. The key
is one block, of its own bytes or of its digest if they are too many, and zeros. -/
theorem mac_of_digests (a : Algorithm)
    (ha : a ∈ [Algorithm.hmacSha1, .hmacSha256, .hmacSha384, .hmacSha512]) :
    ∃ digest : Bytes → Bytes,
      (∀ occasion pieces, software.compute (software.digest occasion (.ofHash a.hash)) pieces =
        .ok (digest pieces.flatten)) ∧
      (∀ message, (digest message).length = a.outputLen) ∧
      ∀ occasion key pieces,
        let short := if key.length ≤ a.blockLen then key else digest key
        let block := short ++ Bytes.zeros (a.blockLen - short.length)
        block.length = a.blockLen ∧
        software.compute (software.mac occasion a key) pieces =
          .ok (digest (block.map (· ^^^ 0x5c) ++
            digest (block.map (· ^^^ 0x36) ++ pieces.flatten))) := by
  refine ⟨a.hash.digest, ?_, a.hash.length_digest, ?_⟩
  · intro n pieces
    rw [compute_digest (Algorithm.kind_ofHash a.hash), Algorithm.hash_ofHash]
  · intro n key pieces short block
    have hblock : block = a.hash.keyBlock key := rfl
    refine ⟨hblock ▸ a.hash.length_keyBlock key, ?_⟩
    have hmac : a ≠ .blake2bMac ∧ software.mac n a key = .ok (.ofHmac a.hash key) ∧
        ∀ message, a.function key message = a.hash.hmac key message := by
      simp only [List.mem_cons, List.not_mem_nil, or_false] at ha
      rcases ha with rfl | rfl | rfl | rfl <;> exact ⟨by decide, rfl, fun _ => rfl⟩
    obtain ⟨hne, hbegun, hfunction⟩ := hmac
    rw [hbegun, compute_software (Primitive.computes_ofHmac hne hfunction rfl), hfunction]
    rfl

/-- A key with one byte more than a block. -/
theorem mac_of_digests_long_key :
    let key : Bytes := List.replicate 65 0xaa
    Algorithm.hmacSha1 ∈ [Algorithm.hmacSha1, .hmacSha256, .hmacSha384, .hmacSha512] ∧
    ∃ digest : Bytes → Bytes,
      software.compute (software.digest 0 .sha1) [key] = .ok (digest key) ∧
      software.compute (software.mac 0 .hmacSha1 key) [[1], [], [2, 3]] =
        .ok (digest ((digest key ++ Bytes.zeros 44).map (· ^^^ 0x5c) ++
          digest ((digest key ++ Bytes.zeros 44).map (· ^^^ 0x36) ++ [1, 2, 3]))) := by
  intro key
  have ha : Algorithm.hmacSha1 ∈ [Algorithm.hmacSha1, .hmacSha256, .hmacSha384, .hmacSha512] := by
    decide
  obtain ⟨digest, hdigest, hlength, hmac⟩ := mac_of_digests .hmacSha1 ha
  have hzeros : (64 : Nat) - (digest key).length = 44 := by
    rw [hlength]
    rfl
  have hlong : ¬key.length ≤ Algorithm.hmacSha1.blockLen := by decide
  have h := (hmac 0 key [[1], [], [2, 3]]).2
  simp only [if_neg hlong] at h
  rw [show Algorithm.hmacSha1.blockLen - (digest key).length = 44 from hzeros] at h
  exact ⟨ha, digest, hdigest 0 [key], h⟩

end Library

end StreamDigest
