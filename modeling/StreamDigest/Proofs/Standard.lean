import StreamDigest.Proofs.Software
import StreamDigest.Proofs.Standard.Blake2b
import StreamDigest.Proofs.Standard.SecureHash
import StreamDigest.Standard

namespace StreamDigest

theorem Standard.Blake2b.length_digest (key message : Bytes) :
    (digest key message).length = 32 := by
  have hword (x : BitVec 64) : (toLittle x).length = 8 := by
    simp [toLittle, toBytes]
  simp [digest, hword]

namespace Hash

theorem hmac_eq (h : Hash) (key message : Bytes) :
    h.hmac key message = Standard.hmac h.blockLen h.digest key message := by
  have hmask (x : UInt8) : mask x (h.keyBlock key) =
      List.zipWith (· ^^^ ·) (h.keyBlock key) (List.replicate h.blockLen x) := by
    apply List.ext_getElem
    · simp [mask, h.length_keyBlock]
    · simp [mask]
  have hkey : h.keyBlock key =
      (if h.blockLen < key.length then h.digest key else key) ++
        List.replicate
          (h.blockLen - (if h.blockLen < key.length then h.digest key else key).length) 0 := by
    unfold keyBlock
    by_cases hl : key.length ≤ h.blockLen
    · simp [hl, Nat.not_lt.mpr hl, Bytes.zeros]
    · simp [hl, Nat.lt_of_not_le hl, Bytes.zeros]
  rw [hmac, hmask, hmask, hkey]
  rfl

end Hash

namespace Algorithm

/-- What is computed is the standard function. BLAKE2b takes no longer keys than that. -/
theorem function_eq_standard (a : Algorithm) {key : Bytes}
    (hkey : a = .blake2bMac → key.length ≤ Blake2b.maxKeyLen) (message : Bytes) :
    a.function key message = a.standard key message := by
  have hsha1 : Hash.sha1.digest = Standard.sha1.digest := funext Sha1.follows.digest_eq
  have hsha256 : Hash.sha256.digest = Standard.sha256.digest := funext Sha2.follows_sha256.digest_eq
  have hsha384 : Hash.sha384.digest = Standard.sha384.digest := funext Sha2.follows_sha384.digest_eq
  have hsha512 : Hash.sha512.digest = Standard.sha512.digest := funext Sha2.follows_sha512.digest_eq
  cases a with
  | sha1 => exact congrFun hsha1 message
  | sha256 => exact congrFun hsha256 message
  | sha384 => exact congrFun hsha384 message
  | sha512 => exact congrFun hsha512 message
  | blake2b => exact Blake2b.digest_eq (Nat.zero_le _) message
  | hmacSha1 => exact (Hash.sha1.hmac_eq key message).trans (by rw [hsha1]; rfl)
  | hmacSha256 => exact (Hash.sha256.hmac_eq key message).trans (by rw [hsha256]; rfl)
  | hmacSha384 => exact (Hash.sha384.hmac_eq key message).trans (by rw [hsha384]; rfl)
  | hmacSha512 => exact (Hash.sha512.hmac_eq key message).trans (by rw [hsha512]; rfl)
  | blake2bMac => exact Blake2b.digest_eq (hkey rfl) message

example : (sha256.standard [] "abc".toUTF8.toList).hex =
    "ba7816bf8f01cfea414140de5dae2223b00361a396177a9cb410ff61f20015ad" := by
  rw [← function_eq_standard sha256 (by decide)]
  decide +kernel

example : (sha384.standard [] "abc".toUTF8.toList).hex =
    "cb00753f45a35e8bb5a03d699ac65007272c32ab0eded1631a8b605a43ff5bed" ++
      "8086072ba1e7cc2358baeca134c825a7" := by
  rw [← function_eq_standard sha384 (by decide)]
  decide +kernel

example : (blake2bMac.standard "0123456789abcdef".toUTF8.toList "abc".toUTF8.toList).hex =
    "66b4857d42c644c61fca8c0bcea243e0e75088582c7964bbac6b92c02381d9c7" := by
  rw [← function_eq_standard blake2bMac (by decide +kernel)]
  decide +kernel

theorem length_standard (a : Algorithm) (key message : Bytes) :
    (a.standard key message).length = a.outputLen := by
  by_cases h : a = .blake2bMac
  · subst h
    exact Standard.Blake2b.length_digest key message
  · rw [← a.function_eq_standard (fun e => absurd e h), a.length_function]

end Algorithm

/-- What comes out of a primitive is the standard function of all that it was fed. -/
theorem Primitive.Computes.output_eq {p : Primitive} {a : Algorithm} {key : Bytes}
    (h : p.Computes a key) (message : Bytes) :
    (p.absorb message).output = a.standard key message :=
  (h.output message).trans (a.function_eq_standard h.key_le message)

end StreamDigest
