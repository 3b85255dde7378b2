import StreamDigest.Hash

namespace StreamDigest

namespace Hash

/-- The key as one block: hashed first if it is longer than that, then filled up with zeros. -/
def keyBlock (h : Hash) (key : Bytes) : Bytes :=
  let key := if key.length ≤ h.blockLen then key else h.digest key
  key ++ Bytes.zeros (h.blockLen - key.length)

def mask (x : UInt8) (b : Bytes) : Bytes :=
  b.map (· ^^^ x)

def innerMask : UInt8 := 0x36

def outerMask : UInt8 := 0x5c

theorem mask_mask (x y : UInt8) (b : Bytes) : mask x (mask y b) = mask (y ^^^ x) b := by
  simp [mask, Function.comp_def, UInt8.xor_assoc]

def hmac (h : Hash) (key message : Bytes) : Bytes :=
  h.digest (mask outerMask (h.keyBlock key) ++
    h.digest (mask innerMask (h.keyBlock key) ++ message))

end Hash

/-- A MAC under way: both hashes have taken in their masked key. -/
structure Hmac (h : Hash) where
  inner : Progress h.Chain
  outer : Progress h.Chain

namespace Hmac

variable {h : Hash}

/-- The block of the key is masked for the inner hash, and what comes of that for the outer. -/
def start (h : Hash) (key : Bytes) : Hmac h :=
  let inner := Hash.mask Hash.innerMask (h.keyBlock key)
  let outer := Hash.mask (Hash.innerMask ^^^ Hash.outerMask) inner
  { inner := h.iterated.absorb h.iterated.start inner
    outer := h.iterated.absorb h.iterated.start outer }

theorem start_eq (h : Hash) (key : Bytes) : start h key = {
    inner := h.iterated.absorb h.iterated.start (Hash.mask Hash.innerMask (h.keyBlock key))
    outer := h.iterated.absorb h.iterated.start (Hash.mask Hash.outerMask (h.keyBlock key)) } := by
  have undone : Hash.innerMask ^^^ (Hash.innerMask ^^^ Hash.outerMask) = Hash.outerMask := by decide
  simp only [start, Hash.mask_mask, undone]

def absorb (s : Hmac h) (data : Bytes) : Hmac h :=
  { s with inner := h.iterated.absorb s.inner data }

def output (s : Hmac h) : Bytes :=
  h.iterated.output (h.iterated.absorb s.outer (h.iterated.output s.inner))

theorem output_absorb (h : Hash) (key message : Bytes) :
    ((start h key).absorb message).output = h.hmac key message := by
  have positive : 0 < h.iterated.blockLen := by
    rw [h.iterated_blockLen]
    exact h.blockLen_pos
  simp only [output, absorb, start_eq, h.iterated.absorb_append positive, h.iterated_output,
    Hash.hmac]

example : (((start .sha1 "Jefe".toUTF8.toList).absorb
    "what do ya want for nothing?".toUTF8.toList).output).hex =
      "effcdf6ae5eb2fa2d27416d5f184df9c259a7c79" := by
  decide +kernel

end Hmac

end StreamDigest
