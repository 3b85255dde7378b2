import StreamDigest.Word
import StreamDigest.Hash.MerkleDamgard

namespace StreamDigest

namespace Sha1

open Word

/-- Eighty rounds in four groups, each with a mixing function and a constant of its own. -/
def rounds : List ((UInt32 → UInt32 → UInt32 → UInt32) × UInt32) :=
  List.replicate 20 (choose, 0x5a827999) ++ List.replicate 20 (parity, 0x6ed9eba1) ++
    List.replicate 20 (majority, 0x8f1bbcdc) ++ List.replicate 20 (parity, 0xca62c1d6)

def round (s : Vector UInt32 5 × Window UInt32)
    (r : (UInt32 → UInt32 → UInt32 → UInt32) × UInt32) : Vector UInt32 5 × Window UInt32 :=
  let (v, w) := s
  (#v[rotateLeft v[0] 5 + r.1 v[1] v[2] v[3] + v[4] + r.2 + w.oldest, v[0], rotateLeft v[1] 30,
      v[2], v[3]],
    w.advance (rotateLeft (w[13] ^^^ w[8] ^^^ w[2] ^^^ w.oldest) 1))

def compress (chain : Vector UInt32 5) (block : Bytes) : Vector UInt32 5 :=
  chain.zipWith (· + ·) (rounds.foldl round (chain, readBig 16 block)).1

end Sha1

def sha1 : MerkleDamgard (Vector UInt32 5) where
  blockLen := 64
  lengthLen := 8
  initial := #v[0x67452301, 0xefcdab89, 0x98badcfe, 0x10325476, 0xc3d2e1f0]
  compress := Sha1.compress
  output := Word.writeBig

end StreamDigest
