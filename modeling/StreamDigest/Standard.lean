import StreamDigest.Algorithm
import StreamDigest.Standard.Blake2b
import StreamDigest.Standard.SecureHash

namespace StreamDigest

namespace Standard

/-- A hash of which the blocks have so many bytes is made into a MAC. A key that is longer than a
block is hashed first. -/
def hmac (blockLen : Nat) (digest : Bytes → Bytes) (key text : Bytes) : Bytes :=
  let key := if blockLen < key.length then digest key else key
  let key := key ++ List.replicate (blockLen - key.length) 0
  let inner := List.zipWith (· ^^^ ·) key (List.replicate blockLen 0x36)
  let outer := List.zipWith (· ^^^ ·) key (List.replicate blockLen 0x5c)
  digest (outer ++ digest (inner ++ text))

end Standard

/-- The standard function of an algorithm; a digest has no use for the key. -/
def Algorithm.standard (a : Algorithm) (key message : Bytes) : Bytes :=
  match a with
  | .sha1 => Standard.sha1.digest message
  | .sha256 => Standard.sha256.digest message
  | .sha384 => Standard.sha384.digest message
  | .sha512 => Standard.sha512.digest message
  | .blake2b => Standard.Blake2b.digest [] message
  | .hmacSha1 => Standard.hmac 64 Standard.sha1.digest key message
  | .hmacSha256 => Standard.hmac 64 Standard.sha256.digest key message
  | .hmacSha384 => Standard.hmac 128 Standard.sha384.digest key message
  | .hmacSha512 => Standard.hmac 128 Standard.sha512.digest key message
  | .blake2bMac => Standard.Blake2b.digest key message

end StreamDigest
