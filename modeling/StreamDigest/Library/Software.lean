import StreamDigest.Hmac
import StreamDigest.Library

namespace StreamDigest

/-- A computation of the software library. -/
inductive Primitive
  | plain (h : Hash) (s : Progress h.Chain)
  | hmac (h : Hash) (s : Hmac h)

namespace Primitive

def ofHash (h : Hash) : Primitive :=
  plain h h.iterated.start

def ofHmac (h : Hash) (key : Bytes) : Primitive :=
  hmac h (Hmac.start h key)

def ofKeyedBlake2b (key : Bytes) : Except Failure Primitive :=
  if key.length ≤ Blake2b.maxKeyLen then .ok (plain .blake2b (Blake2b.start key))
  else .error (.fault (.invalidKey s!"BLAKE2b keys are limited to {Blake2b.maxKeyLen} bytes"))

def absorb : Primitive → Bytes → Primitive
  | plain h s, data => plain h (h.iterated.absorb s data)
  | hmac h s, data => hmac h (s.absorb data)

def output : Primitive → Bytes
  | plain h s => h.iterated.output s
  | hmac _ s => s.output

end Primitive

namespace Library

def softwareDigest (a : Algorithm) : Except Failure Primitive :=
  match a.kind with
  | .digest => .ok (.ofHash a.hash)
  | .mac => .error (.fault (.unsupportedAlgorithm a.name))

def softwareMac (a : Algorithm) (key : Bytes) : Except Failure Primitive :=
  match a with
  | .blake2bMac => Primitive.ofKeyedBlake2b key
  | .hmacSha1 | .hmacSha256 | .hmacSha384 | .hmacSha512 => .ok (.ofHmac a.hash key)
  | .sha1 | .sha256 | .sha384 | .sha512 | .blake2b => .error (.fault (.unsupportedAlgorithm a.name))

def software : Library Primitive where
  name := "software"
  digest _ := softwareDigest
  mac _ := softwareMac
  absorb p data := .ok (p.absorb data)
  output p := .ok p.output

end Library

/-- What an algorithm makes of a message that is there as a whole; a digest has no use for the key. -/
def Algorithm.function (a : Algorithm) (key message : Bytes) : Bytes :=
  match a with
  | .sha1 | .sha256 | .sha384 | .sha512 | .blake2b => a.hash.digest message
  | .hmacSha1 | .hmacSha256 | .hmacSha384 | .hmacSha512 => a.hash.hmac key message
  | .blake2bMac => Blake2b.digest key message

end StreamDigest
