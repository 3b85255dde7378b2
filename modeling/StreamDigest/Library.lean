import StreamDigest.Algorithm
import StreamDigest.Fault

namespace StreamDigest

/-- A cryptographic library: what sets up computations, feeds them and takes their output. Each of these
may fail, and an output may have any length. A number tells occasions to set one up apart: a library may
be out of sessions on one of them, and not on the next. -/
structure Library (σ : Type) where
  name : String
  digest : Nat → Algorithm → Except Failure σ
  mac : Nat → Algorithm → Bytes → Except Failure σ
  absorb : σ → Bytes → Except Failure σ
  output : σ → Except Failure Bytes

end StreamDigest
