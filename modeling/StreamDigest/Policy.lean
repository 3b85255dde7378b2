import StreamDigest.Algorithm.Name
import StreamDigest.NameSet

namespace StreamDigest

structure Policy where
  /-- Whether a key that has no signing copy is used itself. -/
  keyFallback : Bool := true
  /-- Shorter keys are refused for MACs. -/
  minKeyLen : UInt64 := 0
  /-- How many computations a pool holds at a time. -/
  maxLive : UInt64 := 1024
  /-- Only the algorithms with these names are in use. -/
  allowed : Option NameSet := none
  deriving DecidableEq, Repr

namespace Policy

/-- Fails on a pool without room, then on a name that no algorithm has. -/
def validate (p : Policy) : Except Fault Unit :=
  if p.maxLive = 0 then
    .error (.invalidOptions (.rejected "max_live_contexts must be at least 1"))
  else
    match p.allowed.bind fun s => s.names.find? fun name => (Algorithm.lookup name).isNone with
    | some name => .error (.invalidOptions (.rejected s!"unknown algorithm in allow-list: {name}"))
    | none => .ok ()

def permits (p : Policy) (a : Algorithm) : Bool :=
  match p.allowed with
  | none => true
  | some s => s.names.any fun name => Algorithm.lookup name = some a

end Policy

end StreamDigest
