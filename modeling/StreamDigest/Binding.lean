import StreamDigest.KeyStore

namespace StreamDigest

/-- The key of a MAC: a signing copy that the computation owns, or the caller's key itself. -/
inductive Binding
  | restricted (key : Key)
  | shared (key : Key)
  deriving DecidableEq, Repr

def Binding.key : Binding → Key
  | restricted key | shared key => key

/-- Gives up the reference of a binding that a computation has dropped. -/
def Vault.settle (v : Vault) : Option Binding → Option Binding → Vault
  | some b, none => v.release b.key
  | _, _ => v

def Custody.settle (c : Custody) (before after : Option Binding) : Custody :=
  { c with vault := c.vault.settle before after }

end StreamDigest
