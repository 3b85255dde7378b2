import StreamDigest.Bytes

namespace StreamDigest

/-- Why options are refused: the document has another form, or a value in it is out of bounds. -/
inductive OptionsFault
  | unreadable
  | rejected (text : String)
  deriving DecidableEq, Repr

inductive Fault
  | unsupportedAlgorithm (text : String)
  | invalidKeyHandle
  | invalidKey (text : String)
  | initialization (text : String)
  | invalidRange (operation : String) (offset length available : Nat)
  | retired (operation : String)
  | computation (text : String)
  | outputTooSmall (required capacity : Nat)
  | invalidHandle
  | verification
  | invalidOptions (cause : OptionsFault)
  deriving DecidableEq, Repr

def OptionsFault.text : OptionsFault → String
  | unreadable => "the document cannot be read"
  | rejected text => text

namespace Fault

def message : Fault → String
  | unsupportedAlgorithm text => s!"Unsupported algorithm: [{text}]"
  | invalidKeyHandle => "Key handle does not resolve to live key material"
  | invalidKey text => s!"Key rejected for this mechanism: [{text}]"
  | initialization text => s!"Unable to initialize digest context: [{text}]"
  | invalidRange operation offset length available =>
    s!"{operation}: range {offset}+{length} exceeds a buffer of {available} bytes"
  | retired operation => s!"{operation}: context already finalized"
  | computation text => s!"Digest operation failed: [{text}]"
  | outputTooSmall required capacity =>
    s!"Output buffer too small: {required} bytes required, {capacity} available"
  | invalidHandle => "Context handle was never issued by this registry"
  | verification => "Authentication tag didn't verify"
  | invalidOptions cause => s!"Invalid engine options: [{cause.text}]"

/-- Whether the caller is to blame, and not the environment, the library or the message. -/
def isMisuse : Fault → Bool
  | initialization _ | computation _ | verification => false
  | _ => true

end Fault

/-- Checks the range that an operation is to read or to write, and returns its end. -/
def checkRange (operation : String) (available offset length : Nat) : Except Fault Nat :=
  match rangeEnd? available offset length with
  | some stop => .ok stop
  | none => .error (.invalidRange operation offset length available)

/-- What a cryptographic library may fail with: a fault of ours or an error of its own. -/
inductive Failure
  | fault (f : Fault)
  | foreign (text : String)
  deriving DecidableEq, Repr

namespace Failure

def text : Failure → String
  | fault f => f.message
  | foreign text => text

/-- A failure to set up a computation, as the caller sees it. -/
def onCreation : Failure → Fault
  | fault (.initialization text) => .initialization text
  | fault (.unsupportedAlgorithm text) => .unsupportedAlgorithm text
  | fault (.invalidKey text) => .invalidKey text
  | e => .initialization e.text

/-- A failure of a computation under way, as the caller sees it. -/
def onComputation : Failure → Fault
  | fault (.computation text) => .computation text
  | e => .computation e.text

end Failure

end StreamDigest
