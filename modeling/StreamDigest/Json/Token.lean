import StreamDigest.Json.Text

namespace StreamDigest

inductive Token
  | beginArray
  | endArray
  | beginObject
  | endObject
  | comma
  | colon
  | null
  | bool (b : Bool)
  | number (lexeme : List Char)
  | text (t : Text)
  deriving DecidableEq, Repr

/-- How far a number has been read. -/
inductive Digits
  | sign
  | zero
  | whole
  | point
  | fraction
  | mark
  | markSign
  | exponent
  deriving DecidableEq, Repr

namespace Digits

def next? (d : Digits) (c : Char) : Option Digits :=
  match d with
  | sign => if c = '0' then some zero else if c.isDigit then some whole else none
  | zero => afterWhole
  | whole => if c.isDigit then some whole else afterWhole
  | point => if c.isDigit then some fraction else none
  | fraction => if c.isDigit then some fraction else afterFraction
  | mark => if c.isDigit then some exponent else if c = '+' || c = '-' then some markSign else none
  | markSign | exponent => if c.isDigit then some exponent else none
where
  afterFraction := if c = 'e' || c = 'E' then some mark else none
  afterWhole := if c = '.' then some point else afterFraction

def isComplete : Digits → Bool
  | zero | whole | fraction | exponent => true
  | sign | point | mark | markSign => false

end Digits

/-- Where a scan stands between two characters. What it has collected is in reverse. -/
inductive Scan
  | between
  | word (rest : List Char) (token : Token)
  | number (d : Digits) (lexeme : List Char)
  | text (t : Text)
  | escape (t : Text)
  | code (t : Text) (digits value : Nat)
  deriving DecidableEq, Repr

structure Scanner where
  scan : Scan := .between
  tokens : List Token := []
  deriving DecidableEq, Repr

namespace Scanner

def isBlank (c : Char) : Bool :=
  c = ' ' || c = '\t' || c = '\n' || c = '\r'

def punctuation? (c : Char) : Option Token :=
  if c = '[' then some .beginArray
  else if c = ']' then some .endArray
  else if c = '\x7b' then some .beginObject
  else if c = '\x7d' then some .endObject
  else if c = ',' then some .comma
  else if c = ':' then some .colon
  else none

/-- The scan that a token starts with, for a character that is no token of its own. -/
def opening? (c : Char) : Option Scan :=
  if c = '"' then some (.text [])
  else if c = '-' then some (.number .sign [c])
  else if c = '0' then some (.number .zero [c])
  else if c.isDigit then some (.number .whole [c])
  else if c = 'n' then some (.word ['u', 'l', 'l'] .null)
  else if c = 't' then some (.word ['r', 'u', 'e'] (.bool true))
  else if c = 'f' then some (.word ['a', 'l', 's', 'e'] (.bool false))
  else none

def between? (tokens : List Token) (c : Char) : Option Scanner :=
  if isBlank c then some { tokens }
  else match punctuation? c with
    | some token => some { tokens := token :: tokens }
    | none => (opening? c).map fun scan => { scan, tokens }

def escaped? (c : Char) : Option Char :=
  if c = '"' || c = '\\' || c = '/' then some c
  else if c = 'b' then some '\x08'
  else if c = 'f' then some '\x0c'
  else if c = 'n' then some '\n'
  else if c = 'r' then some '\r'
  else if c = 't' then some '\t'
  else none

def hexValue? (c : Char) : Option Nat :=
  if c.isDigit then some (c.toNat - '0'.toNat)
  else if 'a' ≤ c ∧ c ≤ 'f' then some (c.toNat - 'a'.toNat + 10)
  else if 'A' ≤ c ∧ c ≤ 'F' then some (c.toNat - 'A'.toNat + 10)
  else none

def step? (s : Scanner) (c : Char) : Option Scanner :=
  match s.scan with
  | .between => between? s.tokens c
  | .word rest token =>
    match rest with
    | [] => none
    | [d] => if c = d then some { tokens := token :: s.tokens } else none
    | d :: rest => if c = d then some { s with scan := .word rest token } else none
  | .number d lexeme =>
    match d.next? c with
    | some d => some { s with scan := .number d (c :: lexeme) }
    | none => if d.isComplete then between? (.number lexeme.reverse :: s.tokens) c else none
  | .text t =>
    if c = '"' then some { tokens := .text t.reverse :: s.tokens }
    else if c = '\\' then some { s with scan := .escape t }
    else if c.toNat < 0x20 then none
    else some { s with scan := .text (.char c :: t) }
  | .escape t =>
    if c = 'u' then some { s with scan := .code t 0 0 }
    else (escaped? c).map fun c => { s with scan := .text (.char c :: t) }
  | .code t digits value =>
    (hexValue? c).map fun x =>
      if digits = 3 then { s with scan := .text (.ofCode (16 * value + x) :: t) }
      else { s with scan := .code t (digits + 1) (16 * value + x) }

def finish? (s : Scanner) : Option (List Token) :=
  match s.scan with
  | .between => some s.tokens.reverse
  | .number d lexeme =>
    if d.isComplete then some (Token.number lexeme.reverse :: s.tokens).reverse else none
  | _ => none

end Scanner

namespace Token

/-- The tokens that a text consists of, if it does. -/
def ofChars? (cs : List Char) : Option (List Token) := do
  let s ← cs.foldlM Scanner.step? {}
  s.finish?

end Token

end StreamDigest
