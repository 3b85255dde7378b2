import StreamDigest.Bytes

namespace StreamDigest

/-- A unit of a written string: a character, or one half of a surrogate pair. -/
inductive Piece
  | char (c : Char)
  | surrogate (code : Nat)
  deriving DecidableEq, Repr

/-- A string as it is written. Halves of surrogate pairs may stand alone in it. -/
abbrev Text := List Piece

namespace Piece

/-- The unit that an escape with the hexadecimal value `code` stands for. -/
def ofCode (code : Nat) : Piece :=
  if 0xd800 ≤ code ∧ code < 0xe000 then surrogate code else char (Char.ofNat code)

def isHigh (code : Nat) : Bool :=
  0xd800 ≤ code && code < 0xdc00

def isLow (code : Nat) : Bool :=
  0xdc00 ≤ code && code < 0xe000

def join (high low : Nat) : Char :=
  Char.ofNat (0x10000 + (high - 0xd800) * 0x400 + (low - 0xdc00))

end Piece

namespace Text

def ofString (s : String) : Text :=
  s.toList.map .char

/-- The characters of a text in which the surrogates pair up. -/
def chars? : Text → Option (List Char)
  | [] => some []
  | .char c :: t => (c :: ·) <$> chars? t
  | .surrogate high :: .surrogate low :: t =>
    if Piece.isHigh high && Piece.isLow low then (Piece.join high low :: ·) <$> chars? t else none
  | .surrogate _ :: _ => none

def toString? (t : Text) : Option String :=
  t.chars?.map String.ofList

def hexEscape (code : Nat) : List Char :=
  '\\' :: 'u' :: (Bytes.bigEndian 2 code).flatMap fun x =>
    [Bytes.hexDigit (x.toNat / 16), Bytes.hexDigit (x.toNat % 16)]

/-- Control characters, quotes and backslashes are escaped, in the short form where there is one. -/
def escapeChar (c : Char) : List Char :=
  if c = '"' then ['\\', '"']
  else if c = '\\' then ['\\', '\\']
  else if c = '\x08' then ['\\', 'b']
  else if c = '\t' then ['\\', 't']
  else if c = '\n' then ['\\', 'n']
  else if c = '\x0c' then ['\\', 'f']
  else if c = '\r' then ['\\', 'r']
  else if c.toNat < 0x20 then hexEscape c.toNat
  else [c]

def escapePiece : Piece → List Char
  | .char c => escapeChar c
  | .surrogate code => hexEscape code

def render (t : Text) : List Char :=
  '"' :: t.flatMap escapePiece ++ ['"']

theorem chars?_ofString (s : String) : (ofString s).chars? = some s.toList := by
  have all (l : List Char) : chars? (l.map .char) = some l := by
    induction l with
    | nil => rfl
    | cons c l ih => simp [chars?, ih]
  exact all s.toList

theorem toString?_ofString (s : String) : (ofString s).toString? = some s := by
  simp [toString?, chars?_ofString]

end Text

end StreamDigest
