import StreamDigest.Json.Text

namespace StreamDigest

/-- A JSON value as it is written: numbers keep their spelling, and members their order. -/
inductive Json
  | null
  | bool (b : Bool)
  | number (lexeme : List Char)
  | string (t : Text)
  | array (items : List Json)
  | object (members : List (Text × Json))

namespace Json

def ofNat (n : Nat) : Json :=
  number (Nat.toDigits 10 n)

def ofString (s : String) : Json :=
  string (Text.ofString s)

def bool? : Json → Option Bool
  | bool b => some b
  | _ => none

def decimal (digits : List Char) : Nat :=
  digits.foldl (fun n c => 10 * n + (c.toNat - '0'.toNat)) 0

/-- A number that is written with digits alone. -/
def nat? : Json → Option Nat
  | number lexeme => if lexeme.all Char.isDigit then some (decimal lexeme) else none
  | _ => none

def string? : Json → Option String
  | string t => t.toString?
  | _ => none

mutual

/-- The value without blanks between its tokens. -/
def render : Json → List Char
  | null => ['n', 'u', 'l', 'l']
  | bool true => ['t', 'r', 'u', 'e']
  | bool false => ['f', 'a', 'l', 's', 'e']
  | number lexeme => lexeme
  | string t => t.render
  | array items => '[' :: renderItems items
  | object members => '\x7b' :: renderMembers members

def renderItems : List Json → List Char
  | [] => [']']
  | [v] => v.render ++ [']']
  | v :: items => v.render ++ ',' :: renderItems items

def renderMembers : List (Text × Json) → List Char
  | [] => ['\x7d']
  | [(name, v)] => name.render ++ ':' :: v.render ++ ['\x7d']
  | (name, v) :: members => name.render ++ ':' :: v.render ++ ',' :: renderMembers members

end

end Json

end StreamDigest
