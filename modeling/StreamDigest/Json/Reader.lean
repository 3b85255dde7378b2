import StreamDigest.Json
import StreamDigest.Json.Token

namespace StreamDigest

namespace Json

/-- A container that is still open, with what has been read of it, in reverse. -/
inductive Frame
  | array (items : List Json)
  | object (members : List (Text × Json))
  | member (members : List (Text × Json)) (name : Text)

/-- What may come next. -/
inductive Await
  | value
  | firstItem
  | firstName
  | name
  | colon
  | separator
  | done (v : Json)

structure Reader where
  frames : List Frame := []
  await : Await := .value

namespace Reader

/-- Puts a finished value in its place. -/
def place? (frames : List Frame) (v : Json) : Option Reader :=
  match frames with
  | [] => some ⟨[], .done v⟩
  | .array items :: frames => some ⟨.array (v :: items) :: frames, .separator⟩
  | .member members name :: frames => some ⟨.object ((name, v) :: members) :: frames, .separator⟩
  | .object _ :: _ => none

def start? (frames : List Frame) : Token → Option Reader
  | .null => place? frames .null
  | .bool b => place? frames (.bool b)
  | .number lexeme => place? frames (.number lexeme)
  | .text t => place? frames (.string t)
  | .beginArray => some ⟨.array [] :: frames, .firstItem⟩
  | .beginObject => some ⟨.object [] :: frames, .firstName⟩
  | _ => none

def name? (frames : List Frame) (token : Token) : Option Reader :=
  match frames, token with
  | .object members :: frames, .text t => some ⟨.member members t :: frames, .colon⟩
  | _, _ => none

/-- After a value in a container: its end or a further value. -/
def separate? (frames : List Frame) (token : Token) : Option Reader :=
  match frames, token with
  | .array _ :: _, .comma => some ⟨frames, .value⟩
  | .array items :: frames, .endArray => place? frames (.array items.reverse)
  | .object _ :: _, .comma => some ⟨frames, .name⟩
  | .object members :: frames, .endObject => place? frames (.object members.reverse)
  | _, _ => none

def step? (r : Reader) (token : Token) : Option Reader :=
  match r.await with
  | .value => start? r.frames token
  | .firstItem => if token = .endArray then separate? r.frames token else start? r.frames token
  | .firstName => if token = .endObject then separate? r.frames token else name? r.frames token
  | .name => name? r.frames token
  | .colon => if token = .colon then some ⟨r.frames, .value⟩ else none
  | .separator => separate? r.frames token
  | .done _ => none

def finish? (r : Reader) : Option Json :=
  match r.await with
  | .done v => some v
  | _ => none

end Reader

def ofTokens? (tokens : List Token) : Option Json := do
  let r ← tokens.foldlM Reader.step? {}
  r.finish?

/-- The value that a text spells, with nothing but blanks around it. -/
def parse? (text : String) : Option Json := do
  ofTokens? (← Token.ofChars? text.toList)

end Json

end StreamDigest
