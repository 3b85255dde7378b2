import StreamDigest.Json.Reader
import StreamDigest.Policy

namespace StreamDigest

namespace Json

def word? (v : Json) : Option UInt64 := do
  let n ← v.nat?
  if n < UInt64.size then some (UInt64.ofNat n) else none

def names? : Json → Option (Option NameSet)
  | null => some none
  | array items => (items.mapM string?).map fun names => some (NameSet.ofList names)
  | _ => none

def ofNames : Option NameSet → Json
  | none => null
  | some s => array (s.names.map ofString)

/-- Members with their names decoded. -/
def fields? (members : List (Text × Json)) : Option (List (String × Json)) :=
  members.mapM fun (name, v) => name.toString?.map fun name => (name, v)

/-- The value of a member that may be absent but not written twice. -/
def field? {α : Type} (fields : List (String × Json)) (name : String) (read : Json → Option α)
    (absent : α) : Option α :=
  match fields.filter fun f => f.1 = name with
  | [] => some absent
  | [f] => read f.2
  | _ => none

def item? {α : Type} (items : List Json) (i : Nat) (read : Json → Option α) (absent : α) : Option α :=
  match items[i]? with
  | none => some absent
  | some v => read v

end Json

namespace Policy

/-- Absent members keep their defaults, and members with other names are passed over. An array
gives the values in order and may end early. -/
def ofJson? : Json → Option Policy
  | .object members => do
    let fields ← Json.fields? members
    return {
      keyFallback := ← Json.field? fields "allow_key_fallback" Json.bool? true
      minKeyLen := ← Json.field? fields "min_hmac_key_len" Json.word? 0
      maxLive := ← Json.field? fields "max_live_contexts" Json.word? 1024
      allowed := ← Json.field? fields "allowed_algorithms" Json.names? none }
  | .array items =>
    if 4 < items.length then none else do
      return {
        keyFallback := ← Json.item? items 0 Json.bool? true
        minKeyLen := ← Json.item? items 1 Json.word? 0
        maxLive := ← Json.item? items 2 Json.word? 1024
        allowed := ← Json.item? items 3 Json.names? none }
  | _ => none

def toJson (p : Policy) : Json :=
  .object [
    (Text.ofString "allow_key_fallback", .bool p.keyFallback),
    (Text.ofString "min_hmac_key_len", .ofNat p.minKeyLen.toNat),
    (Text.ofString "max_live_contexts", .ofNat p.maxLive.toNat),
    (Text.ofString "allowed_algorithms", .ofNames p.allowed)]

/-- The policy that a document describes, if it is a valid one. -/
def ofDocument (text : String) : Except Fault Policy :=
  match (Json.parse? text).bind ofJson? with
  | none => .error (.invalidOptions .unreadable)
  | some p => p.validate.map fun _ => p

def document (p : Policy) : String :=
  String.ofList p.toJson.render

end Policy

end StreamDigest
