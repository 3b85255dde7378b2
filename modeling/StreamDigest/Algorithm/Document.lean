import StreamDigest.Algorithm
import StreamDigest.Json.Reader

namespace StreamDigest

namespace Algorithm

/-- An algorithm is written as its identifier, which may also be the one member of an object. -/
def ofJson? : Json → Option Algorithm
  | .string t => t.toString?.bind ofIdentifier?
  | .object [(name, .null)] => name.toString?.bind ofIdentifier?
  | _ => none

def ofDocument? (text : String) : Option Algorithm :=
  (Json.parse? text).bind ofJson?

def document (a : Algorithm) : String :=
  String.ofList (Json.ofString a.identifier).render

end Algorithm

end StreamDigest
