import StreamDigest.Algorithm
import StreamDigest.Fault

namespace StreamDigest

namespace Algorithm

/-- The spellings that a name is looked up under, without separators and in upper case. -/
def aliases : Algorithm → List String
  | sha1 => ["SHA1", "SHA"]
  | sha256 => ["SHA256"]
  | sha384 => ["SHA384"]
  | sha512 => ["SHA512"]
  | blake2b => ["BLAKE2B256", "BLAKE2B"]
  | hmacSha1 => ["HMACSHA1", "HS1"]
  | hmacSha256 => ["HMACSHA256", "HS256"]
  | hmacSha384 => ["HMACSHA384", "HS384"]
  | hmacSha512 => ["HMACSHA512", "HS512"]
  | blake2bMac => ["BLAKE2BMAC256", "BLAKE2BMAC"]

def isSeparator (c : Char) : Bool :=
  c = '-' || c = '_' || c = '/' || c = ' '

/-- Drops separators and raises the ASCII letters; other characters stay as they are. -/
def normalize (name : String) : String :=
  String.ofList ((name.toList.filter fun c => !isSeparator c).map Char.toUpper)

def lookup (name : String) : Option Algorithm :=
  all.find? fun a => a.aliases.contains (normalize name)

def named (name : String) : Except Fault Algorithm :=
  match lookup name with
  | some a => .ok a
  | none => .error (.unsupportedAlgorithm name)

/-- Where a text is read as an algorithm, it is a name. -/
def ofString (text : String) : Except Fault Algorithm :=
  named text

end Algorithm

end StreamDigest
