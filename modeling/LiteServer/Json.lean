import LiteServer.Message

/-!
# JSON values

The values of `serde_json`, with the accessors the server calls on them. A number keeps the form
`serde_json` parsed it into, and an object keeps its members in key order, as the map behind it
does.

Parsing and printing are the library's own, and so are the word class of its regular expressions,
base64 and the grammar of header names: they are the fields of `Externals`, with the one property
of the word class that the reference grammar rests on.
-/

namespace LiteServer

/-- A JSON number: an integer that fits `u64`, a negative one that fits `i64`, or the bits of a
finite `f64`. -/
inductive JsonNumber where
  | posInt (n : UInt64)
  | negInt (n : Int64)
  | float (bits : UInt64)
  deriving DecidableEq, Repr

/-- A JSON value. -/
inductive Json where
  | null
  | bool (b : Bool)
  | number (n : JsonNumber)
  | string (s : String)
  | array (items : List Json)
  | object (members : List (String × Json))
  deriving Repr

/-- `PartialEq` of numbers: forms are compared apart, and the two zeros of `f64` are equal. -/
def JsonNumber.eq : JsonNumber → JsonNumber → Bool
  | .float a, .float b => a = b || (a % 0x8000000000000000 = 0 && b % 0x8000000000000000 = 0)
  | m, n => m = n

namespace Json

mutual

/-- `PartialEq` of values. -/
def eq : Json → Json → Bool
  | .null, .null => true
  | .bool a, .bool b => a = b
  | .number m, .number n => m.eq n
  | .string s, .string t => s = t
  | .array xs, .array ys => eqItems xs ys
  | .object ms, .object ns => eqMembers ms ns
  | _, _ => false

/-- Items are compared one by one. -/
def eqItems : List Json → List Json → Bool
  | [], [] => true
  | x :: xs, y :: ys => eq x y && eqItems xs ys
  | _, _ => false

/-- Members are compared one by one. -/
def eqMembers : List (String × Json) → List (String × Json) → Bool
  | [], [] => true
  | (k, x) :: ms, (l, y) :: ns => k = l && eq x y && eqMembers ms ns
  | _, _ => false

end

/-- `Value::get` at a key: a member of an object. -/
def get : Json → String → Option Json
  | .object members, key => members.lookup key
  | _, _ => none

/-- The members of an object. -/
def asObject : Json → Option (List (String × Json))
  | .object members => some members
  | _ => none

/-- The items of an array. -/
def asArray : Json → Option (List Json)
  | .array items => some items
  | _ => none

/-- The text of a string. -/
def asStr : Json → Option String
  | .string s => some s
  | _ => none

/-- The number, if it is a `u64`. -/
def asU64 : Json → Option UInt64
  | .number (.posInt n) => some n
  | _ => none

/-- The value is an array. -/
def isArray (v : Json) : Bool := v.asArray.isSome

end Json

/-- What the server takes from libraries. -/
structure Externals where
  /-- The class `\w` of the regular expressions. -/
  wordChar : Char → Bool
  wordChar_ascii : ∀ c : Char, c.val < 128 → wordChar c = (c.isAlphanum || c = '_')
  /-- `serde_json::from_slice::<Value>`, with the text of its error. -/
  jsonFromSlice : Bytes → Except String Json
  /-- `serde_json::from_str::<Value>`. -/
  jsonFromStr : String → Except String Json
  /-- `serde_json::from_slice::<&RawValue>`: is the buffer well-formed JSON? -/
  rawFromSlice : Bytes → Except String Unit
  /-- `RawValue::from_string` of a buffer read as UTF-8. -/
  rawFromLossy : Bytes → Except String Unit
  /-- `to_value` of that raw value, which parses its text. -/
  rawToValue : Bytes → Except String Json
  /-- `Display` of a value. -/
  jsonText : Json → String
  /-- The serialized bytes of a value, and of a string as a JSON key. -/
  jsonToVec : Json → Bytes
  keyToVec : String → Bytes
  /-- The standard base64 decoder. -/
  base64Decode : String → Except String Bytes
  /-- `HeaderName::from_bytes`: is the text a header name? -/
  headerName : String → Bool

/-- Libraries for small examples: ASCII words, and a JSON reader that knows the empty object. -/
def plainExternals : Externals where
  wordChar c := c.isAlphanum || c = '_'
  wordChar_ascii _ _ := rfl
  jsonFromSlice b := if b = [123, 125] then .ok (.object []) else .error "expected value"
  jsonFromStr s := if s = "\x7b\x7d" then .ok (.object []) else .error "expected value"
  rawFromSlice b := if b = [123, 125] then .ok () else .error "expected value"
  rawFromLossy b := if b = [123, 125] then .ok () else .error "expected value"
  rawToValue b := if b = [123, 125] then .ok (.object []) else .error "expected value"
  jsonText _ := "\x7b\x7d"
  jsonToVec _ := [123, 125]
  keyToVec s := [34] ++ s.toUTF8.toList ++ [34]
  base64Decode _ := .ok []
  headerName s := s ≠ ""

end LiteServer
