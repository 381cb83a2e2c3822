import Baseline.Utils

/-!
# Hashing a document

`concatenateThenHash` of the privacy package, whose arguments are not always strings of hex
digits: the workflow hands it the JSON text of an object, or the object itself.
-/

namespace Baseline

/-! ## JSON -/

/-- What `JSON.stringify` is given here. -/
inductive Json
  | null
  | boolean (b : Bool)
  | number (n : ℕ)
  | string (s : Str)
  | array (elements : List Json)
  | object (properties : List (Str × Json))

namespace Json

/-- A character inside a string. -/
def escape (c : Char) : Str :=
  if c = '"' then ['\\', '"']
  else if c = '\\' then ['\\', '\\']
  else if c.toNat = 8 then ['\\', 'b']
  else if c = '\t' then ['\\', 't']
  else if c = '\n' then ['\\', 'n']
  else if c.toNat = 12 then ['\\', 'f']
  else if c = '\r' then ['\\', 'r']
  else if c.toNat < 32 then ['\\', 'u', '0', '0'] ++ hexByte (UInt8.ofNat c.toNat)
  else [c]

def quote (s : Str) : Str := '"' :: s.flatMap escape ++ ['"']

mutual

/-- `JSON.stringify`. -/
def stringify : Json → Str
  | null => ['n', 'u', 'l', 'l']
  | boolean b => if b then ['t', 'r', 'u', 'e'] else ['f', 'a', 'l', 's', 'e']
  | number n => Nat.toDigits 10 n
  | string s => quote s
  | array elements => '[' :: stringifyElements elements ++ [']']
  | object properties => '{' :: stringifyProperties properties ++ ['}']

def stringifyElements : List Json → Str
  | [] => []
  | [element] => stringify element
  | element :: elements => stringify element ++ ',' :: stringifyElements elements

def stringifyProperties : List (Str × Json) → Str
  | [] => []
  | [(key, value)] => quote key ++ ':' :: stringify value
  | (key, value) :: properties =>
    quote key ++ ':' :: stringify value ++ ',' :: stringifyProperties properties

end

end Json

namespace Privacy

/-- An argument of `concatenateThenHash`. -/
inductive Value
  | undefined
  | string (s : Str)
  | object (properties : List (Str × Json))

/-- What the `toString` of an object returns. -/
def objectText : Str :=
  ['[', 'o', 'b', 'j', 'e', 'c', 't', ' ', 'O', 'b', 'j', 'e', 'c', 't', ']']

def strip0x : Value → Str
  | .undefined => []
  | .string ('0' :: 'x' :: hex) => hex
  | .string hex => hex
  | .object _ => objectText

/-- What `concatenateThenHash` feeds to the hash; reducing no items throws. -/
def preimage (hexValues : List Value) : Option (List UInt8) :=
  match hexValues.map fun item => bufferFromHex (strip0x item) with
  | [] => none
  | item :: items => some (items.foldl (· ++ ·) item)

def concatenateThenHash (sha256 : List UInt8 → Bytes 32) (hexValues : List Value) : Option Str :=
  (preimage hexValues).map fun preimage => hexlify (sha256 preimage)

end Privacy

end Baseline
