import Baseline.Conversions

/-!
# Elements

The class of `utils/element.ts` that takes a value of any type for the hex string that is kept of
it. A value is a string, as the list of its characters, so no surrogate stands alone in it.
-/

namespace Baseline

namespace Conversions

inductive ElementType
  | hex
  | integer
  | ascii
  | utf8
  deriving DecidableEq

def inferType (value : Str) : ElementType :=
  if value ≠ [] ∧ value.all Char.isDigit then .integer
  else if value.take 2 = ['0', 'x'] ∨ isHex value then .hex
  else if value.all fun c => c.toNat < 0x80 then .ascii
  else .utf8

structure Element where
  _hex : Str
  limbBitLength : ℕ
  numberOfLimbs : ℕ
  deriving DecidableEq

namespace Element

/-- The constructor, where only the value is given. -/
def new (value : Str) : Except Str Element := do
  let type := inferType value
  if value = [] then throw "Input was empty".toList
  let _hex ← match type with
    | .hex => pure (ensure0x value)
    | .integer => decToHex value
    | .ascii => asciiToHex (Utf16.encode value) 32
    | .utf8 => utf8ToHex (Utf16.encode value) 32
  return { _hex := _hex, limbBitLength := 128, numberOfLimbs := 2 }

variable (e : Element)

def binary : Option Str := hexToBinary e._hex

def bytes : List Str := hexToBytes e._hex

def integer : Option Str := hexToDec e._hex

def ascii : Text := hexToAscii e._hex

def utf8 : Text := hexToUtf8 e._hex

/-- With an octet length of zero or none the string is not padded. -/
def hex (octetLength : ℕ) : Str :=
  if octetLength ≠ 0 then leftPadHex e._hex octetLength else e._hex

def field (limbBitLength numberOfLimbs : Option ℕ) (suppressWarnings : Bool) :
    Except Str (List Str) :=
  hexToFieldLimbs e._hex (limbBitLength.getD e.limbBitLength)
    (some (numberOfLimbs.getD e.numberOfLimbs)) suppressWarnings

end Element

/-- The bits of a limb: `fieldBits || 128`. -/
def limbBits (fieldBits : Option ℕ) : ℕ :=
  match fieldBits with
  | some (n + 1) => n + 1
  | _ => 128

/-- How `ParticipantStack` passes a value to a circuit. -/
def marshalCircuitArg (val : Str) (fieldBits : Option ℕ) : Except Str (List Str) := do
  let el ← Element.new val
  el.field (some (limbBits fieldBits)) (some 1) true

end Conversions

end Baseline
