import Baseline.Bytes
import Baseline.Positional
import Baseline.Utf16
import Mathlib.Algebra.Ring.Nat

/-!
# Conversions of the privacy package

The part of `utils/conversions.ts` that reads and writes numbers, between any two bases and from a
hex string to limbs of so many bits, and that writes text as hex and reads it back. Digits are kept
in arrays, the least significant first, and numerals the other way round. A numeral is a list of
characters, for no unit of another character is a digit; a text is the list of its code units.
`null` is `none`, and an error is its message.
-/

namespace Baseline

namespace Conversions

/-! ## Digits -/

/-- What a letter or figure counts, in a base that has it. -/
def digit (c : Char) : Option ℕ :=
  if '0' ≤ c ∧ c ≤ '9' then some (c.toNat - '0'.toNat)
  else if 'a' ≤ c ∧ c ≤ 'z' then some (c.toNat - 'a'.toNat + 10)
  else if 'A' ≤ c ∧ c ≤ 'Z' then some (c.toNat - 'A'.toNat + 10)
  else none

/-- `parseInt(c, base)` of one character; `NaN` is `none`. -/
def parseInt (c : Char) (base : ℕ) : Option ℕ :=
  let base := if base = 0 then 10 else base
  if 2 ≤ base ∧ base ≤ 36 then (digit c).filter (· < base) else none

def digitChar (d : ℕ) : Char :=
  if d < 10 then Char.ofNat ('0'.toNat + d) else Char.ofNat ('a'.toNat + (d - 10))

/-- The digits of a number that can be divided so often, the least significant first. -/
def digitsWithin (base : ℕ) : ℕ → ℕ → List ℕ
  | 0, _ => []
  | fuel + 1, n => if n = 0 then [] else n % base :: digitsWithin base fuel (n / base)

/-- `n.toString(base)`, for a base between 2 and 36. -/
def numeral (base n : ℕ) : Str :=
  if n = 0 then ['0'] else (digitsWithin base n n).reverse.map digitChar

/-! ## From base to base -/

def parseToDigitsArray (str : Str) (base : ℕ) : Option (List ℕ) :=
  str.reverse.mapM fun c => parseInt c base

/-- The `while` of `add` once one array is used up; in the end the carry is written out. -/
def carryLoop (base : ℕ) : ℕ → List ℕ → List ℕ
  | carry, [] => digitsWithin base carry carry
  | carry, xi :: x => (carry + xi) % base :: carryLoop base ((carry + xi) / base) x

def addLoop (base : ℕ) : ℕ → List ℕ → List ℕ → List ℕ
  | carry, [], y => carryLoop base carry y
  | carry, xi :: x, [] => carryLoop base carry (xi :: x)
  | carry, xi :: x, yi :: y =>
    (carry + xi + yi) % base :: addLoop base ((carry + xi + yi) / base) x y

def add (x y : List ℕ) (base : ℕ) : List ℕ := addLoop base 0 x y

/-- The `while` of `multiplyByNumber`; the first argument bounds its turns. -/
def multiplyLoop (base : ℕ) : ℕ → ℕ → List ℕ → List ℕ → List ℕ
  | 0, _, result, _ => result
  | fuel + 1, num, result, power =>
    let result := if num % 2 = 1 then add result power base else result
    if num / 2 = 0 then result
    else multiplyLoop base fuel (num / 2) result (add power power base)

/-- Of a number that is not negative; it is halved at every turn. -/
def multiplyByNumber (num : ℕ) (x : List ℕ) (base : ℕ) : List ℕ :=
  if num = 0 then [] else multiplyLoop base num num [] x

/-- The `for` of `convertBase`, with `outArray` and `power`. -/
def convertLoop (fromBase toBase : ℕ) : List ℕ → List ℕ → List ℕ → List ℕ
  | [], outArray, _ => outArray
  | digit :: digits, outArray, power =>
    convertLoop fromBase toBase digits
      (if digit ≠ 0 then add outArray (multiplyByNumber digit power toBase) toBase else outArray)
      (multiplyByNumber fromBase power toBase)

def convertBase (str : Str) (fromBase toBase : ℕ) : Option Str := do
  let digits ← parseToDigitsArray str fromBase
  let outArray := convertLoop fromBase toBase digits [] [1]
  let out := outArray.reverse.flatMap (numeral toBase)
  return if out = [] ∧ digits.sum = 0 then ['0'] else out

/-! ## Hex values -/

def strip0x : Str → Str
  | '0' :: 'x' :: hex => hex
  | hex => hex

def ensure0x : Str → Str
  | '0' :: 'x' :: hex => '0' :: 'x' :: hex
  | hex => '0' :: 'x' :: hex

def isHex (value : Str) : Bool :=
  strip0x value ≠ [] ∧ (strip0x value).all fun c => (hexVal c).isSome

def requireHex (value : Str) : Except Str Unit :=
  if isHex value then pure () else throw "value is not hex".toList

/-- `s.padStart(n, '0')`, and as well `s.padStart(n, '00')`, which cuts the last `'00'` to fit. -/
def padStart (s : Str) (n : ℕ) : Str := List.replicate (n - s.length) '0' ++ s

/-! ## Text as hex -/

/-- A JavaScript string of any code units. -/
abbrev Text : Type := List UInt16

def tooLong : Str := "String is to long, try increasing the length of the output hex".toList

def utf8ToHex (str : Text) (outLengthBytes : ℕ) : Except Str Str :=
  let outLength := outLengthBytes * 2
  let buf := Utf8.encode (Utf16.decode str)
  let hex := toHex buf
  if outLength < hex.length then throw tooLong
  else pure (ensure0x (padStart hex outLength))

/-- `hex.replace(/00/g, '')`, which goes on behind what it takes out. -/
def deletePairs : Str → Str
  | '0' :: '0' :: hex => deletePairs hex
  | c :: hex => c :: deletePairs hex
  | [] => []

def hexToUtf8 (hex : Str) : Text :=
  let cleanHex := deletePairs (strip0x hex)
  let buf := bufferFromHex cleanHex
  Utf16.encode (Utf8.decode buf)

/-- `Buffer.from(str, 'ascii')` keeps the low byte of a unit. -/
def asciiToHex (str : Text) (outLengthBytes : ℕ) : Except Str Str :=
  let outLength := outLengthBytes * 2
  let buf := str.map fun u => UInt8.ofNat u.toNat
  let hex := toHex buf
  if outLength < hex.length then throw tooLong
  else pure (ensure0x (padStart hex outLength))

/-- `buf.toString('ascii')` clears the high bit of a byte. -/
def hexToAscii (hex : Str) : Text :=
  let cleanHex := deletePairs (strip0x hex)
  let buf := bufferFromHex cleanHex
  buf.map fun b => UInt16.ofNat (b.toNat % 0x80)

/-! ## Between binary, decimal and hex -/

/-- What calls a method of `null` throws, and else has the string. -/
def toStringOf : Option Str → Except Str Str
  | some s => pure s
  | none => throw "Cannot read property 'toString' of null".toList

def hexToDec : Str → Option Str
  | '0' :: 'x' :: hex => convertBase (hex.map Char.toLower) 16 10
  | hexStr => convertBase (hexStr.map Char.toLower) 16 10

def decToHex (decStr : Str) : Except Str Str := do
  return ensure0x (← toStringOf (convertBase decStr 10 16))

/-- Padded to so many digits. -/
def leftPadHex (hexStr : Str) (n : ℕ) : Str := ensure0x (padStart (strip0x hexStr) n)

/-! ## Limbs -/

def hexToBinary (hex : Str) : Option Str := convertBase (strip0x hex) 16 2

/-- `parseInt(s, base)` of a text without white space or a sign in front, for a base that has no
prefix: the number of the digits it starts with. `NaN` is `none`. -/
def parseIntStart (s : Str) (base : ℕ) : Option ℕ :=
  let ds := s.takeWhile fun c => (parseInt c base).isSome
  if ds = [] then none else (ds.mapM fun c => parseInt c base).map (Positional.value base)

def numberText : Option ℕ → Str
  | some n => numeral 10 n
  | none => "NaN".toList

/-- The second digit of the last pair may be missing, and is then the text of `undefined`. -/
def hexToBytesLoop : Str → List Str
  | c :: d :: hex => numberText (parseIntStart (ensure0x [c, d]) 10) :: hexToBytesLoop hex
  | [c] => [numberText (parseIntStart (ensure0x (c :: "undefined".toList)) 10)]
  | [] => []

def hexToBytes (hex : Str) : List Str := hexToBytesLoop (strip0x hex)

def leftPadBits (bitStr : Str) (n : ℕ) : Except Str Str :=
  let len := bitStr.length
  if len > n then
    throw ("String larger than ".toList ++ numeral 10 n ++
      " bits passed to leftPadBitsN".toList)
  else if len = n then pure bitStr
  else pure (padStart bitStr n)

/-- `splitAndPadBits` with room for so many nested calls. -/
def splitAndPadBitsWithin : ℕ → Str → ℕ → Except Str (List Str)
  | 0, _, _ => throw "Maximum call stack size exceeded".toList
  | calls + 1, bitStr, n => do
    let len := bitStr.length
    if len ≤ n then
      return [← leftPadBits bitStr n]
    else
      -- `slice(-0)` is the whole string, but then the call above this one never returns
      let nStr := sliceLast n bitStr
      let remainderStr := bitStr.take (len - n)
      return (← splitAndPadBitsWithin calls remainderStr n) ++ [nStr]

/-- Every call is about a shorter string, unless there are no bits to a chunk. -/
def splitAndPadBits (bitStr : Str) (n : ℕ) : Except Str (List Str) :=
  splitAndPadBitsWithin (bitStr.length + 1) bitStr n

/-- What reads a property of `null` throws, and else has the string. -/
def notNull : Option Str → Except Str Str
  | some s => pure s
  | none => throw "Cannot read property 'length' of null".toList

def splitHexToBits (hexStr : Str) (n : ℕ) : Except Str (List Str) := do
  let strippedHexStr := strip0x hexStr
  let bitStr ← notNull (hexToBinary strippedHexStr)
  splitAndPadBits bitStr n

def binToDec (binStr : Str) : Option Str := convertBase binStr 2 10

/-- `${arr}`. -/
def joined (arr : List Str) : Str := [','].intercalate arr

def overflowMessage (decArr : List Str) (numberOfLimbs : ℕ) : Str :=
  "Field split into an array of ".toList ++ numeral 10 decArr.length ++ " limbs: ".toList ++
    joined decArr ++
    "\n          , but this exceeds the requested number of limbs of ".toList ++
    numeral 10 numberOfLimbs ++
    (". Data would have been lost; possibly unexpectedly. To silence this warning, " ++
      "pass '1' or 'true' as the final parameter.").toList

/-- The limbs cut or filled up to the number asked for, which may be `undefined`. -/
def fitLimbs (decArr : List Str) (numberOfLimbs : Option ℕ) (silenceWarnings : Bool) :
    Except Str (List Str) :=
  match numberOfLimbs with
  | none => pure decArr
  | some numberOfLimbs =>
    if numberOfLimbs < decArr.length then
      let overflow := decArr.length - numberOfLimbs
      if ¬silenceWarnings then throw (overflowMessage decArr numberOfLimbs)
      else pure (decArr.drop overflow)
    else
      let missing := numberOfLimbs - decArr.length
      pure (List.replicate missing ['0'] ++ decArr)

def hexToFieldLimbs (hexStr : Str) (limbBitLength : ℕ) (numberOfLimbs : Option ℕ)
    (silenceWarnings : Bool) : Except Str (List Str) := do
  requireHex hexStr
  let bitsArr ← splitHexToBits hexStr limbBitLength
  -- a chunk of bits always has a decimal
  let decArr ← bitsArr.mapM fun item => notNull (binToDec item)
  fitLimbs decArr numberOfLimbs silenceWarnings

end Conversions

end Baseline
