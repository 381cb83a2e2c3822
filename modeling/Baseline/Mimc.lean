import Baseline.Conversions
import Baseline.Positional

/-!
# The MiMC hash

`utils/hashes/mimc.ts` of the privacy package, over the `keccak` package. A `BigInt` is an integer,
and its `%` takes the sign of the dividend. An error is its message.
-/

namespace Baseline

namespace Mimc

open Conversions

/-! ## `BigInt` -/

/-- What `mimcHash` is called with. -/
inductive Value
  | integer (n : ℤ)
  | text (s : Str)

/-- The white space and line ends that `BigInt` takes off a string. -/
def isSpace (c : Char) : Bool :=
  c.toNat ∈ [0x09, 0x0A, 0x0B, 0x0C, 0x0D, 0x20, 0xA0, 0x1680, 0x2028, 0x2029, 0x202F, 0x205F,
    0x3000, 0xFEFF] ∨ 0x2000 ≤ c.toNat ∧ c.toNat ≤ 0x200A

def trim (s : Str) : Str := ((s.dropWhile isSpace).reverse.dropWhile isSpace).reverse

/-- The number of one digit or more. -/
def digitsToNat (base : ℕ) (s : Str) : Option ℕ :=
  if s = [] then none else (s.mapM fun c => parseInt c base).map (Positional.value base)

/-- Only a decimal may have a sign. -/
def stringToBigInt (s : Str) : Option ℤ :=
  match trim s with
  | [] => some 0
  | '0' :: 'x' :: ds | '0' :: 'X' :: ds => (digitsToNat 16 ds).map fun n => (n : ℤ)
  | '0' :: 'o' :: ds | '0' :: 'O' :: ds => (digitsToNat 8 ds).map fun n => (n : ℤ)
  | '0' :: 'b' :: ds | '0' :: 'B' :: ds => (digitsToNat 2 ds).map fun n => (n : ℤ)
  | '-' :: ds => (digitsToNat 10 ds).map fun n => -(n : ℤ)
  | '+' :: ds => (digitsToNat 10 ds).map fun n => (n : ℤ)
  | ds => (digitsToNat 10 ds).map fun n => (n : ℤ)

def bigInt : Value → Except Str ℤ
  | .integer n => pure n
  | .text s =>
    match stringToBigInt s with
    | some n => pure n
    | none => throw ("Cannot convert ".toList ++ s ++ " to a BigInt".toList)

/-- `n.toString(base)`. -/
def toStringBase (base : ℕ) (n : ℤ) : Str :=
  if n < 0 then '-' :: numeral base n.natAbs else numeral base n.natAbs

/-! ## Modular arithmetic -/

def ZOKRATES_PRIME : ℤ :=
  21888242871839275222246405745257275088548364400416034343698204186575808495617

def addMod (addMe : List ℤ) (m : ℤ) : ℤ := addMe.foldl (fun e acc => (e + acc).tmod m) 0

/-- The `while` of `powerMod`; the first number bounds its turns. -/
def powerModLoop (m : ℤ) : ℕ → ℤ → ℤ → ℤ → ℤ
  | 0, _, _, result => result
  | fuel + 1, e, b, result =>
    if 0 < e then
      let result := if e.tmod 2 = 1 then (result * b).tmod m else result
      powerModLoop m fuel (e / 2) ((b * b).tmod m) result
    else result

/-- For a modulus that is not zero. The exponent is halved at every turn. -/
def powerMod (base exponent m : ℤ) : ℤ :=
  if m = 1 then 0 else powerModLoop m exponent.toNat exponent (base.tmod m) 1

/-- The `while` of `powerMod` cut off after so many turns, `none` if it has not ended by then. -/
def powerModLoopWithin (m : ℤ) : ℕ → ℤ → ℤ → ℤ → Option ℤ
  | 0, e, _, result => if 0 < e then none else some result
  | turns + 1, e, b, result =>
    if 0 < e then
      let result := if e.tmod 2 = 1 then (result * b).tmod m else result
      powerModLoopWithin m turns (e / 2) ((b * b).tmod m) result
    else some result

def powerModWithin (turns : ℕ) (base exponent m : ℤ) : Option ℤ :=
  if m = 1 then some 0 else powerModLoopWithin m turns exponent (base.tmod m) 1

/-! ## The hash -/

section Hash

variable (keccak256 : List UInt8 → Bytes 32)

def keccak256Hash (item : Str) : Str :=
  let preimage := strip0x item
  hexlify (keccak256 (bufferFromHex preimage))

/-- The `for` of `mimcpe7`, so many rounds of it. -/
def mimcpe7Loop (k m : ℤ) : ℕ → ℤ → Str → Except Str ℤ
  | 0, xx, _ => pure xx
  | rounds + 1, xx, c => do
    let c := keccak256Hash keccak256 c
    let t := addMod [xx, ← bigInt (.text c), k] m
    mimcpe7Loop k m rounds (powerMod t 7 m) c

def mimcpe7 (x k : ℤ) (seed : Str) (roundCount : ℕ) (m : ℤ) : Except Str ℤ := do
  let xx ← mimcpe7Loop keccak256 k m roundCount x seed
  return addMod [xx, k] m

/-- The `for` of `mimcpe7mp`. -/
def mimcpe7mpLoop (seed : Str) (roundCount : ℕ) (m : ℤ) : List ℤ → ℤ → Except Str ℤ
  | [], r => pure r
  | xi :: x, r => do
    let hash ← mimcpe7 keccak256 xi r seed roundCount m
    mimcpe7mpLoop seed roundCount m x ((r + xi.tmod m + hash).tmod m)

def mimcpe7mp (x : List ℤ) (k : ℤ) (seed : Str) (roundCount : ℕ) (m : ℤ) : Except Str ℤ :=
  mimcpe7mpLoop keccak256 seed roundCount m x k

/-- The function `mimcHash` maps its arguments by. -/
def toField (e : Value) : Except Str ℤ := do
  let f ← bigInt e
  if ZOKRATES_PRIME < f then throw "MiMC input exceeded prime field size".toList
  return f

def mimcHash (preimage : List Value) : Except Str Str := do
  let mimc := "0x6d696d63".toList
  let x ← preimage.mapM toField
  let r ← mimcpe7mp keccak256 x 0 (keccak256Hash keccak256 mimc) 91 ZOKRATES_PRIME
  return '0' :: 'x' :: padStart (toStringBase 16 r) 64

/-- `merkleHash` cut off where its calls nest deeper than so many, `none` if one does. The numbers
that `slice` is called with are rounded down. -/
def merkleHashWithin : ℕ → List Value → Option (Except Str Str)
  | 0, _ => none
  | calls + 1, leaves =>
    let leafCount := leaves.length
    if leafCount = 2 then some (mimcHash keccak256 leaves)
    else do
      match ← merkleHashWithin calls (leaves.take (leafCount / 2)) with
      | .error e => some (.error e)
      | .ok left =>
        match ← merkleHashWithin calls (leaves.drop (leafCount / 2)) with
        | .error e => some (.error e)
        | .ok right => some (mimcHash keccak256 [.text left, .text right])

end Hash

end Mimc

end Baseline
