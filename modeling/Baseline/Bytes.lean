import Mathlib.Data.List.Basic
import Mathlib.Data.Nat.Notation

/-!
# Byte strings and their hex text

The fixed-size byte types of the contracts, and the strings in which the JavaScript side carries
the same bytes: `0x` and two lower-case digits a byte on the way out, and on the way in Node's
`Buffer.from(s, 'hex')`, which reads digits of either case two at a time and stops silently at
the first pair that is not two digits.
-/

namespace Baseline

/-- `bytesN`. -/
def Bytes (n : ℕ) : Type := { l : List UInt8 // l.length = n }

instance (n : ℕ) : DecidableEq (Bytes n) := inferInstanceAs (DecidableEq (Subtype _))

namespace Bytes

variable {n m : ℕ}

/-- `n` zero bytes. -/
def zeros (n : ℕ) : Bytes n := ⟨List.replicate n 0, List.length_replicate⟩

/-- One byte, `n` times. -/
def fill (n : ℕ) (b : UInt8) : Bytes n := ⟨List.replicate n b, List.length_replicate⟩

def append (a : Bytes n) (b : Bytes m) : Bytes (n + m) := ⟨a.1 ++ b.1, by simp [a.2, b.2]⟩

/-- `v << 40`: forty bits are five bytes. -/
def shl40 (v : Bytes 32) : Bytes 32 := ⟨v.1.drop 5 ++ List.replicate 5 0, by simp [v.2]⟩

/-- `bytes27(v)`, which keeps the leading bytes. -/
def toBytes27 (v : Bytes 32) : Bytes 27 := ⟨v.1.take 27, by simp [v.2]⟩

/-- The low 27 bytes. -/
def low27 (v : Bytes 32) : Bytes 27 := ⟨v.1.drop 5, by simp [v.2]⟩

end Bytes

/-- A JavaScript string. Every string here is ASCII, so a character is a code unit. -/
abbrev Str : Type := List Char

/-- The two digits of a byte. -/
def hexByte (b : UInt8) : Str := [Nat.digitChar (b.toNat / 16), Nat.digitChar (b.toNat % 16)]

/-- `buffer.toString('hex')`, and what `digest('hex')` returns. -/
def toHex (bs : List UInt8) : Str := bs.flatMap hexByte

/-- The text of a `bytesN` value as `ethers` decodes it from a log. -/
def hexlify {n : ℕ} (v : Bytes n) : Str := '0' :: 'x' :: toHex v.1

def hexVal (c : Char) : Option ℕ :=
  if '0' ≤ c ∧ c ≤ '9' then some (c.toNat - '0'.toNat)
  else if 'a' ≤ c ∧ c ≤ 'f' then some (c.toNat - 'a'.toNat + 10)
  else if 'A' ≤ c ∧ c ≤ 'F' then some (c.toNat - 'A'.toNat + 10)
  else none

/-- `Buffer.from(s, 'hex')`. -/
def bufferFromHex : Str → List UInt8
  | c :: d :: s =>
    match hexVal c, hexVal d with
    | some a, some b => UInt8.ofNat (16 * a + b) :: bufferFromHex s
    | _, _ => []
  | _ => []

/-- `s.slice(-n)`. -/
def sliceLast (n : ℕ) (s : Str) : Str := s.drop (s.length - n)

end Baseline
