import Mathlib.Data.Nat.Notation

/-!
# Text in UTF-8

Encoding writes a character in one to four bytes. Decoding reads one byte at a time and never
fails: bytes that are no character, up to the first one that rules a character out, are read as
one replacement character, and that byte is read again as the first of the next.

A text that is to fit a number of bytes is cut after the last character that does.
-/

namespace Utf8

def encode (s : List Char) : List UInt8 := s.flatMap String.utf8EncodeChar

/-- The bytes of as many of the first characters as fit whole. -/
def encodeWithin : ℕ → List Char → List UInt8
  | _, [] => []
  | n, c :: s =>
    if (String.utf8EncodeChar c).length ≤ n then
      String.utf8EncodeChar c ++ encodeWithin (n - (String.utf8EncodeChar c).length) s
    else []

/-- Where a decoder is between two bytes. -/
inductive State
  | start
  /-- Inside a character of which so many more bytes follow after the next, which has to be
  within bounds. -/
  | within (more codePoint lower upper : ℕ)
  deriving DecidableEq

/-- U+FFFD. -/
def replacement : Char := Char.ofNat 0xFFFD

/-- The first byte of a character. -/
def first (b : ℕ) : List Char × State :=
  if b ≤ 0x7F then ([Char.ofNat b], .start)
  else if b < 0xC2 then ([replacement], .start)
  else if b ≤ 0xDF then ([], .within 0 (b % 0x20) 0x80 0xBF)
  else if b ≤ 0xEF then
    ([], .within 1 (b % 0x10) (if b = 0xE0 then 0xA0 else 0x80) (if b = 0xED then 0x9F else 0xBF))
  else if b ≤ 0xF4 then
    ([], .within 2 (b % 0x08) (if b = 0xF0 then 0x90 else 0x80) (if b = 0xF4 then 0x8F else 0xBF))
  else ([replacement], .start)

def next : State → ℕ → List Char × State
  | .start, b => first b
  | .within more codePoint lower upper, b =>
    if lower ≤ b ∧ b ≤ upper then
      match more with
      | 0 => ([Char.ofNat (codePoint * 0x40 + b % 0x40)], .start)
      | more + 1 => ([], .within more (codePoint * 0x40 + b % 0x40) 0x80 0xBF)
    else (replacement :: (first b).1, (first b).2)

def decodeFrom : State → List UInt8 → List Char
  | .start, [] => []
  | .within .., [] => [replacement]
  | q, b :: bs => (next q b.toNat).1 ++ decodeFrom (next q b.toNat).2 bs

def decode (bs : List UInt8) : List Char := decodeFrom .start bs

end Utf8
