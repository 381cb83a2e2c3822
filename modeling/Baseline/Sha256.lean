import Baseline.Bytes
import Mathlib.Algebra.Ring.Nat

/-!
# SHA-256

The hash function itself, over byte lists. The development takes sha256 as a parameter; a run on
concrete bytes is evaluated with this one. Words are natural numbers below `2 ^ 32`.
-/

namespace Sha256

open Baseline

/-- The round constants. -/
def K : List ℕ := [
  0x428a2f98, 0x71374491, 0xb5c0fbcf, 0xe9b5dba5, 0x3956c25b, 0x59f111f1, 0x923f82a4, 0xab1c5ed5,
  0xd807aa98, 0x12835b01, 0x243185be, 0x550c7dc3, 0x72be5d74, 0x80deb1fe, 0x9bdc06a7, 0xc19bf174,
  0xe49b69c1, 0xefbe4786, 0x0fc19dc6, 0x240ca1cc, 0x2de92c6f, 0x4a7484aa, 0x5cb0a9dc, 0x76f988da,
  0x983e5152, 0xa831c66d, 0xb00327c8, 0xbf597fc7, 0xc6e00bf3, 0xd5a79147, 0x06ca6351, 0x14292967,
  0x27b70a85, 0x2e1b2138, 0x4d2c6dfc, 0x53380d13, 0x650a7354, 0x766a0abb, 0x81c2c92e, 0x92722c85,
  0xa2bfe8a1, 0xa81a664b, 0xc24b8b70, 0xc76c51a3, 0xd192e819, 0xd6990624, 0xf40e3585, 0x106aa070,
  0x19a4c116, 0x1e376c08, 0x2748774c, 0x34b0bcb5, 0x391c0cb3, 0x4ed8aa4a, 0x5b9cca4f, 0x682e6ff3,
  0x748f82ee, 0x78a5636f, 0x84c87814, 0x8cc70208, 0x90befffa, 0xa4506ceb, 0xbef9a3f7, 0xc67178f2]

def rotr (x n : ℕ) : ℕ := x >>> n ||| (x <<< (32 - n)) % 2 ^ 32

def add32 (x y : ℕ) : ℕ := (x + y) % 2 ^ 32

/-- The working variables. -/
structure State where
  a : ℕ
  b : ℕ
  c : ℕ
  d : ℕ
  e : ℕ
  f : ℕ
  g : ℕ
  h : ℕ

def start : State :=
  ⟨0x6a09e667, 0xbb67ae85, 0x3c6ef372, 0xa54ff53a, 0x510e527f, 0x9b05688c, 0x1f83d9ab, 0x5be0cd19⟩

/-- One round, on a constant and a word of the schedule. -/
def round (s : State) (kw : ℕ × ℕ) : State :=
  let ch := (s.e &&& s.f) ^^^ ((2 ^ 32 - 1 - s.e) &&& s.g)
  let maj := (s.a &&& s.b) ^^^ (s.a &&& s.c) ^^^ (s.b &&& s.c)
  let t₁ := s.h + (rotr s.e 6 ^^^ rotr s.e 11 ^^^ rotr s.e 25) + ch + kw.1 + kw.2
  let t₂ := (rotr s.a 2 ^^^ rotr s.a 13 ^^^ rotr s.a 22) + maj
  ⟨add32 t₁ t₂, s.a, s.b, s.c, add32 s.d t₁, s.e, s.f, s.g⟩

/-- The message schedule: from a window of 16 words so many more. -/
def schedule : ℕ → List ℕ → List ℕ
  | n + 1, w₀ :: w₁ :: ws =>
    let w₁₄ := ws.getD 12 0
    let s₀ := rotr w₁ 7 ^^^ rotr w₁ 18 ^^^ w₁ >>> 3
    let s₁ := rotr w₁₄ 17 ^^^ rotr w₁₄ 19 ^^^ w₁₄ >>> 10
    w₀ :: schedule n (w₁ :: (ws ++ [add32 (w₀ + s₀) (ws.getD 7 0 + s₁)]))
  | _, ws => ws

def compress (s : State) (block : List ℕ) : State :=
  let t := (K.zip (schedule 48 block)).foldl round s
  ⟨add32 s.a t.a, add32 s.b t.b, add32 s.c t.c, add32 s.d t.d, add32 s.e t.e, add32 s.f t.f,
    add32 s.g t.g, add32 s.h t.h⟩

/-- The last `n` bytes of a number, the most significant first. -/
def bigEndian (n x : ℕ) : List UInt8 :=
  (List.range n).map fun i => UInt8.ofNat (x >>> (8 * (n - 1 - i)))

/-- To a multiple of 64 bytes, with the length in bits at the end. -/
def pad (m : List UInt8) : List UInt8 :=
  m ++ (0x80 :: List.replicate ((119 - m.length % 64) % 64) 0) ++ bigEndian 8 (8 * m.length)

def words : List UInt8 → List ℕ
  | a :: b :: c :: d :: bs =>
    (a.toNat * 2 ^ 24 + b.toNat * 2 ^ 16 + c.toNat * 2 ^ 8 + d.toNat) :: words bs
  | _ => []

def blocks : ℕ → List ℕ → State → State
  | 0, _, s => s
  | n + 1, ws, s => blocks n (ws.drop 16) (compress s (ws.take 16))

def digest (m : List UInt8) : Bytes 32 :=
  let s := blocks ((pad m).length / 64) (words (pad m)) start
  ⟨bigEndian 4 s.a ++ bigEndian 4 s.b ++ bigEndian 4 s.c ++ bigEndian 4 s.d ++ bigEndian 4 s.e ++
    bigEndian 4 s.f ++ bigEndian 4 s.g ++ bigEndian 4 s.h, by simp [bigEndian]⟩

/-- The digest of `abc`. -/
example : (digest [0x61, 0x62, 0x63]).1 = [
    0xba, 0x78, 0x16, 0xbf, 0x8f, 0x01, 0xcf, 0xea, 0x41, 0x41, 0x40, 0xde, 0x5d, 0xae, 0x22, 0x23,
    0xb0, 0x03, 0x61, 0xa3, 0x96, 0x17, 0x7a, 0x9c, 0xb4, 0x10, 0xff, 0x61, 0xf2, 0x00, 0x15, 0xad]
    := by decide +kernel

end Sha256
