import Baseline.Bytes
import Baseline.Positional
import Baseline.Sha256
import Mathlib.Tactic

/-!
# Reading back what was written in hex

The digits of a byte string decode to that byte string, and cutting the last `2 * n` digits off
a longer one leaves the digits of its last `n` bytes: so the truncation the JavaScript side does
on strings is the contract's shift.
-/

namespace Baseline

namespace Bytes

variable {n m : ℕ}

@[ext] theorem ext {a b : Bytes n} (h : a.1 = b.1) : a = b := Subtype.ext h

theorem append_inj {a a' : Bytes n} {b b' : Bytes m} (h : a.append b = a'.append b') :
    a = a' ∧ b = b' := by
  have hl := congrArg Subtype.val h
  obtain ⟨h1, h2⟩ := List.append_inj hl (by rw [a.2, a'.2])
  exact ⟨ext h1, ext h2⟩

/-- Shifting out the first five bytes and keeping 27 leaves the low 27. -/
theorem toBytes27_shl40 (v : Bytes 32) : (shl40 v).toBytes27 = low27 v := by
  apply ext
  have : (v.1.drop 5).length = 27 := by simp [v.2]
  simp only [toBytes27, shl40, low27, List.take_left' this]

@[simp] theorem low27_val (v : Bytes 32) : (low27 v).1 = v.1.drop 5 := rfl

end Bytes

theorem hexVal_digitChar : ∀ {a : ℕ}, a < 16 → hexVal (Nat.digitChar a) = some a := by
  decide

theorem bufferFromHex_hexByte (b : UInt8) (s : Str) :
    bufferFromHex (hexByte b ++ s) = b :: bufferFromHex s := by
  have hlt : b.toNat < 256 := b.toNat_lt
  simp only [hexByte, List.cons_append, List.nil_append, bufferFromHex,
    hexVal_digitChar (show b.toNat / 16 < 16 by omega),
    hexVal_digitChar (show b.toNat % 16 < 16 by omega)]
  rw [Nat.div_add_mod, UInt8.ofNat_toNat]

@[simp] theorem bufferFromHex_toHex : ∀ bs : List UInt8, bufferFromHex (toHex bs) = bs
  | [] => rfl
  | b :: bs => by
    rw [toHex, List.flatMap_cons, bufferFromHex_hexByte, ← toHex, bufferFromHex_toHex bs]

@[simp] theorem length_toHex : ∀ bs : List UInt8, (toHex bs).length = 2 * bs.length
  | [] => rfl
  | b :: bs => by
    rw [toHex, List.flatMap_cons, List.length_append, ← toHex, length_toHex bs, List.length_cons]
    simp only [hexByte, List.length_cons, List.length_nil]
    omega

theorem drop_toHex : ∀ (n : ℕ) (bs : List UInt8), (toHex bs).drop (2 * n) = toHex (bs.drop n)
  | 0, bs => rfl
  | n + 1, [] => rfl
  | n + 1, b :: bs => by
    rw [List.drop_succ_cons, ← drop_toHex n bs, toHex, List.flatMap_cons, ← toHex,
      show 2 * (n + 1) = 2 * n + 2 by ring]
    rfl

@[simp] theorem length_hexlify {n : ℕ} (v : Bytes n) : (hexlify v).length = 2 * n + 2 := by
  simp [hexlify, v.2]

/-- The last 54 characters of a 32-byte value's text are the digits of its low 27 bytes. -/
theorem sliceLast_hexlify32 (v : Bytes 32) :
    sliceLast 54 (hexlify v) = toHex (Bytes.low27 v).1 := by
  rw [sliceLast, length_hexlify, Bytes.low27_val, ← drop_toHex 5 v.1]
  rfl

theorem sliceLast_hexlify27 (v : Bytes 27) : sliceLast 54 (hexlify v) = toHex v.1 := by
  rw [sliceLast, length_hexlify]
  rfl

/-- No digit is an `x`, so the digits of bytes never start with `0x`. -/
theorem toHex_ne_cons_x (bs : List UInt8) (s : Str) : toHex bs ≠ '0' :: 'x' :: s := by
  cases bs with
  | nil => simp [toHex]
  | cons b bs =>
    intro h
    have hlt : b.toNat < 256 := b.toNat_lt
    have hx : Nat.digitChar (b.toNat % 16) = 'x' := by
      simp only [toHex, List.flatMap_cons, hexByte, List.cons_append, List.cons.injEq] at h
      exact h.2.1
    have := hexVal_digitChar (show b.toNat % 16 < 16 by omega)
    rw [hx] at this
    simp [hexVal] at this

/-! ## Bytes as a number -/

section Value

open Positional

/-- The number some bytes spell. -/
def bytesValue (bs : List UInt8) : ℕ := value 256 (bs.map UInt8.toNat)

theorem toNat_lt_of_mem (bs : List UInt8) : ∀ d ∈ bs.map UInt8.toNat, d < 256 := by
  intro d hd
  obtain ⟨b, -, rfl⟩ := List.mem_map.1 hd
  exact b.toNat_lt

theorem bytesValue_lt (bs : List UInt8) : bytesValue bs < 256 ^ bs.length := by
  have h := value_lt (by norm_num) (toNat_lt_of_mem bs)
  rwa [List.length_map] at h

theorem bytesValue_inj {xs ys : List UInt8} (hlen : xs.length = ys.length)
    (h : bytesValue xs = bytesValue ys) : xs = ys := by
  have hmap := value_inj (by norm_num) (by simpa using hlen) (toNat_lt_of_mem xs)
    (toNat_lt_of_mem ys) h
  exact (List.map_injective_iff.2 fun _ _ => UInt8.toNat_inj.1) hmap

theorem bytesValue_append (xs ys : List UInt8) :
    bytesValue (xs ++ ys) = bytesValue xs * 256 ^ ys.length + bytesValue ys := by
  rw [bytesValue, List.map_append, value_append, List.length_map]
  rfl

theorem bigEndian_succ (n x : ℕ) :
    Sha256.bigEndian (n + 1) x = Sha256.bigEndian n (x / 256) ++ [UInt8.ofNat x] := by
  rw [Sha256.bigEndian, Sha256.bigEndian, List.range_succ, List.map_append, List.map_singleton]
  refine congrArg₂ _ (List.map_congr_left fun i hi => ?_) (by simp)
  have hlt := List.mem_range.1 hi
  rw [show 256 = 2 ^ 8 by norm_num, ← Nat.shiftRight_eq_div_pow, ← Nat.shiftRight_add]
  congr 2
  omega

theorem bytesValue_bigEndian : ∀ n x : ℕ, bytesValue (Sha256.bigEndian n x) = x % 256 ^ n
  | 0, x => by simp [Sha256.bigEndian, bytesValue, Nat.mod_one]
  | n + 1, x => by
    have ih := bytesValue_bigEndian n (x / 256)
    rw [bytesValue] at ih
    rw [bigEndian_succ, bytesValue, List.map_append, List.map_singleton, value_concat, ih,
      UInt8.toNat_ofNat', show 2 ^ 8 = 256 by norm_num, pow_succ, mul_comm (256 ^ n), Nat.mod_mul]
    ring

theorem length_bigEndian (n x : ℕ) : (Sha256.bigEndian n x).length = n := by
  simp [Sha256.bigEndian]

/-- Thirty-two bytes in two halves. -/
def halves (v : Bytes 32) : ℕ × ℕ := (bytesValue (v.1.take 16), bytesValue (v.1.drop 16))

theorem halves_lt (v : Bytes 32) : (halves v).1 < 2 ^ 128 ∧ (halves v).2 < 2 ^ 128 := by
  have h1 := bytesValue_lt (v.1.take 16)
  have h2 := bytesValue_lt (v.1.drop 16)
  rw [List.length_take, v.2] at h1
  rw [List.length_drop, v.2] at h2
  exact ⟨h1.trans_le (by norm_num), h2.trans_le (by norm_num)⟩

end Value

end Baseline
