import Baseline.Proofs.Bytes
import Baseline.Proofs.Conversions

/-!
# The bytes of a hex string

`hexToBytes` puts `0x` before every pair of digits and then reads it as a decimal, of which only the
zero before the `x` is left (`hexToBytesLoop_eq`). So the bytes it returns are those of the string
just when they are all zero (`hexToBytes_bytesOf_iff`).
-/

namespace Baseline

namespace Conversions

variable {hex : Str}

/-- The decimals are those of the bytes that the string spells, in either case. -/
def BytesOf (hex : Str) : Prop :=
  ∃ bs : List UInt8, hexToBytes hex = bs.map (fun b => numeral 10 b.toNat) ∧
    toHex bs = (strip0x hex).map Char.toLower

theorem pair_eq_zero {c d : Char} (hd : (hexVal d).isSome) :
    numberText (parseIntStart (ensure0x [c, d]) 10) = ['0'] := by
  have hx : d ≠ 'x' := by
    rintro rfl
    cases hd
  have hpair : ensure0x [c, d] = ['0', 'x', c, d] := by
    unfold ensure0x
    split
    · simp_all
    · rfl
  rw [hpair]
  rfl

theorem hexToBytesLoop_eq : ∀ {hex : Str}, (∀ c ∈ hex, (hexVal c).isSome) → hex.length % 2 = 0 →
    hexToBytesLoop hex = List.replicate (hex.length / 2) ['0']
  | [], _, _ => rfl
  | [c], _, h => by cases h
  | c :: d :: hex, hdigits, heven => by
    simp only [List.forall_mem_cons] at hdigits
    simp only [List.length_cons] at heven ⊢
    rw [hexToBytesLoop, pair_eq_zero hdigits.2.1, hexToBytesLoop_eq hdigits.2.2 (by omega),
      show (hex.length + 1 + 1) / 2 = hex.length / 2 + 1 by omega, List.replicate_succ]

theorem toLower_eq_zero {c : Char} (h : c.toLower = '0') : c = '0' := by
  unfold Char.toLower at h
  split_ifs at h with hupper
  · -- an upper-case letter becomes a letter
    obtain ⟨hA, hZ⟩ := hupper
    have hsum : (c.val + ('a'.val - 'A'.val)).toNat = '0'.val.toNat :=
      congrArg (fun d : Char => d.val.toNat) h
    rw [UInt32.toNat_add] at hsum
    have hA' : 'A'.val.toNat ≤ c.val.toNat := hA
    have hZ' : c.val.toNat ≤ 'Z'.val.toNat := hZ
    have hnums : 'A'.val.toNat = 65 ∧ 'Z'.val.toNat = 90 ∧ '0'.val.toNat = 48 ∧
      ('a'.val - 'A'.val).toNat = 32 := by decide
    omega
  · exact h

theorem toHex_zeros : ∀ n : ℕ, toHex (List.replicate n 0) = List.replicate (2 * n) '0'
  | 0 => rfl
  | n + 1 => by
    rw [List.replicate_succ, toHex, List.flatMap_cons, ← toHex, toHex_zeros n]
    rfl

theorem zeros_of_bytesOf (hdigits : ∀ c ∈ strip0x hex, (hexVal c).isSome)
    (heven : (strip0x hex).length % 2 = 0) (h : BytesOf hex) : ∀ c ∈ strip0x hex, c = '0' := by
  obtain ⟨bs, hbs, htext⟩ := h
  rw [hexToBytes, hexToBytesLoop_eq hdigits heven] at hbs
  have hzero : ∀ b ∈ bs, b = 0 := by
    intro b hb
    have hmem : numeral 10 b.toNat ∈ List.replicate ((strip0x hex).length / 2) ['0'] :=
      hbs ▸ List.mem_map_of_mem hb
    have hvalue := congrArg (valueOf 10) (List.eq_of_mem_replicate hmem)
    rw [valueOf_numeral (by norm_num) (by norm_num)] at hvalue
    exact UInt8.toNat_inj.1 hvalue
  rw [List.eq_replicate_of_mem hzero, toHex_zeros] at htext
  intro c hc
  have hmem : c.toLower ∈ List.replicate (2 * bs.length) '0' := htext ▸ List.mem_map_of_mem hc
  exact toLower_eq_zero (List.eq_of_mem_replicate hmem)

/-- Every byte comes out as zero. -/
theorem hexToBytes_bytesOf_iff (hdigits : ∀ c ∈ strip0x hex, (hexVal c).isSome)
    (heven : (strip0x hex).length % 2 = 0) :
    BytesOf hex ↔ ∀ c ∈ strip0x hex, c = '0' := by
  refine ⟨zeros_of_bytesOf hdigits heven, fun hall => ?_⟩
  refine ⟨List.replicate ((strip0x hex).length / 2) 0, ?_, ?_⟩
  · rw [hexToBytes, hexToBytesLoop_eq hdigits heven, List.map_replicate]
    rfl
  · rw [toHex_zeros, List.eq_replicate_of_mem hall, List.map_replicate, List.length_replicate,
      Nat.mul_div_cancel' (Nat.dvd_of_mod_eq_zero heven)]
    rfl

theorem hexToBytes_bytesOf_zeros : BytesOf "0x0000".toList := by
  have hzeros : ∀ c ∈ strip0x "0x0000".toList, c = '0' :=
    fun c hc => List.eq_of_mem_replicate (show c ∈ List.replicate 4 '0' from hc)
  refine (hexToBytes_bytesOf_iff (fun c hc => ?_) rfl).2 hzeros
  rw [hzeros c hc]
  rfl

theorem hexToBytes_ff : hexToBytes "0xff".toList = ["0".toList] ∧ ¬ BytesOf "0xff".toList := by
  have hdigits : ∀ c ∈ strip0x "0xff".toList, (hexVal c).isSome := by
    intro c hc
    rw [List.eq_of_mem_replicate (show c ∈ List.replicate 2 'f' from hc)]
    rfl
  refine ⟨rfl, fun h => ?_⟩
  exact absurd (zeros_of_bytesOf hdigits rfl h 'f' List.mem_cons_self) (by decide)

end Conversions

end Baseline
