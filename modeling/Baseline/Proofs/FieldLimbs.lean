import Baseline.Proofs.Conversions
import Mathlib.Data.Nat.Size

/-!
# The limbs of a hex value

The bits of a number are its binary numeral (`hexToBinary_of_isHex`), which is cut from its end
into chunks of one length, the first of them filled up with zeros (`splitAndPadBitsWithin_ok`).
A chunk's decimal is a digit of the number in base `2 ^ n` (`value_chunks`), and filling up or
cutting the list of them keeps the number or its low digits (`fitLimbs_some`).
-/

namespace Baseline

namespace Conversions

variable {s hexStr bitStr : Str} {n v : ℕ}

/-! ## Hex strings -/

theorem digit_of_hexVal {c : Char} (hc : (hexVal c).isSome) : ∃ d < 16, digit c = some d := by
  have h09 : '0'.toNat = 48 ∧ '9'.toNat = 57 := by decide
  have haf : 'a'.toNat = 97 ∧ 'f'.toNat = 102 ∧ 'z'.toNat = 122 := by decide
  have hAF : 'A'.toNat = 65 ∧ 'F'.toNat = 70 ∧ 'Z'.toNat = 90 := by decide
  have hle : ∀ a b : Char, a ≤ b ↔ a.toNat ≤ b.toNat := fun a b => Iff.rfl
  unfold hexVal at hc
  unfold digit
  simp only [hle] at hc ⊢
  split_ifs at hc with h1 h2 h3
  · rw [if_pos h1]
    exact ⟨_, by omega, rfl⟩
  · rw [if_neg h1, if_pos (by omega)]
    exact ⟨_, by omega, rfl⟩
  · rw [if_neg h1, if_neg (by omega), if_pos (by omega)]
    exact ⟨_, by omega, rfl⟩
  · cases hc

theorem strip0x_of_hex (hs : ∀ c ∈ s, (hexVal c).isSome) : strip0x s = s := by
  unfold strip0x
  split
  · exact absurd (hs 'x' (by simp)) (by decide)
  · rfl

theorem requireHex_of_isHex (hs : isHex s) : requireHex s = .ok () := by
  rw [requireHex, if_pos hs]
  rfl

theorem isNumeral_of_isHex (hs : isHex s) :
    IsNumeral 16 (strip0x s) ∧ strip0x (strip0x s) = strip0x s := by
  have h : strip0x s ≠ [] ∧ ∀ c ∈ strip0x s, (hexVal c).isSome := by simpa [isHex] using hs
  exact ⟨fun c hc => digit_of_hexVal (h.2 c hc), strip0x_of_hex h.2⟩

theorem hexToBinary_of_isHex (hs : isHex s) :
    hexToBinary (strip0x s) = some (numeral 2 (valueOf 16 (strip0x s))) := by
  obtain ⟨hdigits, hstrip⟩ := isNumeral_of_isHex hs
  rw [hexToBinary, hstrip, convertBase_of_isNumeral (by omega) (by omega) (by omega) hdigits]

/-! ## Chunks of bits -/

theorem leftPadBits_of_le (h : bitStr.length ≤ n) :
    leftPadBits bitStr n = .ok (padStart bitStr n) := by
  unfold leftPadBits padStart
  simp only [gt_iff_lt]
  rw [if_neg (by omega)]
  split_ifs with hlen
  · rw [← hlen, Nat.sub_self]
    rfl
  · rfl

/-- Chunks of `n` bits, which hold the bits behind some zeros. -/
structure Chunks (n : ℕ) (bitStr : Str) (chunks : List Str) : Prop where
  count : chunks.length = (bitStr.length + n - 1) / n
  length : ∀ chunk ∈ chunks, chunk.length = n
  bits : ∃ pad, chunks.flatten = List.replicate pad '0' ++ bitStr

theorem splitAndPadBitsWithin_ok (hn : 0 < n) : ∀ calls bitStr, 0 < bitStr.length →
    bitStr.length < calls →
    ∃ chunks, splitAndPadBitsWithin calls bitStr n = .ok chunks ∧ Chunks n bitStr chunks
  | 0, bitStr, _, h => absurd h (Nat.not_lt_zero _)
  | calls + 1, bitStr, hpos, hcalls => by
    unfold splitAndPadBitsWithin
    simp only
    split_ifs with hlen
    · rw [leftPadBits_of_le hlen]
      refine ⟨[padStart bitStr n], rfl, ?_, ?_, n - bitStr.length, ?_⟩
      · rw [Nat.div_eq_of_lt_le (k := 1) (by omega) (by omega)]
        rfl
      · simp [padStart]
        omega
      · simp [padStart]
    · have hrest : (bitStr.take (bitStr.length - n)).length = bitStr.length - n := by
        rw [List.length_take]
        omega
      obtain ⟨chunks, hok, hcount, hlength, pad, hbits⟩ := splitAndPadBitsWithin_ok hn calls
        (bitStr.take (bitStr.length - n)) (by omega) (by omega)
      refine ⟨chunks ++ [sliceLast n bitStr], ?_, ?_, ?_, pad, ?_⟩
      · rw [hok]
        rfl
      · have hsplit : bitStr.length + n - 1 = bitStr.length - n + n - 1 + n := by omega
        rw [List.length_append, hcount, hrest, List.length_singleton, hsplit,
          Nat.add_div_right _ hn]
      · intro chunk hchunk
        rcases List.mem_append.1 hchunk with h | h
        · exact hlength chunk h
        · rw [List.mem_singleton.1 h, sliceLast, List.length_drop]
          omega
      · rw [List.flatten_append, hbits, List.flatten_singleton, sliceLast, List.append_assoc,
          List.take_append_drop]

theorem Chunks.isNumeral {chunks : List Str} (h : Chunks n bitStr chunks)
    (hbits : IsNumeral 2 bitStr) : ∀ chunk ∈ chunks, IsNumeral 2 chunk := by
  intro chunk hchunk c hc
  obtain ⟨pad, hflat⟩ := h.bits
  have hmem : c ∈ List.replicate pad '0' ++ bitStr := by
    rw [← hflat]
    exact List.mem_flatten.2 ⟨chunk, hchunk, hc⟩
  rcases List.mem_append.1 hmem with h | h
  · rw [List.eq_of_mem_replicate h]
    exact ⟨0, by omega, rfl⟩
  · exact hbits c h

theorem valueOf_lt {base : ℕ} (hb : 1 < base) (hs : IsNumeral base s) :
    valueOf base s < base ^ s.length := by
  rw [← List.length_map (fun c => (digit c).getD 0)]
  refine Positional.value_lt hb fun d hd => ?_
  obtain ⟨c, hc, rfl⟩ := List.mem_map.1 hd
  obtain ⟨e, he, hdigit⟩ := hs c hc
  rwa [hdigit]

/-- The chunks are the digits of the number in base `2 ^ n`. -/
theorem Chunks.value {chunks : List Str} (h : Chunks n bitStr chunks) :
    Positional.value (2 ^ n) (chunks.map (valueOf 2)) = valueOf 2 bitStr := by
  obtain ⟨pad, hflat⟩ := h.bits
  have hlen : ∀ ds ∈ chunks.map (List.map fun c => (digit c).getD 0), ds.length = n := by
    intro ds hds
    obtain ⟨chunk, hchunk, rfl⟩ := List.mem_map.1 hds
    rw [List.length_map, h.length chunk hchunk]
  have hzero : (digit '0').getD 0 = 0 := rfl
  calc Positional.value (2 ^ n) (chunks.map (valueOf 2))
      = Positional.value 2 (chunks.map (List.map fun c => (digit c).getD 0)).flatten := by
        rw [Positional.value_flatten hlen, List.map_map]
        rfl
    _ = valueOf 2 (List.replicate pad '0' ++ bitStr) := by
        rw [← List.map_flatten, hflat]
        rfl
    _ = valueOf 2 bitStr := by
        rw [valueOf, List.map_append, List.map_replicate, hzero, Positional.value_zeros_append]
        rfl

/-! ## Limbs -/

/-- So many decimals, the digits of `v` in base `2 ^ n`. -/
structure IsLimbs (n count v : ℕ) (limbs : List Str) : Prop where
  count : limbs.length = count
  canonical : ∀ limb ∈ limbs, Canonical 10 limb
  lt : ∀ limb ∈ limbs, valueOf 10 limb < 2 ^ n
  value : Positional.value (2 ^ n) (limbs.map (valueOf 10)) = v

theorem decimals_ok {chunks : List Str} (h : ∀ chunk ∈ chunks, IsNumeral 2 chunk) :
    (chunks.mapM fun item => notNull (binToDec item) : Except Str (List Str))
      = .ok (chunks.map fun chunk => numeral 10 (valueOf 2 chunk)) := by
  induction chunks with
  | nil => rfl
  | cons chunk chunks ih =>
    have hdec : binToDec chunk = some (numeral 10 (valueOf 2 chunk)) :=
      convertBase_of_isNumeral (by omega) (by omega) (by omega) (h chunk (List.mem_cons_self ..))
    rw [List.mapM_cons, ih fun c hc => h c (List.mem_cons_of_mem _ hc), hdec]
    rfl

theorem length_numeral_two {v : ℕ} (hv : v ≠ 0) : (numeral 2 v).length = Nat.size v := by
  rw [numeral_of_ne_zero (by omega) hv, List.length_map, List.length_reverse]
  exact eq_of_forall_ge_iff fun k => by rw [Nat.digits_length_le_iff (by omega), Nat.size_le]

/-- The limbs before they are fitted to a number of them. -/
theorem splitHexToBits_isLimbs (hs : isHex hexStr) (hn : 0 < n) :
    ∃ bitsArr, splitHexToBits hexStr n = .ok bitsArr ∧ (∀ item ∈ bitsArr, IsNumeral 2 item) ∧
      IsLimbs n (max 1 ((Nat.size (valueOf 16 (strip0x hexStr)) + n - 1) / n))
        (valueOf 16 (strip0x hexStr))
        (bitsArr.map fun chunk => numeral 10 (valueOf 2 chunk)) := by
  have hv := hexToBinary_of_isHex hs
  generalize valueOf 16 (strip0x hexStr) = v at hv ⊢
  have hnum : IsNumeral 2 (numeral 2 v) := isNumeral_numeral (by omega) (by omega) v
  have hpos : 0 < (numeral 2 v).length :=
    List.length_pos_of_ne_nil (numeral_ne_nil (by omega) v)
  obtain ⟨chunks, hok, hchunks⟩ := splitAndPadBitsWithin_ok hn _ _ hpos (Nat.lt_succ_self _)
  refine ⟨chunks, ?_, hchunks.isNumeral hnum, ?_, ?_, ?_, ?_⟩
  · simp only [splitHexToBits, hv]
    exact hok
  · rw [List.length_map, hchunks.count]
    by_cases h : v = 0
    · subst h
      have h1 : (numeral 2 0).length = 1 := rfl
      rw [h1, Nat.add_comm 1 n, Nat.add_sub_cancel, Nat.div_self hn, Nat.size_zero,
        Nat.div_eq_of_lt (by omega)]
      rfl
    · rw [length_numeral_two h] at hpos ⊢
      have : 1 ≤ (v.size + n - 1) / n := (Nat.le_div_iff_mul_le hn).2 (by omega)
      omega
  · intro limb hlimb
    obtain ⟨chunk, -, rfl⟩ := List.mem_map.1 hlimb
    exact numeral_canonical (by omega) (by omega) _
  · intro limb hlimb
    obtain ⟨chunk, hchunk, rfl⟩ := List.mem_map.1 hlimb
    rw [valueOf_numeral (by omega) (by omega), ← hchunks.length chunk hchunk]
    exact valueOf_lt (by omega) (hchunks.isNumeral hnum chunk hchunk)
  · have hid : ∀ chunk ∈ chunks, (valueOf 10 ∘ fun chunk => numeral 10 (valueOf 2 chunk)) chunk
        = valueOf 2 chunk := fun chunk _ => valueOf_numeral (by omega) (by omega) _
    rw [List.map_map, List.map_congr_left hid, hchunks.value,
      valueOf_numeral (by omega) (by omega)]

/-- Zeros in front keep the number. -/
theorem IsLimbs.fill {count : ℕ} {limbs : List Str} (h : IsLimbs n count v limbs) (missing : ℕ) :
    IsLimbs n (missing + count) v (List.replicate missing ['0'] ++ limbs) := by
  have hzero : valueOf 10 ['0'] = 0 := rfl
  refine ⟨?_, ?_, ?_, ?_⟩
  · rw [List.length_append, List.length_replicate, h.count]
  · intro limb hlimb
    rcases List.mem_append.1 hlimb with hl | hl
    · rw [List.eq_of_mem_replicate hl]
      exact numeral_canonical (by omega) (by omega) 0
    · exact h.canonical limb hl
  · intro limb hlimb
    rcases List.mem_append.1 hlimb with hl | hl
    · rw [List.eq_of_mem_replicate hl, hzero]
      exact Nat.two_pow_pos n
    · exact h.lt limb hl
  · rw [List.map_append, List.map_replicate, hzero, Positional.value_zeros_append, h.value]

/-- What is cut off in front are the high digits. -/
theorem IsLimbs.cut {count : ℕ} {limbs : List Str} (hn : 0 < n) (h : IsLimbs n count v limbs)
    {k : ℕ} (hk : k ≤ count) : IsLimbs n k (v % 2 ^ (n * k)) (limbs.drop (count - k)) := by
  have hlen : (limbs.drop (count - k)).length = k := by
    rw [List.length_drop, h.count]
    omega
  refine ⟨hlen, fun limb hl => h.canonical limb (List.mem_of_mem_drop hl),
    fun limb hl => h.lt limb (List.mem_of_mem_drop hl), ?_⟩
  have hlow : Positional.value (2 ^ n) ((limbs.drop (count - k)).map (valueOf 10))
      < 2 ^ (n * k) := by
    have hlt : ∀ d ∈ (limbs.drop (count - k)).map (valueOf 10), d < 2 ^ n := by
      intro d hd
      obtain ⟨limb, hl, rfl⟩ := List.mem_map.1 hd
      exact h.lt limb (List.mem_of_mem_drop hl)
    have := Positional.value_lt (Nat.one_lt_two_pow (by omega)) hlt
    rwa [List.length_map, hlen, ← Nat.pow_mul] at this
  have hsplit := h.value
  rw [← List.take_append_drop (count - k) limbs, List.map_append, Positional.value_append,
    List.length_map, hlen, ← Nat.pow_mul] at hsplit
  rw [← hsplit, Nat.mul_add_mod_self_right, Nat.mod_eq_of_lt hlow]

theorem fitLimbs_isLimbs {count : ℕ} {limbs : List Str} (hn : 0 < n) (h : IsLimbs n count v limbs)
    (silenceWarnings : Bool) (k : ℕ) :
    (count ≤ k → ∃ out, fitLimbs limbs (some k) silenceWarnings = .ok out ∧
        IsLimbs n (max count k) v out) ∧
      (k < count → silenceWarnings = false →
        ∃ message, fitLimbs limbs (some k) silenceWarnings = .error message) ∧
      (k < count → silenceWarnings = true →
        ∃ out, fitLimbs limbs (some k) silenceWarnings = .ok out ∧
          IsLimbs n k (v % 2 ^ (n * k)) out) := by
  simp only [fitLimbs, h.count]
  refine ⟨fun hk => ?_, fun hk hs => ?_, fun hk hs => ?_⟩
  · rw [if_neg (by omega)]
    have hmax : max count k = k - count + count := by omega
    exact ⟨_, rfl, hmax ▸ h.fill (k - count)⟩
  · rw [if_pos hk, hs]
    exact ⟨_, rfl⟩
  · rw [if_pos hk, hs]
    exact ⟨_, rfl, h.cut hn (by omega)⟩

theorem hexToFieldLimbs_eq (hs : isHex hexStr) (hn : 0 < n) :
    ∃ decArr, (∀ numberOfLimbs silenceWarnings,
        hexToFieldLimbs hexStr n numberOfLimbs silenceWarnings
          = fitLimbs decArr numberOfLimbs silenceWarnings) ∧
      IsLimbs n (max 1 ((Nat.size (valueOf 16 (strip0x hexStr)) + n - 1) / n))
        (valueOf 16 (strip0x hexStr)) decArr := by
  obtain ⟨bitsArr, hok, hbits, hlimbs⟩ := splitHexToBits_isLimbs hs hn
  refine ⟨_, fun numberOfLimbs silenceWarnings => ?_, hlimbs⟩
  unfold hexToFieldLimbs
  rw [requireHex_of_isHex hs, hok]
  have := decimals_ok hbits
  simp only [bind, Except.bind] at this ⊢
  rw [this]

/-- The limbs of a hex string's value: as many as it needs, filled up to the number asked for, and
cut to fewer only when the warning is silenced. -/
theorem hexToFieldLimbs_isLimbs (hs : isHex hexStr) (hn : 0 < n) (silenceWarnings : Bool) :
    let v := valueOf 16 (strip0x hexStr)
    let m := max 1 ((Nat.size v + n - 1) / n)
    (∃ out, hexToFieldLimbs hexStr n none silenceWarnings = .ok out ∧ IsLimbs n m v out) ∧
      ∀ k,
        (m ≤ k → ∃ out, hexToFieldLimbs hexStr n (some k) silenceWarnings = .ok out ∧
          IsLimbs n (max m k) v out) ∧
        (k < m → silenceWarnings = false →
          ∃ message, hexToFieldLimbs hexStr n (some k) silenceWarnings = .error message) ∧
        (k < m → silenceWarnings = true →
          ∃ out, hexToFieldLimbs hexStr n (some k) silenceWarnings = .ok out ∧
            IsLimbs n k (v % 2 ^ (n * k)) out) := by
  intro v m
  obtain ⟨decArr, heq, hlimbs⟩ := hexToFieldLimbs_eq hs hn
  refine ⟨⟨decArr, heq none silenceWarnings, hlimbs⟩, fun k => ?_⟩
  rw [heq]
  exact fitLimbs_isLimbs hn hlimbs silenceWarnings k

theorem hexToFieldLimbs_isLimbs_of_ff :
    ∃ out, hexToFieldLimbs ['0', 'x', 'f', 'F'] 3 none false = .ok out ∧ IsLimbs 3 3 255 out :=
  (@hexToFieldLimbs_isLimbs ['0', 'x', 'f', 'F'] 3 (by decide) (by decide) false).1

end Conversions

end Baseline
