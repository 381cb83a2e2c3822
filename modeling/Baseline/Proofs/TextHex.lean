import Baseline.Conversions
import Baseline.Proofs.Bytes
import Baseline.Proofs.Utf8

/-!
# Text through hex and back

Deleting each `00` deletes the padding, but also the zero digits of two neighbouring bytes `X0` and
`0Y`, which leaves the one byte `XY` (`deletePairs_toHex`). In UTF-8 those are the last byte of a
character and the byte of one below U+0010, and what is left is one character
(`encode_merge`). So a text comes back if and only if it has no such neighbours (`utf8_roundTrips`).
-/

namespace Baseline

namespace Conversions

/-! ## Joining neighbours -/

section Merge

variable {α : Type} (join : α → α → Option α)

/-- From the left, neighbours that can be joined are, each at most once. -/
def merge : List α → List α
  | [] => []
  | [a] => [a]
  | a :: b :: s =>
    match join a b with
    | some c => c :: merge s
    | none => a :: merge (b :: s)

/-- No neighbours can be joined. -/
def Apart (s : List α) : Prop := s.IsChain fun a b => join a b = none

variable {join}

theorem merge_of_apart : ∀ {s : List α}, Apart join s → merge join s = s
  | [], _ => rfl
  | [_], _ => rfl
  | a :: b :: s, h => by
    obtain ⟨hab, hs⟩ := List.isChain_cons_cons.1 h
    rw [merge, hab]
    simp only
    rw [merge_of_apart hs]

theorem length_merge_le : ∀ s : List α, (merge join s).length ≤ s.length
  | [] => Nat.le_refl _
  | [_] => Nat.le_refl _
  | a :: b :: s => by
    have h1 := length_merge_le s
    have h2 := length_merge_le (b :: s)
    unfold merge
    cases join a b with
    | some c =>
      simp only [List.length_cons]
      omega
    | none =>
      simp only [List.length_cons] at h2 ⊢
      omega

/-- Joining makes the list shorter. -/
theorem apart_of_length_merge : ∀ {s : List α}, (merge join s).length = s.length → Apart join s
  | [], _ => List.isChain_nil
  | [a], _ => List.isChain_singleton a
  | a :: b :: s, h => by
    cases hab : join a b with
    | some c =>
      have : (merge join s).length ≤ s.length := length_merge_le s
      rw [merge, hab] at h
      simp only [List.length_cons] at h
      omega
    | none =>
      rw [merge, hab] at h
      exact List.isChain_cons_cons.2 ⟨hab, apart_of_length_merge (Nat.succ.inj h)⟩

theorem merge_append {a : α} : ∀ {s t : List α}, Apart join (s ++ [a]) →
    merge join (s ++ a :: t) = s ++ merge join (a :: t)
  | [], _, _ => rfl
  | [b], t, h => by
    rw [List.singleton_append, merge, (List.isChain_cons_cons.1 h).1]
    rfl
  | b :: c :: s, t, h => by
    rw [List.cons_append, List.cons_append] at h
    obtain ⟨hbc, hs⟩ := List.isChain_cons_cons.1 h
    have ih := merge_append (s := c :: s) (t := t) hs
    rw [List.cons_append] at ih
    rw [List.cons_append, List.cons_append, merge, hbc]
    simp only
    rw [ih]
    rfl

end Merge

/-- Digits `X0` and `0Y`, of which `XY` is left. -/
def joinByte (a b : UInt8) : Option UInt8 :=
  if a.toNat % 16 = 0 ∧ b.toNat < 16 then some (a + b) else none

/-- A character whose number is a multiple of 16 and one below U+0010. -/
def joinChar (c d : Char) : Option Char :=
  if c.toNat % 16 = 0 ∧ d.toNat < 16 then some (Char.ofNat (c.toNat + d.toNat)) else none

/-! ## Deleting pairs of zeros -/

section DeletePairs

variable {c : Char} {s : Str} {a b : UInt8}

theorem deletePairs_cons (h : c ≠ '0' ∨ s.head? ≠ some '0') :
    deletePairs (c :: s) = c :: deletePairs s := by
  rw [deletePairs]
  rintro s' rfl rfl
  simp at h

theorem deletePairs_zeros : ∀ n, deletePairs (List.replicate (2 * n) '0' ++ s) = deletePairs s
  | 0 => rfl
  | n + 1 => by
    rw [Nat.mul_succ, List.replicate_succ, List.replicate_succ, List.cons_append, List.cons_append,
      deletePairs, deletePairs_zeros n]

theorem digitChar_eq_zero : ∀ {n : ℕ}, n < 16 → (Nat.digitChar n = '0' ↔ n = 0) := by decide

theorem head_hexByte (b : UInt8) (s : Str) :
    (hexByte b ++ s).head? = some '0' ↔ b.toNat < 16 := by
  have hlt : b.toNat < 256 := b.toNat_lt
  rw [hexByte, List.cons_append, List.head?_cons, Option.some.injEq, digitChar_eq_zero (by omega)]
  omega

/-- A byte stays unless its second digit goes with what follows. -/
theorem deletePairs_hexByte (hb : b ≠ 0) (h : b.toNat % 16 ≠ 0 ∨ s.head? ≠ some '0') :
    deletePairs (hexByte b ++ s) = hexByte b ++ deletePairs s := by
  have hlt : b.toNat < 256 := b.toNat_lt
  have hb0 : b.toNat ≠ 0 := fun h0 => hb (UInt8.toNat.inj h0)
  have hsecond : Nat.digitChar (b.toNat % 16) ≠ '0' ∨ s.head? ≠ some '0' :=
    h.imp_left fun h => (digitChar_eq_zero (by omega)).not.2 h
  have hfirst : Nat.digitChar (b.toNat / 16) ≠ '0' ∨
      (Nat.digitChar (b.toNat % 16) :: s).head? ≠ some '0' := by
    rw [List.head?_cons, ne_eq, ne_eq, Option.some.injEq, digitChar_eq_zero (by omega),
      digitChar_eq_zero (by omega)]
    omega
  simp only [hexByte, List.cons_append, List.nil_append]
  rw [deletePairs_cons hfirst, deletePairs_cons hsecond]

/-- The neighbouring zero digits of two bytes go. -/
theorem deletePairs_join (ha : a ≠ 0) (hb : b ≠ 0) (hzero : a.toNat % 16 = 0 ∧ b.toNat < 16) :
    deletePairs (hexByte a ++ (hexByte b ++ s)) = hexByte (a + b) ++ deletePairs s := by
  have hlt : a.toNat < 256 := a.toNat_lt
  have ha0 : a.toNat ≠ 0 := fun h0 => ha (UInt8.toNat.inj h0)
  have hb0 : b.toNat ≠ 0 := fun h0 => hb (UInt8.toNat.inj h0)
  have hsum : (a + b).toNat = a.toNat + b.toNat := by
    rw [UInt8.toNat_add]
    omega
  have hfirst : Nat.digitChar (a.toNat / 16) ≠ '0' := by
    rw [ne_eq, digitChar_eq_zero (by omega)]
    omega
  have hlast : Nat.digitChar (b.toNat % 16) ≠ '0' := by
    rw [ne_eq, digitChar_eq_zero (by omega)]
    omega
  have ha16 : Nat.digitChar (a.toNat % 16) = '0' := by rw [hzero.1]; rfl
  have hb16 : Nat.digitChar (b.toNat / 16) = '0' := by rw [Nat.div_eq_of_lt hzero.2]; rfl
  have hdiv : (a + b).toNat / 16 = a.toNat / 16 := by omega
  have hmod : (a + b).toNat % 16 = b.toNat % 16 := by omega
  simp only [hexByte, List.cons_append, List.nil_append, ha16, hb16, hdiv, hmod]
  rw [deletePairs_cons (.inl hfirst), deletePairs, deletePairs_cons (.inl hlast)]

theorem deletePairs_toHex : ∀ {bs : List UInt8}, 0 ∉ bs →
    deletePairs (toHex bs) = toHex (merge joinByte bs)
  | [], _ => rfl
  | [a], h => by
    have ha : a ≠ 0 := fun h0 => h (h0 ▸ List.mem_singleton_self a)
    have := deletePairs_hexByte (s := []) ha (.inr (by simp))
    simpa [toHex, merge, deletePairs] using this
  | a :: b :: bs, h => by
    simp only [List.mem_cons, not_or] at h
    obtain ⟨ha, hb, hbs⟩ := h
    unfold merge joinByte
    simp only [toHex, List.flatMap_cons]
    split_ifs with hzero
    · rw [deletePairs_join (Ne.symm ha) (Ne.symm hb) hzero, ← toHex, deletePairs_toHex hbs]
      rfl
    · have hrest : a.toNat % 16 ≠ 0 ∨ (hexByte b ++ List.flatMap hexByte bs).head? ≠ some '0' :=
        (Decidable.not_and_iff_or_not.1 hzero).imp_right (head_hexByte b _).not.2
      have ih : deletePairs (toHex (b :: bs)) = _ := deletePairs_toHex (by simp [hb, hbs])
      rw [toHex, List.flatMap_cons] at ih
      rw [deletePairs_hexByte (Ne.symm ha) hrest, ih]
      rfl

end DeletePairs

theorem strip0x_ensure0x {s : Str} (h : 'x' ∉ s) : strip0x (ensure0x s) = s := by
  unfold ensure0x
  split
  · simp at h
  · rfl

theorem x_notMem_toHex (bs : List UInt8) : 'x' ∉ toHex bs := by
  have hx : ∀ {n : ℕ}, n < 16 → Nat.digitChar n ≠ 'x' := by decide
  rintro h
  obtain ⟨b, -, hb⟩ := List.mem_flatMap.1 h
  have hlt : b.toNat < 256 := b.toNat_lt
  simp only [hexByte, List.mem_cons, List.not_mem_nil, or_false] at hb
  rcases hb with hb | hb
  · exact hx (by omega) hb.symm
  · exact hx (by omega) hb.symm

/-- What is decoded: the bytes, joined. -/
theorem bufferFromHex_deletePairs {bs : List UInt8} (h : 0 ∉ bs) (n : ℕ) :
    bufferFromHex (deletePairs (strip0x (ensure0x (padStart (toHex bs) (n * 2)))))
      = merge joinByte bs := by
  have hx : 'x' ∉ padStart (toHex bs) (n * 2) := by
    rw [padStart, List.mem_append, not_or]
    exact ⟨fun h => absurd (List.eq_of_mem_replicate h) (by decide), x_notMem_toHex bs⟩
  have hpad : n * 2 - (toHex bs).length = 2 * (n - bs.length) := by
    rw [length_toHex]
    omega
  rw [strip0x_ensure0x hx, padStart, hpad, deletePairs_zeros, deletePairs_toHex h,
    bufferFromHex_toHex]

/-! ## Characters -/

theorem toNat_char_ofNat {n : ℕ} (h : n < 0xD800 ∨ 0xDFFF < n ∧ n < 0x110000) :
    (Char.ofNat n).toNat = n := by
  unfold Char.ofNat
  rw [dif_pos h]
  rfl

/-- All bytes of a character but the last. -/
def leading (v : ℕ) : List UInt8 :=
  if v ≤ 0x7F then []
  else if v ≤ 0x7FF then [UInt8.ofNat (v / 0x40 % 0x20 + 0xC0)]
  else if v ≤ 0xFFFF then
    [UInt8.ofNat (v / 0x1000 % 0x10 + 0xE0), UInt8.ofNat (v / 0x40 % 0x40 + 0x80)]
  else
    [UInt8.ofNat (v / 0x40000 % 8 + 0xF0), UInt8.ofNat (v / 0x1000 % 0x40 + 0x80),
      UInt8.ofNat (v / 0x40 % 0x40 + 0x80)]

/-- The last byte of a character. -/
def trailing (v : ℕ) : UInt8 :=
  if v ≤ 0x7F then UInt8.ofNat v else UInt8.ofNat (v % 0x40 + 0x80)

theorem utf8EncodeChar_eq (c : Char) :
    String.utf8EncodeChar c = leading c.toNat ++ [trailing c.toNat] := by
  have hval : c.val.toNat = c.toNat := rfl
  unfold String.utf8EncodeChar leading trailing
  rw [hval]
  simp only
  split_ifs <;> rfl

section Numbers

variable {v d : ℕ}

theorem leading_add (hv : v % 16 = 0) (hd : d < 16) : leading (v + d) = leading v := by
  have h1 : v + d ≤ 0x7F ↔ v ≤ 0x7F := by omega
  have h2 : v + d ≤ 0x7FF ↔ v ≤ 0x7FF := by omega
  have h3 : v + d ≤ 0xFFFF ↔ v ≤ 0xFFFF := by omega
  have h4 : (v + d) / 0x40 = v / 0x40 := by omega
  have h5 : (v + d) / 0x1000 = v / 0x1000 := by omega
  have h6 : (v + d) / 0x40000 = v / 0x40000 := by omega
  simp only [leading, h1, h2, h3, h4, h5, h6]

theorem trailing_add (hv : v % 16 = 0) (hd : d < 16) :
    trailing (v + d) = trailing v + UInt8.ofNat d := by
  have h1 : v + d ≤ 0x7F ↔ v ≤ 0x7F := by omega
  have h2 : (v + d) % 0x40 + 0x80 = v % 0x40 + 0x80 + d := by omega
  unfold trailing
  rw [h2]
  simp only [h1]
  split_ifs <;> rw [UInt8.ofNat_add]

theorem trailing_mod : (trailing v).toNat % 16 = v % 16 := by
  unfold trailing
  split_ifs <;> rw [UInt8.toNat_ofNat'] <;> omega

theorem le_of_mem_leading {b : UInt8} (hb : b ∈ leading v) : 0x80 ≤ b.toNat := by
  unfold leading at hb
  split_ifs at hb <;> simp only [List.mem_cons, List.not_mem_nil, or_false] at hb
  · rw [hb, UInt8.toNat_ofNat']
    omega
  · rcases hb with hb | hb <;> rw [hb, UInt8.toNat_ofNat'] <;> omega
  · rcases hb with hb | hb | hb <;> rw [hb, UInt8.toNat_ofNat'] <;> omega

theorem le_trailing (hv : 0x7F < v) : 0x80 ≤ (trailing v).toNat := by
  rw [trailing, if_neg (by omega), UInt8.toNat_ofNat']
  omega

end Numbers

theorem joinByte_of_le {a b : UInt8} (h : 16 ≤ b.toNat) : joinByte a b = none :=
  if_neg (by omega)

theorem apart_of_le : ∀ {bs : List UInt8}, (∀ b ∈ bs.tail, 16 ≤ b.toNat) → Apart joinByte bs
  | [], _ => List.isChain_nil
  | [b], _ => List.isChain_singleton b
  | _ :: b :: _, h => List.isChain_cons_cons.2 ⟨joinByte_of_le (h b (List.mem_cons_self ..)),
      apart_of_le fun c hc => h c (List.mem_cons_of_mem _ hc)⟩

theorem apart_char (v : ℕ) : Apart joinByte (leading v ++ [trailing v]) := by
  by_cases hv : v ≤ 0x7F
  · rw [leading, if_pos hv]
    exact List.isChain_singleton _
  · refine apart_of_le fun b hb => ?_
    rcases List.mem_append.1 (List.mem_of_mem_tail hb) with hb | hb
    · have := le_of_mem_leading hb
      omega
    · rw [List.mem_singleton.1 hb]
      have := le_trailing (v := v) (by omega)
      omega

/-- Only a character below U+0010 starts with a byte below 16. -/
theorem first_byte (d : Char) : ∃ f r, String.utf8EncodeChar d = f :: r ∧
    (f.toNat < 16 → d.toNat < 16) := by
  rw [utf8EncodeChar_eq]
  by_cases hd : d.toNat ≤ 0x7F
  · refine ⟨trailing d.toNat, [], by rw [leading, if_pos hd]; rfl, fun h => ?_⟩
    rw [trailing, if_pos hd, UInt8.toNat_ofNat'] at h
    omega
  · cases hl : leading d.toNat with
    | nil =>
      have := le_trailing (v := d.toNat) (by omega)
      exact ⟨_, _, rfl, fun h => by omega⟩
    | cons f l =>
      have := le_of_mem_leading (v := d.toNat) (b := f) (hl ▸ List.mem_cons_self ..)
      exact ⟨_, _, rfl, fun h => by omega⟩

/-- Joining the bytes is joining the characters. -/
theorem encode_merge : ∀ cs : List Char,
    merge joinByte (Utf8.encode cs) = Utf8.encode (merge joinChar cs)
  | [] => rfl
  | [c] => by
    rw [merge, Utf8.encode_cons, Utf8.encode_nil, List.append_nil, utf8EncodeChar_eq,
      merge_of_apart (apart_char _)]
  | c :: d :: cs => by
    have hc : (c.toNat < 0xD800 ∨ 0xDFFF < c.toNat ∧ c.toNat < 0x110000) := c.valid
    rw [Utf8.encode_cons, utf8EncodeChar_eq, List.append_assoc, List.singleton_append,
      merge_append (apart_char _)]
    by_cases h : c.toNat % 16 = 0 ∧ d.toNat < 16
    · have hd : String.utf8EncodeChar d = [UInt8.ofNat d.toNat] := by
        rw [utf8EncodeChar_eq, leading, trailing, if_pos (by omega), if_pos (by omega)]
        rfl
      have hbyte : joinByte (trailing c.toNat) (UInt8.ofNat d.toNat)
          = some (trailing (c.toNat + d.toNat)) := by
        rw [joinByte, trailing_mod, UInt8.toNat_ofNat', if_pos (by omega), trailing_add h.1 h.2]
      have hchar : joinChar c d = some (Char.ofNat (c.toNat + d.toNat)) := if_pos h
      rw [Utf8.encode_cons, hd, List.singleton_append, merge, hbyte]
      simp only
      rw [merge, hchar]
      simp only
      rw [encode_merge cs, Utf8.encode_cons, utf8EncodeChar_eq, toNat_char_ofNat (by omega),
        leading_add h.1 h.2, List.append_assoc, List.singleton_append]
    · obtain ⟨f, r, hfirst, hf⟩ := first_byte d
      have ih := encode_merge (d :: cs)
      have hbyte : joinByte (trailing c.toNat) f = none := by
        rw [joinByte, trailing_mod]
        exact if_neg fun hj => h ⟨hj.1, hf hj.2⟩
      have hchar : joinChar c d = none := if_neg h
      rw [Utf8.encode_cons, hfirst, List.cons_append] at ih ⊢
      rw [merge, hbyte]
      simp only
      rw [ih, merge, hchar]
      simp only
      rw [Utf8.encode_cons, utf8EncodeChar_eq, List.append_assoc, List.singleton_append]

/-! ## Texts -/

/-- No character whose number is a multiple of 16 is directly before one below 16. -/
def Spaced (numbers : List ℕ) : Prop := numbers.IsChain fun a b => ¬(a % 16 = 0 ∧ b < 16)

theorem apart_joinByte {bs : List UInt8} : Apart joinByte bs ↔ Spaced (bs.map UInt8.toNat) := by
  rw [Spaced, List.isChain_map]
  simp only [Apart, joinByte, ite_eq_right_iff, reduceCtorEq, imp_false]

theorem apart_joinChar {cs : List Char} : Apart joinChar cs ↔ Spaced (cs.map Char.toNat) := by
  rw [Spaced, List.isChain_map]
  simp only [Apart, joinChar, ite_eq_right_iff, reduceCtorEq, imp_false]

theorem zero_notMem_encode {cs : List Char} (h : 0 ∉ Utf16.encode cs) : 0 ∉ Utf8.encode cs := by
  intro h0
  obtain ⟨c, hc, hb⟩ := List.mem_flatMap.1 h0
  have hc0 : c.toNat ≠ 0 := by
    intro hz
    have := Utf16.mem_encode_of_mem hc (by omega)
    rw [hz] at this
    exact h this
  rw [utf8EncodeChar_eq, List.mem_append, List.mem_singleton] at hb
  rcases hb with hb | hb
  · have := le_of_mem_leading hb
    simp at this
  · have hz : (trailing c.toNat).toNat = 0 := by rw [← hb]; rfl
    unfold trailing at hz
    split_ifs at hz <;> rw [UInt8.toNat_ofNat'] at hz <;> omega

theorem hexToUtf8_utf8ToHex {cs : List Char} (h : 0 ∉ Utf16.encode cs) {n : ℕ}
    (hn : (Utf8.encode cs).length ≤ n) :
    (utf8ToHex (Utf16.encode cs) n).map hexToUtf8 = .ok (Utf16.encode (merge joinChar cs)) := by
  have hlen : ¬n * 2 < (toHex (Utf8.encode cs)).length := by
    rw [length_toHex]
    omega
  simp only [utf8ToHex, Utf16.decode_encode, if_neg hlen]
  simp only [pure, Except.pure, Except.map, hexToUtf8,
    bufferFromHex_deletePairs (zero_notMem_encode h), encode_merge, Utf8.decode_encode]

/-- A text comes back through UTF-8 if it is one of characters that are spaced. -/
theorem utf8_roundTrip_iff {s : Text} (h : 0 ∉ s) {n : ℕ}
    (hn : (Utf8.encode (Utf16.decode s)).length ≤ n) :
    (utf8ToHex s n).map hexToUtf8 = .ok s ↔
      Utf16.WellFormed s ∧ Spaced ((Utf16.decode s).map Char.toNat) := by
  have hdecode : utf8ToHex s n = utf8ToHex (Utf16.encode (Utf16.decode s)) n := by
    simp only [utf8ToHex, Utf16.decode_encode]
  constructor
  · intro hback
    have hs : Utf16.WellFormed s := by
      cases hhex : utf8ToHex s n with
      | error e =>
        rw [hhex] at hback
        cases hback
      | ok hex =>
        rw [hhex] at hback
        exact Utf16.wellFormed_iff.2 ⟨_, (Except.ok.inj hback).symm⟩
    obtain ⟨cs, rfl⟩ := Utf16.wellFormed_iff.1 hs
    rw [Utf16.decode_encode] at hn ⊢
    rw [hexToUtf8_utf8ToHex h hn] at hback
    have hmerge := congrArg Utf16.decode (Except.ok.inj hback)
    rw [Utf16.decode_encode, Utf16.decode_encode] at hmerge
    exact ⟨hs, apart_joinChar.1 (apart_of_length_merge (by rw [hmerge]))⟩
  · rintro ⟨hs, hspaced⟩
    obtain ⟨cs, rfl⟩ := Utf16.wellFormed_iff.1 hs
    rw [Utf16.decode_encode] at hn hspaced
    rw [hexToUtf8_utf8ToHex h hn, merge_of_apart (apart_joinChar.2 hspaced)]

/-- The bytes of an ASCII text are its units. -/
theorem toNat_byte {s : Text} (hs : ∀ u ∈ s, u.toNat < 0x80) :
    (s.map fun u => UInt8.ofNat u.toNat).map UInt8.toNat = s.map UInt16.toNat := by
  rw [List.map_map]
  refine List.map_congr_left fun u hu => ?_
  have := hs u hu
  rw [Function.comp_apply, UInt8.toNat_ofNat']
  omega

theorem ascii_roundTrip_iff {s : Text} (h : 0 ∉ s) (hs : ∀ u ∈ s, u.toNat < 0x80) {n : ℕ}
    (hn : s.length ≤ n) :
    (asciiToHex s n).map hexToAscii = .ok s ↔ Spaced (s.map UInt16.toNat) := by
  have hnumbers := toNat_byte hs
  have hlen : ¬n * 2 < (toHex (s.map fun u => UInt8.ofNat u.toNat)).length := by
    rw [length_toHex, List.length_map]
    omega
  have h0 : 0 ∉ s.map fun u => UInt8.ofNat u.toNat := by
    intro hzero
    obtain ⟨u, hu, hu0⟩ := List.mem_map.1 hzero
    have hnat := congrArg UInt8.toNat hu0
    have := hs u hu
    rw [UInt8.toNat_ofNat'] at hnat
    have hz : (0 : UInt8).toNat = 0 := rfl
    have hu0 : u = 0 := UInt16.toNat_inj.1 (show u.toNat = (0 : UInt16).toNat by
      rw [UInt16.toNat_zero]
      omega)
    exact h (hu0 ▸ hu)
  have hback : (asciiToHex s n).map hexToAscii
      = .ok ((merge joinByte (s.map fun u => UInt8.ofNat u.toNat)).map
          fun b => UInt16.ofNat (b.toNat % 0x80)) := by
    simp only [asciiToHex, if_neg hlen]
    simp only [pure, Except.pure, Except.map, hexToAscii, bufferFromHex_deletePairs h0]
  rw [hback, ← hnumbers, ← apart_joinByte]
  constructor
  · intro heq
    have hlength := congrArg List.length (Except.ok.inj heq)
    rw [List.length_map] at hlength
    exact apart_of_length_merge (by rw [hlength, List.length_map])
  · intro hapart
    rw [merge_of_apart hapart, List.map_map]
    refine congrArg _ ((List.map_congr_left fun u hu => ?_).trans (List.map_id s))
    have := hs u hu
    have hbyte : (UInt8.ofNat u.toNat).toNat % 0x80 = u.toNat := by
      rw [UInt8.toNat_ofNat']
      omega
    rw [Function.comp_apply, hbyte, UInt16.ofNat_toNat]
    rfl

/-- The texts that come back, through either encoding and at every length they fit. -/
theorem text_roundTrips_iff (s : Text) (h : 0 ∉ s) (n : ℕ) :
    ((Utf8.encode (Utf16.decode s)).length ≤ n →
        ((utf8ToHex s n).map hexToUtf8 = .ok s ↔
          Utf16.WellFormed s ∧ Spaced ((Utf16.decode s).map Char.toNat))) ∧
      ((∀ u ∈ s, u.toNat < 0x80) → s.length ≤ n →
        ((asciiToHex s n).map hexToAscii = .ok s ↔ Spaced (s.map UInt16.toNat))) :=
  ⟨utf8_roundTrip_iff h, fun hs => ascii_roundTrip_iff h hs⟩

theorem text_roundTrips_hi :
    ((utf8ToHex [0x68, 0x69] 4).map hexToUtf8 = .ok [0x68, 0x69] ↔
        Utf16.WellFormed [0x68, 0x69] ∧ Spaced ((Utf16.decode [0x68, 0x69]).map Char.toNat)) ∧
      ((asciiToHex [0x68, 0x69] 4).map hexToAscii = .ok [0x68, 0x69] ↔
        Spaced (([0x68, 0x69] : Text).map UInt16.toNat)) :=
  have h := text_roundTrips_iff [0x68, 0x69] (by decide) 4
  ⟨h.1 (by decide), h.2 (by simp) (by decide)⟩

/-- The bytes `50` and `05` come back as the one byte `55`. -/
theorem text_not_roundTrips :
    ¬∀ (s : Text) (n : ℕ), 0 ∉ s →
      ((Utf8.encode (Utf16.decode s)).length ≤ n → (utf8ToHex s n).map hexToUtf8 = .ok s) ∧
      ((∀ u ∈ s, u.toNat < 0x80) → s.length ≤ n → (asciiToHex s n).map hexToAscii = .ok s) := by
  intro h
  have hutf8 : (utf8ToHex [0x50, 5] 2).map hexToUtf8 = .ok [0x55] := by decide
  have hback := (h [0x50, 5] 2 (by decide)).1 (by decide)
  rw [hutf8] at hback
  exact absurd (Except.ok.inj hback) (by decide)

end Conversions

end Baseline
