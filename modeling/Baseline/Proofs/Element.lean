import Baseline.Element
import Baseline.Proofs.Bytes
import Baseline.Proofs.FieldLimbs
import Baseline.Proofs.TextHex
import Baseline.Proofs.Utf8

/-!
# The number of an element

A value is taken for a number: a decimal or a hex one, or that of a text's bytes (`numberOf`). All
views of the element agree on it (`element_views`), and it is what a circuit is passed the low
bits of (`marshalCircuitArg_eq`).
-/

namespace Baseline

namespace Conversions

variable {base : ℕ} {s value : Str} {v : ℕ} {e : Element}

/-! ## Canonical numerals -/

/-- There is one canonical numeral of a number. -/
theorem Canonical.eq_numeral (hb : 1 < base) (hb' : base ≤ 36) (h : Canonical base s) :
    s = numeral base (valueOf base s) := by
  obtain ⟨ds, rfl, hds⟩ : ∃ ds : List ℕ, s = ds.map digitChar ∧ ∀ d ∈ ds, d < base := by
    have hdigits := h.digits
    clear h
    induction s with
    | nil => exact ⟨[], rfl, by simp⟩
    | cons c s ih =>
      obtain ⟨⟨d, hd, rfl⟩, hrest⟩ := List.forall_mem_cons.1 hdigits
      obtain ⟨ds, rfl, hds⟩ := ih hrest
      exact ⟨d :: ds, rfl, List.forall_mem_cons.2 ⟨hd, hds⟩⟩
  rw [valueOf_map_digitChar hb' hds]
  by_cases hzero : (ds.map digitChar).head? = some '0'
  · have hone := h.head hzero
    obtain ⟨d, rfl⟩ : ∃ d, ds = [d] := by
      have hlength := congrArg List.length hone
      rw [List.length_map, List.length_singleton] at hlength
      exact List.length_eq_one_iff.1 hlength
    rw [Positional.value_singleton, numeral_digit (hds d List.mem_cons_self)]
    rfl
  · cases ds with
    | nil => exact absurd rfl h.ne_nil
    | cons d ds =>
      have hd : d ≠ 0 := by
        rintro rfl
        exact hzero rfl
      have hlt : ∀ a ∈ (d :: ds).reverse, a < base := fun a ha => hds a (List.mem_reverse.1 ha)
      have hnat := Nat.digits_ofDigits base hb (d :: ds).reverse hlt fun hne => by
        rw [List.getLast_reverse]
        exact hd
      have hne : Nat.ofDigits base (d :: ds).reverse ≠ 0 := by
        intro h0
        rw [h0, Nat.digits_zero] at hnat
        exact List.cons_ne_nil d ds (List.reverse_eq_nil_iff.1 hnat.symm)
      rw [Positional.value_eq_ofDigits, numeral_of_ne_zero hb hne, hnat, List.reverse_reverse]

/-! ## Hex strings of a number -/

/-- Digits after `0x` that count a number. -/
def HexOf (v : ℕ) (s : Str) : Prop :=
  ∃ ds : Str, s = '0' :: 'x' :: ds ∧ ds ≠ [] ∧ (∀ c ∈ ds, (hexVal c).isSome) ∧ valueOf 16 ds = v

theorem HexOf.isHex (h : HexOf v s) : isHex s = true ∧ valueOf 16 (strip0x s) = v := by
  obtain ⟨ds, rfl, hne, hds, hv⟩ := h
  refine ⟨?_, hv⟩
  simpa [Conversions.isHex, strip0x] using ⟨hne, hds⟩

theorem ensure0x_eq (s : Str) : ensure0x s = '0' :: 'x' :: strip0x s := by
  unfold ensure0x
  split
  · rfl
  · rename_i hno0x
    unfold strip0x
    split
    · rename_i hex
      exact absurd rfl (hno0x hex)
    · rfl

/-- Of digits with or without a prefix. -/
theorem hexOf_ensure0x (hne : strip0x s ≠ []) (hs : ∀ c ∈ strip0x s, (hexVal c).isSome) :
    HexOf (valueOf 16 (strip0x s)) (ensure0x s) :=
  ⟨strip0x s, ensure0x_eq s, hne, hs, rfl⟩

/-- Of digits without one. -/
theorem hexOf_ensure0x_digits (hne : s ≠ []) (hs : ∀ c ∈ s, (hexVal c).isSome) :
    HexOf (valueOf 16 s) (ensure0x s) := by
  have hstrip := strip0x_of_hex hs
  have h := @hexOf_ensure0x s (by rwa [hstrip]) (by rwa [hstrip])
  rwa [hstrip] at h

theorem hexVal_digitChar_isSome : ∀ {d : ℕ}, d < 16 → (hexVal (digitChar d)).isSome := by decide

theorem hexOf_numeral (v : ℕ) : HexOf v (ensure0x (numeral 16 v)) := by
  have hdigits : ∀ c ∈ numeral 16 v, (hexVal c).isSome := by
    intro c hc
    obtain ⟨d, hd, rfl⟩ := (numeral_canonical (by omega) (by omega) v).digits c hc
    exact hexVal_digitChar_isSome hd
  have h := hexOf_ensure0x_digits (numeral_ne_nil (by omega) v) hdigits
  rwa [valueOf_numeral (by omega) (by omega)] at h

/-- Zeros in front do not count. -/
theorem valueOf_padStart (base : ℕ) (s : Str) (n : ℕ) :
    valueOf base (padStart s n) = valueOf base s := by
  have hzero : (digit '0').getD 0 = 0 := rfl
  rw [valueOf, padStart, List.map_append, List.map_replicate, hzero, Positional.value_zeros_append]
  rfl

theorem hexVal_padStart (hs : ∀ c ∈ s, (hexVal c).isSome) (n : ℕ) :
    ∀ c ∈ padStart s n, (hexVal c).isSome := by
  intro c hc
  rcases List.mem_append.1 hc with hc | hc
  · rw [List.eq_of_mem_replicate hc]
    rfl
  · exact hs c hc

theorem hexVal_toHex (bs : List UInt8) : ∀ c ∈ toHex bs, (hexVal c).isSome := by
  intro c hc
  obtain ⟨b, -, hb⟩ := List.mem_flatMap.1 hc
  have hlt : b.toNat < 256 := b.toNat_lt
  simp only [hexByte, List.mem_cons, List.not_mem_nil, or_false] at hb
  rcases hb with rfl | rfl
  · rw [hexVal_digitChar (by omega)]
    rfl
  · rw [hexVal_digitChar (by omega)]
    rfl

theorem valueOf_toHex : ∀ bs : List UInt8, valueOf 16 (toHex bs) = bytesValue bs
  | [] => rfl
  | b :: bs => by
    have hdigit : ∀ {a : ℕ}, a < 16 → digit (Nat.digitChar a) = some a := by decide
    have hlt : b.toNat < 256 := b.toNat_lt
    have hpow : 256 ^ bs.length = 16 ^ (2 * bs.length) := by
      rw [pow_mul]
      norm_num
    have ih := valueOf_toHex bs
    rw [valueOf] at ih
    have hbytes : bytesValue (b :: bs) = b.toNat * 256 ^ bs.length + bytesValue bs := by
      rw [bytesValue, List.map_cons, Positional.value_cons, List.length_map]
      rfl
    rw [valueOf, toHex, List.flatMap_cons, List.map_append, Positional.value_append, ← toHex, ih,
      List.length_map, length_toHex, hbytes, hpow]
    have hbyte : Positional.value 16 ((hexByte b).map fun c => (digit c).getD 0) = b.toNat := by
      simp only [hexByte, List.map_cons, List.map_nil, hdigit (show b.toNat / 16 < 16 by omega),
        hdigit (show b.toNat % 16 < 16 by omega), Option.getD_some]
      rw [Positional.value_cons, Positional.value_singleton, List.length_singleton]
      omega
    rw [hbyte]

/-- The bytes of a text, filled up in front. -/
theorem hexOf_bytes {bs : List UInt8} (hbs : bs ≠ []) (n : ℕ) :
    HexOf (bytesValue bs) (ensure0x (padStart (toHex bs) n)) := by
  have hne : padStart (toHex bs) n ≠ [] := by
    intro h
    have hlength := congrArg List.length (List.append_eq_nil_iff.1 h).2
    rw [length_toHex, List.length_nil] at hlength
    exact hbs (List.length_eq_zero_iff.1 (by omega))
  have h := hexOf_ensure0x_digits hne (hexVal_padStart (hexVal_toHex bs) n)
  rwa [valueOf_padStart, valueOf_toHex] at h

/-! ## The number of a value -/

/-- The number that a value is taken for, if it can be. -/
def numberOf (value : Str) : Option ℕ :=
  match inferType value with
  | .integer => some (valueOf 10 value)
  | .hex => if isHex value then some (valueOf 16 (strip0x value)) else none
  | .ascii | .utf8 =>
    if value ≠ [] ∧ (Utf8.encode value).length ≤ 32 then some (bytesValue (Utf8.encode value))
    else none

theorem isNumeral_of_isDigit (hs : value.all Char.isDigit) : IsNumeral 10 value := by
  intro c hc
  have hdigit := List.all_eq_true.1 hs c hc
  have h09 : '0'.toNat = 48 ∧ '9'.toNat = 57 := by decide
  have hle : '0' ≤ c ∧ c ≤ '9' := by
    simp only [Char.isDigit, Bool.and_eq_true, decide_eq_true_eq] at hdigit
    exact hdigit
  refine ⟨c.toNat - '0'.toNat, ?_, if_pos hle⟩
  have h9 : c.toNat ≤ '9'.toNat := hle.2
  omega

/-- An ASCII text has the same bytes either way. -/
theorem asciiToHex_eq (h : Utf8.Ascii value) (n : ℕ) :
    asciiToHex (Utf16.encode value) n = utf8ToHex (Utf16.encode value) n := by
  have hbytes : ((Utf16.encode value).map fun u => UInt8.ofNat u.toNat) = Utf8.encode value := by
    rw [Utf8.encode_ascii h, Utf8.bytesOf, Utf16.encode, List.map_flatMap]
    rw [List.map_eq_flatMap]
    refine List.flatMap_congr fun c hc => ?_
    have hlt := h c hc
    have hunit : (UInt16.ofNat c.toNat).toNat = c.toNat := by
      rw [UInt16.toNat_ofNat']
      omega
    rw [Utf16.encodeChar, if_pos (by omega), List.map_singleton, hunit]
  unfold asciiToHex utf8ToHex
  rw [hbytes, Utf16.decode_encode]

theorem utf8ToHex_encode (hne : value ≠ []) (hlen : (Utf8.encode value).length ≤ 32) :
    ∃ hex, utf8ToHex (Utf16.encode value) 32 = .ok hex ∧
      HexOf (bytesValue (Utf8.encode value)) hex := by
  have hbytes : Utf8.encode value ≠ [] := by
    obtain ⟨c, cs, rfl⟩ := List.exists_cons_of_ne_nil hne
    rw [Utf8.encode_cons]
    exact List.append_ne_nil_of_left_ne_nil (String.utf8EncodeChar_ne_nil) _
  refine ⟨_, ?_, hexOf_bytes hbytes 64⟩
  have hfits : ¬32 * 2 < (toHex (Utf8.encode value)).length := by
    rw [length_toHex]
    omega
  unfold utf8ToHex
  rw [Utf16.decode_encode]
  exact if_neg hfits

/-- What is kept of a text. -/
theorem new_text (htype : inferType value = .ascii ∨ inferType value = .utf8) (hne : value ≠ []) :
    Element.new value
      = (utf8ToHex (Utf16.encode value) 32).map fun _hex => ⟨_hex, 128, 2⟩ := by
  have hascii : inferType value = .ascii → Utf8.Ascii value := by
    intro h
    unfold inferType at h
    split_ifs at h with h1 h2 h3
    exact fun c hc => of_decide_eq_true (List.all_eq_true.1 h3 c hc)
  unfold Element.new
  rcases htype with htype | htype
  · simp only [htype, if_neg hne, asciiToHex_eq (hascii htype)]
    cases utf8ToHex (Utf16.encode value) 32 <;> rfl
  · simp only [htype, if_neg hne]
    cases utf8ToHex (Utf16.encode value) 32 <;> rfl

theorem new_of_numberOf (h : numberOf value = some v) :
    ∃ e, Element.new value = .ok e ∧ HexOf v e._hex := by
  have htext : ∀ {v}, (if value ≠ [] ∧ (Utf8.encode value).length ≤ 32
      then some (bytesValue (Utf8.encode value)) else none) = some v →
      (inferType value = .ascii ∨ inferType value = .utf8) →
      ∃ e, Element.new value = .ok e ∧ HexOf v e._hex := by
    intro v h htype
    split_ifs at h with hfits
    obtain rfl := Option.some.inj h
    obtain ⟨hex, hok, hhex⟩ := utf8ToHex_encode hfits.1 hfits.2
    refine ⟨⟨hex, 128, 2⟩, ?_, hhex⟩
    rw [new_text htype hfits.1, hok]
    rfl
  unfold numberOf at h
  cases htype : inferType value with
  | integer =>
    simp only [htype] at h
    obtain rfl := Option.some.inj h
    have hdigits : value ≠ [] ∧ value.all Char.isDigit := by
      unfold inferType at htype
      split_ifs at htype with h1 h2
      exact h1
    have hconvert : convertBase value 10 16 = some (numeral 16 (valueOf 10 value)) :=
      convertBase_of_isNumeral (by omega) (by omega) (by omega) (isNumeral_of_isDigit hdigits.2)
    refine ⟨⟨ensure0x (numeral 16 (valueOf 10 value)), 128, 2⟩, ?_, hexOf_numeral _⟩
    unfold Element.new
    simp only [htype, decToHex, hconvert, if_neg hdigits.1]
    rfl
  | hex =>
    simp only [htype] at h
    split_ifs at h with hhex
    obtain rfl := Option.some.inj h
    have hdigits : strip0x value ≠ [] ∧ ∀ c ∈ strip0x value, (hexVal c).isSome := by
      simpa [isHex] using hhex
    have hne : value ≠ [] := by
      rintro rfl
      exact hdigits.1 rfl
    refine ⟨⟨ensure0x value, 128, 2⟩, ?_, hexOf_ensure0x hdigits.1 hdigits.2⟩
    unfold Element.new
    simp only [htype, if_neg hne]
    rfl
  | ascii =>
    simp only [htype] at h
    exact htext h (.inl htype)
  | utf8 =>
    simp only [htype] at h
    exact htext h (.inr htype)

/-- A value that is no number is refused, or what is kept of it is no hex string. -/
theorem new_of_numberOf_none (h : numberOf value = none) :
    (∃ message, Element.new value = .error message) ∨
      ∃ e, Element.new value = .ok e ∧ isHex e._hex = false := by
  by_cases hne : value = []
  · subst hne
    exact .inl ⟨_, rfl⟩
  have htext : (if value ≠ [] ∧ (Utf8.encode value).length ≤ 32
      then some (bytesValue (Utf8.encode value)) else none) = none →
      (inferType value = .ascii ∨ inferType value = .utf8) →
      ∃ message, Element.new value = .error message := by
    intro h htype
    split_ifs at h with hfits
    have hlong : 32 * 2 < (toHex (Utf8.encode value)).length := by
      rw [length_toHex]
      have := not_and.1 hfits hne
      omega
    refine ⟨tooLong, ?_⟩
    rw [new_text htype hne]
    unfold utf8ToHex
    rw [Utf16.decode_encode]
    simp only [if_pos hlong]
    rfl
  unfold numberOf at h
  cases htype : inferType value with
  | integer =>
    simp only [htype] at h
    exact nomatch h
  | hex =>
    simp only [htype] at h
    split_ifs at h with hhex
    refine .inr ⟨⟨ensure0x value, 128, 2⟩, ?_, ?_⟩
    · unfold Element.new
      simp only [htype, if_neg hne]
      rfl
    · have hstrip : strip0x (ensure0x value) = strip0x value := by
        rw [ensure0x_eq]
        rfl
      simpa [isHex, hstrip] using hhex
  | ascii =>
    simp only [htype] at h
    exact .inl (htext h (.inl htype))
  | utf8 =>
    simp only [htype] at h
    exact .inl (htext h (.inr htype))

/-! ## What a circuit is passed -/

theorem IsLimbs.eq_singleton {n w : ℕ} {limbs : List Str} (h : IsLimbs n 1 w limbs) :
    limbs = [numeral 10 w] ∧ w < 2 ^ n := by
  obtain ⟨limb, rfl⟩ := List.length_eq_one_iff.1 h.count
  have hvalue : valueOf 10 limb = w := by
    have := h.value
    rwa [List.map_singleton, Positional.value_singleton] at this
  refine ⟨?_, hvalue ▸ h.lt limb List.mem_cons_self⟩
  rw [← hvalue, ← (h.canonical limb List.mem_cons_self).eq_numeral (by omega) (by omega)]

theorem limbBits_pos (fieldBits : Option ℕ) : 0 < limbBits fieldBits := by
  unfold limbBits
  split <;> omega

/-- One limb has the low bits of a number. -/
theorem field_one (h : HexOf v e._hex) {n : ℕ} (hn : 0 < n) :
    e.field (some n) (some 1) true = .ok [numeral 10 (v % 2 ^ n)] := by
  obtain ⟨hhex, rfl⟩ := h.isHex
  obtain ⟨decArr, heq, hlimbs⟩ := hexToFieldLimbs_eq hhex hn
  obtain ⟨hfits, -, hcut⟩ := fitLimbs_isLimbs hn hlimbs true 1
  generalize valueOf 16 (strip0x e._hex) = v at hfits hcut ⊢
  generalize hm : max 1 ((Nat.size v + n - 1) / n) = m at hfits hcut
  rw [Element.field, Option.getD_some, Option.getD_some, heq]
  by_cases hle : m ≤ 1
  · obtain ⟨out, hok, hout⟩ := hfits hle
    have hone : max m 1 = 1 := by omega
    rw [hone] at hout
    obtain ⟨rfl, hlt⟩ := hout.eq_singleton
    rw [hok, Nat.mod_eq_of_lt hlt]
  · obtain ⟨out, hok, hout⟩ := hcut (by omega) rfl
    obtain ⟨rfl, -⟩ := hout.eq_singleton
    rw [hok, Nat.mul_one]

/-- A circuit is passed the low bits of the number that a value is taken for, as one decimal, and
any other value is an error. -/
theorem marshalCircuitArg_eq (val : Str) (fieldBits : Option ℕ) :
    (∀ v, numberOf val = some v →
      marshalCircuitArg val fieldBits = .ok [numeral 10 (v % 2 ^ limbBits fieldBits)]) ∧
      (numberOf val = none → ∃ message, marshalCircuitArg val fieldBits = .error message) := by
  constructor
  · intro v hv
    obtain ⟨e, hnew, hhex⟩ := new_of_numberOf hv
    unfold marshalCircuitArg
    rw [hnew]
    exact field_one hhex (limbBits_pos fieldBits)
  · intro hnone
    unfold marshalCircuitArg
    rcases new_of_numberOf_none hnone with ⟨message, hnew⟩ | ⟨e, hnew, hhex⟩
    · rw [hnew]
      exact ⟨message, rfl⟩
    · rw [hnew]
      refine ⟨"value is not hex".toList, ?_⟩
      show hexToFieldLimbs e._hex _ _ true = _
      unfold hexToFieldLimbs requireHex
      rw [hhex]
      rfl

/-! ## The views of an element -/

theorem digit_toLower {c : Char} (hc : (hexVal c).isSome) : digit c.toLower = digit c := by
  have hsmall : ∀ n < 0x80, digit (Char.ofNat n).toLower = digit (Char.ofNat n) := by decide
  have hlt : c.toNat < 0x80 := by
    have hle : ∀ a b : Char, a ≤ b ↔ a.toNat ≤ b.toNat := fun a b => Iff.rfl
    have h9 : '9'.toNat = 57 ∧ 'f'.toNat = 102 ∧ 'F'.toNat = 70 := by decide
    unfold hexVal at hc
    simp only [hle] at hc
    split_ifs at hc
    · omega
    · omega
    · omega
    · cases hc
  have h := hsmall c.toNat hlt
  rwa [Char.ofNat_toNat] at h

/-- The case of the letters does not count. -/
theorem convertBase_toLower (hs : ∀ c ∈ s, (hexVal c).isSome) :
    convertBase (s.map Char.toLower) 16 10 = some (numeral 10 (valueOf 16 s)) := by
  have hdigits : IsNumeral 16 (s.map Char.toLower) := by
    intro c hc
    obtain ⟨d, hd, rfl⟩ := List.mem_map.1 hc
    rw [digit_toLower (hs d hd)]
    exact digit_of_hexVal (hs d hd)
  have hvalue : valueOf 16 (s.map Char.toLower) = valueOf 16 s := by
    rw [valueOf, List.map_map]
    exact congrArg _ (List.map_congr_left fun c hc => by
      rw [Function.comp_apply, digit_toLower (hs c hc)])
  rw [convertBase_of_isNumeral (by omega) (by omega) (by omega) hdigits, hvalue]

/-- A prefixed hex string is taken for its number. -/
theorem HexOf.numberOf (h : HexOf v s) : Conversions.numberOf s = some v := by
  obtain ⟨hhex, hv⟩ := h.isHex
  obtain ⟨ds, rfl, -, -, -⟩ := h
  have htype : inferType ('0' :: 'x' :: ds) = .hex := by
    unfold inferType
    rw [if_neg (by simp [Char.isDigit]), if_pos (.inl rfl)]
  unfold Conversions.numberOf
  simp only [htype]
  rw [if_pos hhex, hv]

theorem numberOf_numeral (v : ℕ) : numberOf (numeral 10 v) = some v := by
  have hcanonical : Canonical 10 (numeral 10 v) := numeral_canonical (by omega) (by omega) v
  have hdigits : (numeral 10 v).all Char.isDigit := by
    have hdigit : ∀ {d : ℕ}, d < 10 → (digitChar d).isDigit := by decide
    refine List.all_eq_true.2 fun c hc => ?_
    obtain ⟨d, hd, rfl⟩ := hcanonical.digits c hc
    exact hdigit hd
  have htype : inferType (numeral 10 v) = .integer := if_pos ⟨hcanonical.ne_nil, hdigits⟩
  unfold numberOf
  simp only [htype]
  rw [valueOf_numeral (by omega) (by omega)]

/-- Every view of an element is of its number, and what is read of it makes an element of the
same number again. -/
theorem element_views (h : numberOf value = some v) :
    ∃ e, Element.new value = .ok e ∧ e.integer = some (numeral 10 v) ∧
      e.binary = some (numeral 2 v) ∧ numberOf (numeral 10 v) = some v ∧
      ∀ octetLength, numberOf (e.hex octetLength) = some v := by
  obtain ⟨e, hnew, hhex⟩ := new_of_numberOf h
  refine ⟨e, hnew, ?_, ?_, numberOf_numeral v, fun octetLength => ?_⟩
  · obtain ⟨ds, hds, -, hdigits, hv⟩ := hhex
    rw [Element.integer, hds]
    exact hv ▸ convertBase_toLower hdigits
  · obtain ⟨ds, hds, hne, hdigits, hv⟩ := hhex
    rw [Element.binary, hds, hexToBinary]
    exact hv ▸ convertBase_of_isNumeral (by omega) (by omega) (by omega)
      fun c hc => digit_of_hexVal (hdigits c hc)
  · unfold Element.hex
    split_ifs with hlength
    · obtain ⟨ds, hds, hne, hdigits, hv⟩ := hhex
      have hpadded : padStart ds octetLength ≠ [] := fun hnil =>
        hne (List.append_eq_nil_iff.1 hnil).2
      have hpad := hexOf_ensure0x_digits hpadded (hexVal_padStart hdigits octetLength)
      rw [valueOf_padStart, hv] at hpad
      rw [leftPadHex, hds]
      exact hpad.numberOf
    · exact hhex.numberOf

theorem element_views_ff :
    ∃ e, Element.new "0xFF".toList = .ok e ∧ e.integer = some "255".toList ∧
      e.binary = some "11111111".toList ∧ e.hex 4 = "0x00FF".toList := by
  have hvalue : numberOf "0xFF".toList = some 255 := by decide
  obtain ⟨e, hnew, hinteger, hbinary, -, -⟩ := element_views hvalue
  obtain rfl := Except.ok.inj hnew
  exact ⟨_, rfl, hinteger, hbinary, by decide⟩

end Conversions

end Baseline
