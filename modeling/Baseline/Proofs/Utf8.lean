import Baseline.Utf8
import Mathlib.Data.List.Basic
import Mathlib.Data.Char

/-!
# Decoding what was encoded

A character's bytes take the decoder through the states between them and back to the start
(`decodeFrom_char`), so every text is decoded from its own bytes (`decode_encode`). A text whose
characters are all below U+0080 has one byte a character, and is cut to size like a list
(`encodeWithin_ascii`).
-/

namespace Utf8

theorem toNat_valid (c : Char) : c.toNat < 0xD800 ∨ 0xDFFF < c.toNat ∧ c.toNat < 0x110000 :=
  c.valid

@[simp] theorem decodeFrom_cons (q : State) (b : UInt8) (bs : List UInt8) :
    decodeFrom q (b :: bs) = (next q b.toNat).1 ++ decodeFrom (next q b.toNat).2 bs := by
  cases q <;> rfl

theorem toNat_ofNat {n : ℕ} (h : n < 0x100) : (UInt8.ofNat n).toNat = n := by
  simp [Nat.mod_eq_of_lt h]

/-! ## One byte -/

section Bytes

variable {n lower upper : ℕ}

theorem first_two (h : 2 ≤ n % 0x20) :
    first (n % 0x20 + 0xC0) = ([], .within 0 (n % 0x20) 0x80 0xBF) := by
  unfold first
  rw [if_neg (by omega), if_neg (by omega), if_pos (by omega)]
  simp
  omega

theorem first_three : first (n % 0x10 + 0xE0) = ([], .within 1 (n % 0x10)
    (if n % 0x10 = 0 then 0xA0 else 0x80) (if n % 0x10 = 0xD then 0x9F else 0xBF)) := by
  unfold first
  rw [if_neg (by omega), if_neg (by omega), if_neg (by omega), if_pos (by omega)]
  simp
  omega

theorem first_four (h : n % 0x08 ≤ 4) : first (n % 0x08 + 0xF0) = ([], .within 2 (n % 0x08)
    (if n % 0x08 = 0 then 0x90 else 0x80) (if n % 0x08 = 4 then 0x8F else 0xBF)) := by
  unfold first
  rw [if_neg (by omega), if_neg (by omega), if_neg (by omega), if_neg (by omega),
    if_pos (by omega)]
  simp
  omega

theorem next_last {codePoint : ℕ} (hl : lower ≤ n % 0x40 + 0x80) (hu : n % 0x40 + 0x80 ≤ upper) :
    next (.within 0 codePoint lower upper) (n % 0x40 + 0x80)
      = ([Char.ofNat (codePoint * 0x40 + n % 0x40)], .start) := by
  have hmod : (n % 0x40 + 0x80) % 0x40 = n % 0x40 := by omega
  simp only [next, hl, hu, and_self, if_pos, hmod]

theorem next_more {codePoint more : ℕ} (hl : lower ≤ n % 0x40 + 0x80)
    (hu : n % 0x40 + 0x80 ≤ upper) :
    next (.within (more + 1) codePoint lower upper) (n % 0x40 + 0x80)
      = ([], .within more (codePoint * 0x40 + n % 0x40) 0x80 0xBF) := by
  have hmod : (n % 0x40 + 0x80) % 0x40 = n % 0x40 := by omega
  simp only [next, hl, hu, and_self, if_pos, hmod]

end Bytes

/-! ## Characters and texts -/

theorem decodeFrom_char (c : Char) (bs : List UInt8) :
    decodeFrom .start (String.utf8EncodeChar c ++ bs) = c :: decodeFrom .start bs := by
  have hc := toNat_valid c
  have hval : c.val.toNat = c.toNat := rfl
  have hthis : ∀ n, n = c.toNat → Char.ofNat n = c := by
    rintro n rfl
    exact Char.ofNat_toNat c
  unfold String.utf8EncodeChar
  rw [hval]
  by_cases h1 : c.toNat ≤ 0x7F
  · simp only [h1, if_pos, List.cons_append, List.nil_append, decodeFrom_cons,
      toNat_ofNat (show c.toNat < 0x100 by omega), next, first, Char.ofNat_toNat]
  by_cases h2 : c.toNat ≤ 0x7FF
  · simp only [h1, h2, if_neg, if_pos, not_false_eq_true, List.cons_append, List.nil_append,
      decodeFrom_cons]
    rw [toNat_ofNat (by omega), toNat_ofNat (by omega), show next .start = first from rfl,
      first_two (by omega), next_last (by omega) (by omega)]
    simp only [List.nil_append, List.cons_append]
    rw [hthis _ (by omega)]
  by_cases h3 : c.toNat ≤ 0xFFFF
  · simp only [h1, h2, h3, if_neg, if_pos, not_false_eq_true, List.cons_append, List.nil_append,
      decodeFrom_cons]
    rw [toNat_ofNat (by omega), toNat_ofNat (by omega), toNat_ofNat (by omega),
      show next .start = first from rfl, first_three]
    rw [next_more (by split_ifs <;> omega) (by split_ifs <;> omega),
      next_last (by omega) (by omega)]
    simp only [List.nil_append, List.cons_append]
    rw [hthis _ (by omega)]
  · simp only [h1, h2, h3, if_neg, not_false_eq_true, List.cons_append, List.nil_append,
      decodeFrom_cons]
    rw [toNat_ofNat (by omega), toNat_ofNat (by omega), toNat_ofNat (by omega),
      toNat_ofNat (by omega), show next .start = first from rfl, first_four (by omega)]
    rw [next_more (by split_ifs <;> omega) (by split_ifs <;> omega),
      next_more (by omega) (by omega), next_last (by omega) (by omega)]
    simp only [List.nil_append, List.cons_append]
    rw [hthis _ (by omega)]

theorem decode_encode : ∀ s : List Char, decode (encode s) = s
  | [] => rfl
  | c :: s => by
    have ih := decode_encode s
    unfold decode encode at *
    rw [List.flatMap_cons, decodeFrom_char, ih]

@[simp] theorem encode_nil : encode [] = [] := rfl

@[simp] theorem encode_cons (c : Char) (s : List Char) :
    encode (c :: s) = String.utf8EncodeChar c ++ encode s := rfl

theorem encodeWithin_eq_encode : ∀ (s : List Char) {n : ℕ}, (encode s).length ≤ n →
    encodeWithin n s = encode s
  | [], _, _ => rfl
  | c :: s, n, h => by
    rw [encode_cons, List.length_append] at h
    rw [encodeWithin, if_pos (by omega), encodeWithin_eq_encode s (by omega), encode_cons]

theorem encodeWithin_append : ∀ (s s' : List Char) {n : ℕ}, (encode s).length ≤ n →
    encodeWithin n (s ++ s') = encode s ++ encodeWithin (n - (encode s).length) s'
  | [], _, _, _ => rfl
  | c :: s, s', n, h => by
    rw [encode_cons, List.length_append] at h
    rw [List.cons_append, encodeWithin, if_pos (by omega), encodeWithin_append s s' (by omega),
      encode_cons, List.append_assoc, List.length_append, Nat.sub_sub]

theorem length_encodeWithin_le : ∀ (n : ℕ) (s : List Char), (encodeWithin n s).length ≤ n
  | _, [] => Nat.zero_le _
  | n, c :: s => by
    unfold encodeWithin
    split_ifs with h
    · have ih := length_encodeWithin_le (n - (String.utf8EncodeChar c).length) s
      rw [List.length_append]
      omega
    · exact Nat.zero_le _

/-! ## Texts with a byte for each character -/

def Ascii (s : List Char) : Prop := ∀ c ∈ s, c.toNat < 0x80

instance (s : List Char) : Decidable (Ascii s) := List.decidableBAll _ s

theorem ascii_replicate {c : Char} (h : c.toNat < 0x80) (n : ℕ) : Ascii (List.replicate n c) := by
  intro d hd
  rwa [List.eq_of_mem_replicate hd]

/-- The bytes of such a text. -/
def bytesOf (s : List Char) : List UInt8 := s.map fun c => UInt8.ofNat c.toNat

@[simp] theorem length_bytesOf (s : List Char) : (bytesOf s).length = s.length := List.length_map _

theorem encode_char_ascii {c : Char} (h : c.toNat < 0x80) :
    String.utf8EncodeChar c = [UInt8.ofNat c.toNat] := by
  have hle : c.val.toNat ≤ 0x7F := Nat.le_of_lt_succ h
  unfold String.utf8EncodeChar
  simp only [hle, if_pos]
  rfl

theorem encode_ascii : ∀ {s : List Char}, Ascii s → encode s = bytesOf s
  | [], _ => rfl
  | c :: s, h => by
    rw [encode_cons, encode_char_ascii (h c (by simp)),
      encode_ascii fun d hd => h d (List.mem_cons_of_mem _ hd)]
    rfl

theorem encodeWithin_ascii : ∀ {s : List Char} (n : ℕ), Ascii s →
    encodeWithin n s = (bytesOf s).take n
  | [], _, _ => by simp [encodeWithin, bytesOf]
  | c :: s, n, h => by
    have hs : Ascii s := fun d hd => h d (List.mem_cons_of_mem _ hd)
    rw [encodeWithin, encode_char_ascii (h c (by simp)), List.length_singleton]
    cases n with
    | zero => simp
    | succ n =>
      rw [if_pos (by omega), encodeWithin_ascii _ hs]
      rfl

theorem decode_bytesOf {s : List Char} (h : Ascii s) : decode (bytesOf s) = s := by
  rw [← encode_ascii h, decode_encode]

/-- The text with a character for each byte. -/
def charsOf (bs : List UInt8) : List Char := bs.map fun b => Char.ofNat b.toNat

theorem toNat_char (b : UInt8) : (Char.ofNat b.toNat).toNat = b.toNat := by
  have hvalid : b.toNat.isValidChar := Or.inl (by have := b.toNat_lt; omega)
  rw [Char.ofNat, dif_pos hvalid]
  rfl

@[simp] theorem bytesOf_charsOf (bs : List UInt8) : bytesOf (charsOf bs) = bs := by
  unfold bytesOf charsOf
  rw [List.map_map]
  refine (List.map_congr_left fun b _ => ?_).trans (List.map_id bs)
  simp [toNat_char]

theorem charsOf_ascii {bs : List UInt8} (h : ∀ b ∈ bs, b.toNat < 0x80) : Ascii (charsOf bs) := by
  intro c hc
  obtain ⟨b, hb, rfl⟩ := List.mem_map.1 hc
  rw [toNat_char]
  exact h b hb

end Utf8
