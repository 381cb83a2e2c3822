import Baseline.Utf8
import Mathlib.Data.List.Basic
import Mathlib.Data.Char

/-!
# Text in UTF-16

The code units of a text: one for each character, and two, a high and a low surrogate, for one
past U+FFFF. Any list of units is read as characters, a surrogate on its own as the replacement
character, so what is read of a text's own units is the text (`decode_encode`), and lists of units
that are not a text's are those that reading changes (`wellFormed_iff`).
-/

namespace Utf16

def encodeChar (c : Char) : List UInt16 :=
  if c.toNat < 0x10000 then [UInt16.ofNat c.toNat]
  else [UInt16.ofNat (0xD800 + (c.toNat - 0x10000) / 0x400),
    UInt16.ofNat (0xDC00 + (c.toNat - 0x10000) % 0x400)]

def encode (s : List Char) : List UInt16 := s.flatMap encodeChar

/-- A unit that is not one of a pair. -/
def single (u : UInt16) : Char :=
  if 0xD800 ≤ u.toNat ∧ u.toNat < 0xE000 then Utf8.replacement else Char.ofNat u.toNat

def decode : List UInt16 → List Char
  | [] => []
  | [u] => [single u]
  | u :: v :: s =>
    if (0xD800 ≤ u.toNat ∧ u.toNat < 0xDC00) ∧ 0xDC00 ≤ v.toNat ∧ v.toNat < 0xE000 then
      Char.ofNat (0x10000 + (u.toNat - 0xD800) * 0x400 + (v.toNat - 0xDC00)) :: decode s
    else single u :: decode (v :: s)

/-- No surrogate stands alone. -/
def WellFormed (s : List UInt16) : Prop := encode (decode s) = s

instance (s : List UInt16) : Decidable (WellFormed s) :=
  inferInstanceAs (Decidable (encode (decode s) = s))

theorem decode_single_cons {u : UInt16} (hu : ¬(0xD800 ≤ u.toNat ∧ u.toNat < 0xE000)) :
    ∀ s, decode (u :: s) = Char.ofNat u.toNat :: decode s
  | [] => by
    unfold decode single
    rw [if_neg hu]
  | v :: s => by rw [decode, if_neg (by omega), single, if_neg hu]

theorem decode_char_append (c : Char) (s : List UInt16) :
    decode (encodeChar c ++ s) = c :: decode s := by
  have hc : c.toNat < 0xD800 ∨ 0xDFFF < c.toNat ∧ c.toNat < 0x110000 := c.valid
  unfold encodeChar
  split_ifs with h
  · have hu : (UInt16.ofNat c.toNat).toNat = c.toNat := by
      rw [UInt16.toNat_ofNat']
      omega
    rw [List.singleton_append, decode_single_cons (by omega), hu, Char.ofNat_toNat]
  · have hu : (UInt16.ofNat (0xD800 + (c.toNat - 0x10000) / 0x400)).toNat
        = 0xD800 + (c.toNat - 0x10000) / 0x400 := by
      rw [UInt16.toNat_ofNat']
      omega
    have hv : (UInt16.ofNat (0xDC00 + (c.toNat - 0x10000) % 0x400)).toNat
        = 0xDC00 + (c.toNat - 0x10000) % 0x400 := by
      rw [UInt16.toNat_ofNat']
      omega
    have hn : 0x10000 + (0xD800 + (c.toNat - 0x10000) / 0x400 - 0xD800) * 0x400
        + (0xDC00 + (c.toNat - 0x10000) % 0x400 - 0xDC00) = c.toNat := by omega
    rw [List.cons_append, List.singleton_append, decode, hu, hv, if_pos (by omega), hn,
      Char.ofNat_toNat]

@[simp] theorem decode_encode : ∀ s : List Char, decode (encode s) = s
  | [] => rfl
  | c :: s => by
    rw [encode, List.flatMap_cons, decode_char_append, ← encode, decode_encode s]

theorem wellFormed_iff {s : List UInt16} : WellFormed s ↔ ∃ text, s = encode text := by
  constructor
  · exact fun h => ⟨decode s, h.symm⟩
  · rintro ⟨text, rfl⟩
    rw [WellFormed, decode_encode]

theorem mem_encode_of_mem {c : Char} {s : List Char} (hc : c ∈ s) (h : c.toNat < 0x10000) :
    UInt16.ofNat c.toNat ∈ encode s := by
  refine List.mem_flatMap.2 ⟨c, hc, ?_⟩
  rw [encodeChar, if_pos h]
  exact List.mem_singleton_self _

end Utf16
