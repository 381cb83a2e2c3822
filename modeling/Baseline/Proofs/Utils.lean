import Baseline.MerkleTree
import Baseline.Proofs.Bytes
import Baseline.Proofs.HashTree
import Baseline.Proofs.MerkleTreeSHA256
import Mathlib.Algebra.Ring.Int.Defs

/-!
# Row-numbered indices and truncated hashes

The index functions of the commit manager walk the rows of the abstract tree (`parent_index`,
`siblingPath_index`), its `getFrontierSlot` finds the slot as long as the shifts stay in 32 bits
(`getFrontierSlot_eq`) and otherwise never returns (`getFrontierSlot_agrees_iff`), and its string
hashing computes the hash of the bytes the strings carry (`concatenateThenHash_eq`).
-/

namespace Baseline

open HashTree

namespace CommitMgr

/-! ## Arrays with holes -/

section Arrays

variable {α : Type} (a : List (Option α)) (x : α)

theorem length_setEntry (i : ℕ) : (setEntry a i x).length = max a.length (i + 1) := by
  unfold setEntry
  split_ifs with h
  · rw [List.length_set]
    omega
  · simp only [List.length_append, List.length_replicate, List.length_singleton]
    omega

theorem entry_setEntry (i j : ℕ) :
    entry (setEntry a i x) j = if j = i then some x else entry a j := by
  unfold entry setEntry
  split_ifs with h hj hj
  · subst hj
    rw [List.getElem?_set_self h]
    rfl
  · rw [List.getElem?_set_ne (Ne.symm hj)]
  · subst hj
    rw [List.getElem?_append_right (by simp; omega)]
    simp [show j - (a.length + (j - a.length)) = 0 by omega]
  · rcases lt_or_ge j a.length with hlt | hge
    · rw [List.getElem?_append_left (by simp; omega), List.getElem?_append_left hlt]
    · rw [List.getElem?_eq_none hge]
      rcases lt_or_ge j i with hji | hji
      · rw [List.getElem?_append_left (by simp; omega), List.getElem?_append_right hge,
          List.getElem?_replicate]
        split_ifs <;> rfl
      · rw [List.getElem?_eq_none (by simp; omega)]

@[simp] theorem entry_setEntry_self (i : ℕ) : entry (setEntry a i x) i = some x := by
  rw [entry_setEntry, if_pos rfl]

theorem entry_setEntry_ne {i j : ℕ} (h : j ≠ i) : entry (setEntry a i x) j = entry a j := by
  rw [entry_setEntry, if_neg h]

theorem entry_setLength (n i : ℕ) :
    entry (setLength a n) i = if i < n then entry a i else none := by
  unfold entry setLength
  split_ifs with h
  · rcases lt_or_ge i a.length with hlt | hge
    · rw [List.getElem?_append_left (by simp; omega), List.getElem?_take_of_lt h]
    · rw [List.getElem?_eq_none hge, List.getElem?_append_right (by simp; omega),
        List.getElem?_replicate]
      split_ifs <;> rfl
  · rw [List.getElem?_eq_none (by simp; omega)]
    rfl

/-- Arrays of one length with the same entries are the same. -/
theorem entry_ext {b : List (Option α)} (hl : a.length = b.length)
    (h : ∀ i, entry a i = entry b i) : a = b := by
  refine List.ext_getElem hl fun i h1 h2 => ?_
  have := h i
  rwa [entry, entry, List.getElem?_eq_getElem h1, List.getElem?_eq_getElem h2] at this

end Arrays

/-! ## Indices -/

theorem leafIndexToNodeIndex_eq (h p : ℕ) : leafIndexToNodeIndex h p = index h 0 p := rfl

theorem parent_index {h l : ℕ} (hl : l < h) (p : ℕ) :
    parentNodeIndex (index h l p) = index h (l + 1) (p / 2) := by
  have hparent := index_parent hl p
  unfold parentNodeIndex rightShift
  split_ifs with hodd <;> simp only [pow_one]
  · rw [if_neg (by omega)] at hparent
    exact hparent.symm
  · rw [if_pos (by omega)] at hparent
    exact hparent.symm

theorem sibling_index {h l : ℕ} (hl : l < h) (p : ℕ) :
    siblingNodeIndex (index h l p) = index h l (beside p) := by
  have heven := index_even_iff hl p
  have hpos : 0 < 2 ^ (h - l) := by positivity
  unfold siblingNodeIndex beside
  split_ifs with h1 h2 h2 <;> unfold index at * <;> omega

theorem index_root (h : ℕ) : index h h 0 = 0 := by simp [index]

theorem index_lt {h l p : ℕ} (hp : p < 2 ^ (h - l)) :
    index h l p + 1 < 2 ^ (h - l + 1) := by
  unfold index
  rw [pow_succ]
  omega

theorem index_le_of_le {h l : ℕ} (hl : 1 ≤ l) (hlh : l ≤ h) {p : ℕ} (hp : p < 2 ^ (h - l)) :
    index h l p < 2 ^ h - 1 := by
  have h1 := index_lt hp
  have h2 : 2 ^ (h - l + 1) ≤ 2 ^ h := Nat.pow_le_pow_right (by norm_num) (by omega)
  omega

theorem pathIndicesLoop_eq {h : ℕ} : ∀ (n l p fuel : ℕ), l + n = h → p < 2 ^ n →
    index h l p ≤ fuel →
      pathIndicesLoop fuel (index h l p)
        = (List.range n).map fun i => index h (l + 1 + i) (p / 2 ^ (i + 1))
  | 0, l, p, fuel, hn, hp, _ => by
    obtain rfl : l = h := by omega
    obtain rfl : p = 0 := by simpa using hp
    rw [index_root]
    cases fuel <;> rfl
  | n + 1, l, p, fuel, hn, hp, hfuel => by
    have hl : l < h := by omega
    have hpos := index_pos hl p
    obtain ⟨fuel, rfl⟩ : ∃ m, fuel = m + 1 := ⟨fuel - 1, by omega⟩
    have hnext : index h (l + 1) (p / 2) ≤ fuel := by
      rw [← parent_index hl, parentNodeIndex, rightShift, rightShift]
      split_ifs <;> omega
    have ih := pathIndicesLoop_eq n (l + 1) (p / 2) fuel (by omega)
      (by rw [pow_succ] at hp; omega) hnext
    rw [pathIndicesLoop, if_pos hpos, parent_index hl, ih, List.range_succ_eq_map, List.map_cons,
      List.map_map]
    refine congrArg₂ _ (by simp) (List.map_congr_left fun i _ => ?_)
    simp only [Function.comp, Nat.succ_eq_add_one]
    rw [Nat.div_div_eq_div_mul, ← pow_succ', show l + 1 + 1 + i = l + 1 + (i + 1) by omega]

/-- The sibling path of leaf `k`: what lies beside its path at every level, and the root. -/
theorem siblingPath_index {h k : ℕ} (hk : k < 2 ^ h) :
    getSiblingPathIndices (index h 0 k)
      = (List.range h).map (fun l => index h l (beside (k / 2 ^ l))) ++ [0] := by
  have hpath := pathIndicesLoop_eq h 0 k (index h 0 k) (Nat.zero_add h) hk le_rfl
  rw [getSiblingPathIndices, getPathIndices, hpath, List.map_map]
  rcases h with _ | h
  · obtain rfl : k = 0 := by simpa using hk
    rfl
  · have hrest : ((List.range (h + 1)).map
        (siblingNodeIndex ∘ fun i => index (h + 1) (0 + 1 + i) (k / 2 ^ (i + 1))))
        = (List.range h).map
          ((fun l => index (h + 1) l (beside (k / 2 ^ l))) ∘ Nat.succ) ++ [0] := by
      rw [List.range_succ, List.map_append]
      refine congrArg₂ _ (List.map_congr_left fun i hi => ?_) ?_
      · simp only [Function.comp, Nat.succ_eq_add_one]
        rw [show 0 + 1 + i = i + 1 by omega, sibling_index (by simp at hi; omega)]
      · simp only [List.map_cons, List.map_nil, Function.comp]
        rw [show 0 + 1 + h = h + 1 by omega, Nat.div_eq_of_lt hk, index_root]
        rfl
    rw [hrest, sibling_index (Nat.succ_pos h), List.range_succ_eq_map, List.map_cons, List.map_map,
      pow_zero, Nat.div_one]
    rfl

theorem calculateBucket_eq {j : ℕ} (hj : j < BUCKET_SIZE) : calculateBucket j = 0 :=
  Nat.div_eq_of_lt hj

theorem calculateBucket_ne_zero {j : ℕ} (hj : BUCKET_SIZE ≤ j) : calculateBucket j ≠ 0 := by
  rw [calculateBucket, ne_eq, Nat.div_eq_zero_iff]
  unfold BUCKET_SIZE at hj ⊢
  omega

/-! ## `getFrontierSlot` -/

theorem toInt32_two_pow : ∀ e < 31, toInt32 (2 ^ e) = 2 ^ e := by decide

theorem toInt32_dvd {e : ℕ} (he : e ≤ 31) (x : ℤ) :
    (toInt32 (2 ^ e) ≠ 0 ∧ x.tmod (toInt32 (2 ^ e)) = 0) ↔ (2 : ℤ) ^ e ∣ x := by
  rw [← Int.dvd_iff_tmod_eq_zero]
  rcases he.lt_or_eq with hlt | rfl
  · rw [toInt32_two_pow e (by omega)]
    exact and_iff_right (by positivity)
  · rw [show toInt32 (2 ^ 31) = -2 ^ 31 by decide, Int.neg_dvd]
    exact and_iff_right (by norm_num)

theorem slot_dvd {k e : ℕ} (he : e ≤ slot k) :
    (2 : ℤ) ^ (e + 1) ∣ (k : ℤ) + 1 - 2 ^ e ↔ e = slot k := by
  have hpow : (2 : ℤ) ^ e ≠ 0 := by positivity
  rcases he.eq_or_lt with rfl | hlt
  · obtain ⟨q, hq⟩ := succ_eq_slot k
    have hcast : (k : ℤ) + 1 = 2 ^ slot k * (2 * q + 1) := by exact_mod_cast hq
    refine iff_of_true ⟨q, ?_⟩ rfl
    rw [hcast, pow_succ]
    ring
  · obtain ⟨m, hm⟩ := succ_eq_of_lt_slot hlt
    have hcast : (k : ℤ) + 1 = 2 ^ e * (2 * m + 2) := by exact_mod_cast hm
    refine iff_of_false ?_ hlt.ne
    rintro ⟨c, hc⟩
    have h2 : (2 : ℤ) ^ e * (2 * m + 1) = 2 ^ e * (2 * c) := by
      rw [hcast, pow_succ] at hc
      linear_combination hc
    have := mul_left_cancel₀ hpow h2
    omega

theorem frontierSlotLoop_eq {k : ℕ} (hs : slot k ≤ 30) : ∀ (fuel e : ℕ), e ≤ slot k →
    slot k < e + fuel →
      frontierSlotLoop k fuel e (2 ^ e) (toInt32 (2 ^ (e + 1))) = some (slot k)
  | 0, e, he, hf => by omega
  | fuel + 1, e, he, hf => by
    have hiff := (toInt32_dvd (e := e + 1) (by omega) ((k : ℤ) + 1 - 2 ^ e)).trans (slot_dvd he)
    rw [frontierSlotLoop]
    split_ifs with h
    · rw [hiff.1 h]
    · have hlt : e < slot k := lt_of_le_of_ne he fun heq => h (hiff.2 heq)
      rw [toInt32_two_pow (e + 1) (by omega), ← pow_succ]
      exact frontierSlotLoop_eq hs fuel (e + 1) hlt (by omega)

theorem getFrontierSlot_eq {k : ℕ} (hs : slot k ≤ 30) : getFrontierSlot k = some (slot k) := by
  unfold getFrontierSlot
  split_ifs with hodd
  · have h1 : slot k ≠ 0 := by
      intro h0
      obtain ⟨q, hq⟩ := succ_eq_slot k
      rw [h0] at hq
      omega
    exact frontierSlotLoop_eq hs 32 1 (by omega) (by omega)
  · rw [slot_eq_of (q := k / 2) (s := 0) (by omega)]

/-- Once the shift has made `pow2` zero, no turn is the last. -/
theorem frontierSlotLoop_zero (k : ℕ) : ∀ (fuel e : ℕ) (pow1 : ℤ),
    frontierSlotLoop k fuel e pow1 0 = none
  | 0, _, _ => rfl
  | fuel + 1, e, _ => by
    have hnext : toInt32 (0 * 2) = 0 := by decide
    rw [frontierSlotLoop, if_neg fun h => h.1 rfl, hnext]
    exact frontierSlotLoop_zero k fuel (e + 1) 0

theorem frontierSlotLoop_none {k : ℕ} (hs : 31 ≤ slot k) : ∀ (fuel e : ℕ), e ≤ 30 →
    frontierSlotLoop k fuel e (2 ^ e) (toInt32 (2 ^ (e + 1))) = none
  | 0, _, _ => rfl
  | fuel + 1, e, he => by
    have hiff := (toInt32_dvd (e := e + 1) (by omega) ((k : ℤ) + 1 - 2 ^ e)).trans
      (slot_dvd (by omega))
    have hne : e ≠ slot k := by omega
    rw [frontierSlotLoop, if_neg fun h => hne (hiff.1 h)]
    rcases he.lt_or_eq with hlt | rfl
    · rw [toInt32_two_pow (e + 1) (by omega), ← pow_succ]
      exact frontierSlotLoop_none hs fuel (e + 1) (by omega)
    · rw [show toInt32 (toInt32 (2 ^ (30 + 1)) * 2) = 0 by decide]
      exact frontierSlotLoop_zero k fuel _ _

/-- `getFrontierSlot`, given so many turns of its loop. -/
def getFrontierSlotWithin (fuel leafIndex : ℕ) : Option ℕ :=
  if leafIndex % 2 = 1 then frontierSlotLoop leafIndex fuel 1 2 (toInt32 (2 * 2)) else some 0

theorem getFrontierSlotWithin_none {k : ℕ} (hs : 31 ≤ slot k) (fuel : ℕ) :
    getFrontierSlotWithin fuel k = none := by
  obtain ⟨m, hm⟩ := succ_eq_of_lt_slot (show 0 < slot k by omega)
  unfold getFrontierSlotWithin
  rw [if_pos (by omega)]
  exact frontierSlotLoop_none hs fuel 1 (by omega)

/-- Below `2 ^ 32`, the leaves whose slot the shifts do not reach. -/
theorem slot_lt_31_iff {k : ℕ} (hk : k < 2 ^ 32) :
    slot k ≤ 30 ↔ k ≠ 2 ^ 31 - 1 ∧ k ≠ 2 ^ 32 - 1 := by
  have h31 : slot (2 ^ 31 - 1) = 31 := slot_eq_of (q := 0) (by norm_num)
  have h32 : slot (2 ^ 32 - 1) = 32 := slot_eq_of (q := 0) (by norm_num)
  constructor
  · intro hs
    constructor <;> rintro rfl <;> omega
  · rintro ⟨hne31, hne32⟩
    by_contra hs
    obtain ⟨m, hm⟩ := succ_eq_of_lt_slot (show 30 < slot k by omega)
    omega

/-- Both functions return the exponent of two in `leafIndex + 1`, the JavaScript one after some
number of turns. -/
theorem getFrontierSlot_agrees_iff {k : ℕ} (hk : k < 2 ^ 32) :
    (∃ s, (∃ fuel, getFrontierSlotWithin fuel k = some s) ∧
        MerkleTreeSHA256.getFrontierSlot k = some s ∧ 2 ^ s ∣ k + 1 ∧ ¬ 2 ^ (s + 1) ∣ k + 1) ↔
      k ≠ 2 ^ 31 - 1 ∧ k ≠ 2 ^ 32 - 1 := by
  rw [← slot_lt_31_iff hk]
  constructor
  · rintro ⟨s, ⟨fuel, hfuel⟩, -⟩
    by_contra hs
    rw [getFrontierSlotWithin_none (by omega)] at hfuel
    cases hfuel
  · intro hs
    obtain ⟨q, hq⟩ := succ_eq_slot k
    refine ⟨slot k, ⟨32, getFrontierSlot_eq hs⟩,
      MerkleTreeSHA256.getFrontierSlot_eq (by omega), ⟨2 * q + 1, hq⟩, ?_⟩
    rintro ⟨c, hc⟩
    have hpos : 0 < 2 ^ slot k := by positivity
    have heq : 2 * q + 1 = 2 * c := by
      refine Nat.eq_of_mul_eq_mul_left hpos ?_
      rw [← hq, hc, pow_succ, mul_assoc]
    omega

theorem getFrontierSlot_agrees_seven :
    ∃ s, (∃ fuel, getFrontierSlotWithin fuel 7 = some s) ∧
      MerkleTreeSHA256.getFrontierSlot 7 = some s ∧ 2 ^ s ∣ 7 + 1 ∧ ¬ 2 ^ (s + 1) ∣ 7 + 1 :=
  (getFrontierSlot_agrees_iff (by norm_num)).2 (by norm_num)

theorem getFrontierSlot_hangs : (∀ fuel, getFrontierSlotWithin fuel (2 ^ 31 - 1) = none) ∧
    MerkleTreeSHA256.getFrontierSlot (2 ^ 31 - 1) = some 31 := by
  have hs : slot (2 ^ 31 - 1) = 31 := slot_eq_of (q := 0) (by norm_num)
  refine ⟨getFrontierSlotWithin_none (by omega), ?_⟩
  rw [MerkleTreeSHA256.getFrontierSlot_eq (by norm_num), hs]

/-! ## Hashing -/

/-- The string ends in the digits of the 27 bytes that are hashed for it. -/
def Carries (s : Str) (v : Bytes 27) : Prop := sliceLast 54 s = toHex v.1

theorem carries_hexlify (v : Bytes 27) : Carries (hexlify v) v := sliceLast_hexlify27 v

theorem carries_low27 (v : Bytes 32) : Carries (hexlify v) v.low27 := sliceLast_hexlify32 v

theorem zero_eq_hexlify : ZERO = hexlify (Bytes.zeros 27) := by decide

theorem zeroRoot_eq_hexlify : zeroRoot = hexlify (Bytes.zeros 32) := by decide

theorem carries_zero : Carries ZERO (Bytes.zeros 27) := zero_eq_hexlify ▸ carries_hexlify _

theorem strip0x_toHex (bs : List UInt8) : strip0x (toHex bs) = toHex bs := by
  unfold strip0x
  split
  · exact absurd ‹_› (toHex_ne_cons_x _ _)
  · rfl

theorem truncate_of_carries {s : Str} {v : Bytes 27} (h : Carries s v) :
    truncate s = hexlify v := by
  unfold truncate hexlify
  rw [show NODE_HASHLENGTH * 2 = 54 from rfl, h]

variable (sha256 : List UInt8 → Bytes 32)

theorem concatenateThenHash_eq {a b : Str} {x y : Bytes 27} (ha : Carries a x) (hb : Carries b y) :
    concatenateThenHash sha256 a b = hexlify (precompile sha256 (x.append y)) := by
  rw [Carries] at ha hb
  rw [concatenateThenHash, show NODE_HASHLENGTH * 2 = 54 from rfl, ha, hb, shaHash, strip0x_toHex,
    strip0x_toHex, bufferFromHex_toHex, bufferFromHex_toHex]
  rfl

end CommitMgr

end Baseline
