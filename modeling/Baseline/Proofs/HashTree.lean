import Baseline.HashTree
import Mathlib.Data.Nat.Log
import Mathlib.Data.Nat.Factorization.Basic
import Mathlib.NumberTheory.Padics.PadicVal.Basic
import Mathlib.Tactic

/-!
# The frontier of an append-only tree

Appending leaf `k` changes the nodes above it and no other (`node_append_of_ne`), so the path
hashed from a frontier is the tree's own (`climb_eq_node`), its last digest the new root
(`digestUp_eq_root`), and its value at the level where `k` completes a subtree is what the next
frontier needs there (`isFrontier_push`). A path of the right length that leads to the root starts
from the leaf at its position, as long as no two different pairs hash alike (`pairs_binding`), and
then two trees of one root have the same leaves, if they have equally many (`eq_of_root_eq`).
-/

namespace HashTree

variable {N D : Type*} (S : Scheme N D)

theorem div_two_pow_succ (k l : ℕ) : k / 2 ^ (l + 1) = k / 2 ^ l / 2 := by
  rw [pow_succ, Nat.div_div_eq_div_mul]

theorem testBit_iff {k l : ℕ} : k.testBit l = true ↔ k / 2 ^ l % 2 = 1 := by
  rw [Nat.testBit_eq_decide_div_mod_eq, decide_eq_true_eq]

/-! ## Node numbers -/

theorem two_pow_sub {h l : ℕ} (hl : l < h) : 2 ^ (h - l) = 2 * 2 ^ (h - (l + 1)) := by
  rw [show h - l = h - (l + 1) + 1 by omega, pow_succ]
  ring

theorem index_even_iff {h l : ℕ} (hl : l < h) (p : ℕ) : index h l p % 2 = 0 ↔ p % 2 = 1 := by
  have hpos : 0 < 2 ^ (h - (l + 1)) := by positivity
  rw [index, two_pow_sub hl]
  omega

theorem index_pos {h l : ℕ} (hl : l < h) (p : ℕ) : 0 < index h l p := by
  have hpos : 0 < 2 ^ (h - (l + 1)) := by positivity
  rw [index, two_pow_sub hl]
  omega

theorem index_parent {h l : ℕ} (hl : l < h) (p : ℕ) :
    index h (l + 1) (p / 2)
      = if index h l p % 2 = 0 then (index h l p - 1) / 2 else index h l p / 2 := by
  have hpos : 0 < 2 ^ (h - (l + 1)) := by positivity
  simp only [index, two_pow_sub hl]
  split_ifs <;> omega

/-! ## The slot of a leaf -/

theorem succ_eq_slot (k : ℕ) : ∃ q, k + 1 = 2 ^ slot k * (2 * q + 1) := by
  obtain ⟨s, m, ⟨q, rfl⟩, h⟩ := Nat.exists_eq_two_pow_mul_odd (Nat.succ_ne_zero k)
  have hs : slot k = s := by
    rw [slot, ← Nat.succ_eq_add_one, h, padicValNat.mul (by positivity) (by omega),
      padicValNat.prime_pow, padicValNat.eq_zero_of_not_dvd (by omega), add_zero]
  exact ⟨q, by rw [hs]; exact h⟩

theorem slot_eq_of {k s q : ℕ} (h : k + 1 = 2 ^ s * (2 * q + 1)) : slot k = s := by
  rw [slot, h, padicValNat.mul (by positivity) (by omega), padicValNat.prime_pow,
    padicValNat.eq_zero_of_not_dvd (by omega), add_zero]

/-- At its slot a leaf's position is even, and the next leaf's is the one after it. -/
theorem div_slot (k : ℕ) :
    ∃ q, k / 2 ^ slot k = 2 * q ∧ (k + 1) / 2 ^ slot k = 2 * q + 1 := by
  obtain ⟨q, hq⟩ := succ_eq_slot k
  have hpos : 0 < 2 ^ slot k := by positivity
  have hk : k = 2 ^ slot k * (2 * q) + (2 ^ slot k - 1) := by
    have : k + 1 = 2 ^ slot k * (2 * q) + 2 ^ slot k := by rw [hq]; ring
    omega
  refine ⟨q, ?_, ?_⟩
  · calc k / 2 ^ slot k = (2 ^ slot k * (2 * q) + (2 ^ slot k - 1)) / 2 ^ slot k := by rw [← hk]
      _ = 2 * q := by rw [Nat.mul_add_div hpos, Nat.div_eq_of_lt (by omega), add_zero]
  · calc (k + 1) / 2 ^ slot k = 2 ^ slot k * (2 * q + 1) / 2 ^ slot k := by rw [← hq]
      _ = 2 * q + 1 := Nat.mul_div_cancel_left _ hpos

theorem succ_eq_of_lt_slot {k l : ℕ} (hl : l < slot k) : ∃ m, k + 1 = 2 ^ l * (2 * m + 2) := by
  obtain ⟨q, hq⟩ := succ_eq_slot k
  obtain ⟨d, hd⟩ : ∃ d, slot k = l + 1 + d := ⟨slot k - (l + 1), by omega⟩
  have hpos : 0 < 2 ^ d * (2 * q + 1) := by positivity
  obtain ⟨m, hm⟩ : ∃ m, 2 ^ d * (2 * q + 1) = m + 1 := ⟨2 ^ d * (2 * q + 1) - 1, by omega⟩
  refine ⟨m, ?_⟩
  calc k + 1 = 2 ^ l * (2 * (2 ^ d * (2 * q + 1))) := by rw [hq, hd, pow_add, pow_succ]; ring
    _ = 2 ^ l * (2 * m + 2) := by rw [hm]; ring

theorem succ_div_of_lt_slot {k l : ℕ} (hl : l < slot k) : (k + 1) / 2 ^ l % 2 = 0 := by
  obtain ⟨m, hm⟩ := succ_eq_of_lt_slot hl
  rw [hm, Nat.mul_div_cancel_left _ (by positivity)]
  omega

theorem succ_div_of_slot_lt {k l : ℕ} (hl : slot k < l) : (k + 1) / 2 ^ l = k / 2 ^ l := by
  obtain ⟨d, rfl⟩ : ∃ d, l = slot k + 1 + d := ⟨l - (slot k + 1), by omega⟩
  obtain ⟨q, h1, h2⟩ := div_slot k
  rw [pow_add, ← Nat.div_div_eq_div_mul, ← Nat.div_div_eq_div_mul, div_two_pow_succ,
    div_two_pow_succ, h1, h2]
  congr 1
  omega

theorem slot_le {h k : ℕ} (hk : k < 2 ^ h) : slot k ≤ h := by
  by_contra hlt
  obtain ⟨q, hq⟩ := succ_eq_slot k
  have h1 : 2 ^ h < 2 ^ slot k := Nat.pow_lt_pow_right (by norm_num) (by omega)
  have h2 : 2 ^ slot k ≤ 2 ^ slot k * (2 * q + 1) := Nat.le_mul_of_pos_right _ (by omega)
  omega

/-- Only the last leaf of a full tree completes it. -/
theorem slot_eq_iff {h k : ℕ} (hk : k < 2 ^ h) : slot k = h ↔ k + 1 = 2 ^ h := by
  constructor
  · rintro rfl
    obtain ⟨q, hq⟩ := succ_eq_slot k
    rcases Nat.eq_zero_or_pos q with rfl | hpos
    · simpa using hq
    · have : 2 ^ slot k * 2 ≤ 2 ^ slot k * (2 * q + 1) := Nat.mul_le_mul_left _ (by omega)
      omega
  · intro hfull
    exact slot_eq_of (q := 0) (by simpa using hfull)

/-! ## Nodes -/

/-! ## Nodes by level and position -/

theorem index_inj {h l l' p p' : ℕ} (hl : l ≤ h) (hl' : l' ≤ h) (hp : p < 2 ^ (h - l))
    (hp' : p' < 2 ^ (h - l')) (heq : index h l p = index h l' p') : l = l' ∧ p = p' := by
  have hpos : 0 < 2 ^ (h - l) := by positivity
  have hpos' : 0 < 2 ^ (h - l') := by positivity
  unfold index at heq
  have hlog : Nat.log 2 (2 ^ (h - l) + p) = h - l :=
    Nat.log_eq_of_pow_le_of_lt_pow (by omega) (by rw [pow_succ]; omega)
  have hlog' : Nat.log 2 (2 ^ (h - l') + p') = h - l' :=
    Nat.log_eq_of_pow_le_of_lt_pow (by omega) (by rw [pow_succ]; omega)
  have hrow : h - l = h - l' := by
    rw [← hlog, ← hlog']
    congr 1
    omega
  rw [hrow] at heq
  omega

theorem log_le {h j : ℕ} (hj : j + 1 < 2 ^ (h + 1)) : Nat.log 2 (j + 1) ≤ h :=
  Nat.lt_succ_iff.1 ((Nat.log_lt_iff_lt_pow (by norm_num) (Nat.succ_ne_zero j)).2 hj)

theorem positionOf_lt {h j : ℕ} (hj : j + 1 < 2 ^ (h + 1)) :
    positionOf j < 2 ^ (h - levelOf h j) := by
  have hlt := Nat.lt_pow_succ_log_self (show 1 < 2 by norm_num) (j + 1)
  rw [pow_succ] at hlt
  rw [positionOf, levelOf, Nat.sub_sub_self (log_le hj)]
  omega

theorem index_levelOf {h j : ℕ} (hj : j + 1 < 2 ^ (h + 1)) :
    index h (levelOf h j) (positionOf j) = j := by
  have hle : 2 ^ Nat.log 2 (j + 1) ≤ j + 1 := Nat.pow_log_le_self 2 (Nat.succ_ne_zero j)
  rw [index, positionOf, levelOf, Nat.sub_sub_self (log_le hj)]
  omega

/-- A node between the root and the leaves. -/
theorem levelOf_inner {h j : ℕ} (h0 : 0 < j) (hj : j < 2 ^ h - 1) :
    0 < levelOf h j ∧ levelOf h j < h := by
  have hlt : Nat.log 2 (j + 1) < h :=
    (Nat.log_lt_iff_lt_pow (by norm_num) (Nat.succ_ne_zero j)).2 (by omega)
  have hpos : 0 < Nat.log 2 (j + 1) := Nat.log_pos (by norm_num) (by omega)
  unfold levelOf
  omega

theorem mem_path {k : ℕ} : ∀ {n l l' p : ℕ},
    (l', p) ∈ path k l n ↔ l < l' ∧ l' ≤ l + n ∧ p = k / 2 ^ l'
  | 0, l, l', p => by
    simp only [path, List.not_mem_nil, false_iff]
    omega
  | n + 1, l, l', p => by
    rw [path, List.mem_cons, mem_path, Prod.mk.injEq]
    constructor
    · rintro (⟨rfl, rfl⟩ | ⟨h1, h2, h3⟩)
      · exact ⟨by omega, by omega, rfl⟩
      · exact ⟨by omega, by omega, h3⟩
    · rintro ⟨h1, h2, rfl⟩
      rcases Nat.lt_or_ge (l + 1) l' with h | h
      · exact .inr ⟨h, by omega, rfl⟩
      · obtain rfl : l' = l + 1 := by omega
        exact .inl ⟨rfl, rfl⟩

/-- Up to its slot, a leaf is the last one below the nodes of its path. -/
theorem div_mul_of_le_slot {k l : ℕ} (hl : l ≤ slot k) : (k / 2 ^ l + 1) * 2 ^ l = k + 1 := by
  obtain ⟨q, hq⟩ := succ_eq_slot k
  have hdvd : 2 ^ l ∣ k + 1 := hq ▸ (pow_dvd_pow 2 hl).mul_right _
  rw [← Nat.succ_div_of_dvd hdvd, Nat.div_mul_cancel hdvd]

theorem le_slot_of_mul {k l p : ℕ} (h : (p + 1) * 2 ^ l = k + 1) : l ≤ slot k := by
  by_contra hlt
  have h1 := succ_div_of_slot_lt (not_le.1 hlt)
  have hpos : 0 < 2 ^ l := by positivity
  rw [← h, Nat.mul_div_cancel _ hpos] at h1
  have h2 := Nat.div_mul_le_self k (2 ^ l)
  rw [← h1, h] at h2
  omega

theorem mem_completed : ∀ {n k l p : ℕ},
    (l, p) ∈ completed k n ↔ 0 < l ∧ k < (p + 1) * 2 ^ l ∧ (p + 1) * 2 ^ l ≤ k + n
  | 0, k, l, p => by
    simp only [completed, List.not_mem_nil, false_iff]
    omega
  | n + 1, k, l, p => by
    rw [completed, List.mem_append, mem_path, mem_completed]
    constructor
    · rintro (⟨h1, h2, rfl⟩ | ⟨h1, h2, h3⟩)
      · have := div_mul_of_le_slot (k := k) (l := l) (by omega)
        exact ⟨h1, by omega, by omega⟩
      · exact ⟨h1, by omega, by omega⟩
    · rintro ⟨h1, h2, h3⟩
      rcases Nat.lt_or_ge (k + 1) ((p + 1) * 2 ^ l) with h | h
      · exact .inr ⟨h1, h, by omega⟩
      · have heq : (p + 1) * 2 ^ l = k + 1 := by omega
        have hl := le_slot_of_mul heq
        have hpos : 0 < 2 ^ l := by positivity
        have hp : p + 1 = k / 2 ^ l + 1 :=
          Nat.eq_of_mul_eq_mul_right hpos (heq.trans (div_mul_of_le_slot hl).symm)
        exact .inl ⟨h1, by omega, by omega⟩

/-- A node with leaves below it that the leaves from `m` to `k` have not completed, and that is not
on the last one's path, was complete before. -/
theorem complete_before {h k m n l p : ℕ} (hk : m + n = k + 1) (hl : 0 < l) (hlh : l ≤ h)
    (hmem : p * 2 ^ l < k + 1) (hpath : (l, p) ∉ path k (slot k) (h - slot k))
    (hcomp : (l, p) ∉ completed m n) : (p + 1) * 2 ^ l ≤ m := by
  rw [mem_path] at hpath
  rw [mem_completed] at hcomp
  have hsucc : (p + 1) * 2 ^ l = p * 2 ^ l + 2 ^ l := by rw [Nat.add_mul, Nat.one_mul]
  by_contra hlt
  have hgt : k + 1 < (p + 1) * 2 ^ l := by
    by_contra hle
    exact hcomp ⟨hl, by omega, by omega⟩
  have hp : p = k / 2 ^ l := (Nat.div_eq_of_lt_le (by omega) (by omega)).symm
  have hsl : l ≤ slot k := by
    by_contra hsl
    exact hpath ⟨by omega, by omega, hp⟩
  have := div_mul_of_le_slot hsl
  rw [← hp] at this
  omega

theorem beside_lt {h l q : ℕ} (hl : l < h) (hq : q < 2 ^ (h - l)) : beside q < 2 ^ (h - l) := by
  have := two_pow_sub hl
  unfold beside
  split_ifs <;> omega

namespace Scheme

variable {S}

/-- The digest over a node and the one beside it, in the order of their positions. -/
theorem digest_beside (ls : List N) (l q : ℕ) : S.digest ls l (q / 2)
    = if q % 2 = 0 then S.hash (S.node ls l q) (S.node ls l (beside q))
      else S.hash (S.node ls l (beside q)) (S.node ls l q) := by
  unfold digest beside
  split_ifs with h <;> congr 2 <;> omega

theorem node_of_le {ls : List N} : ∀ {l p : ℕ}, ls.length ≤ p * 2 ^ l → S.node ls l p = S.zero
  | 0, p, h => by simpa [node] using List.getD_eq_default _ _ (by simpa using h)
  | l + 1, p, h => by simp [node, h]

theorem node_succ {ls : List N} {l p : ℕ} (h : p * 2 ^ (l + 1) < ls.length) :
    S.node ls (l + 1) p = S.trunc (S.digest ls l p) := by
  simp [node, digest, not_le.2 h]

theorem node_append_of_ne (ls : List N) (v : N) :
    ∀ (l p : ℕ), p ≠ ls.length / 2 ^ l → S.node (ls ++ [v]) l p = S.node ls l p
  | 0, p, hp => by
    simp only [pow_zero, Nat.div_one] at hp
    simp only [node]
    rcases Nat.lt_or_ge p ls.length with h | h
    · rw [List.getD_append _ _ _ _ h]
    · rw [List.getD_eq_default _ _ (by simp; omega), List.getD_eq_default _ _ h]
  | l + 1, p, hp => by
    have hpos : 0 < 2 ^ (l + 1) := by positivity
    have hlt : p * 2 ^ (l + 1) ≠ ls.length := by
      intro h
      exact hp (by rw [← h, Nat.mul_div_cancel _ hpos])
    rw [div_two_pow_succ] at hp
    have h0 := node_append_of_ne ls v l (2 * p) (by omega)
    have h1 := node_append_of_ne ls v l (2 * p + 1) (by omega)
    simp only [node, List.length_append, List.length_singleton, h0, h1]
    exact if_congr (by omega) rfl rfl

/-- A node whose leaves are all there stays as it is. -/
theorem node_append_of_complete {l p : ℕ} : ∀ (vs ls : List N), (p + 1) * 2 ^ l ≤ ls.length →
    S.node (ls ++ vs) l p = S.node ls l p
  | [], ls, _ => by rw [List.append_nil]
  | v :: vs, ls, h => by
    have hpos : 0 < 2 ^ l := by positivity
    have hne : p ≠ ls.length / 2 ^ l := by
      have := (Nat.le_div_iff_mul_le hpos).2 h
      omega
    have ih := node_append_of_complete vs (ls ++ [v]) (h.trans (by simp))
    rw [List.append_assoc, List.singleton_append] at ih
    rw [ih, node_append_of_ne ls v l p hne]

/-- Hashing one level up from the path's node of a new leaf gives the digest above it. -/
theorem digestUp_node {h : ℕ} {ls : List N} {f : ℕ → N} (hf : S.IsFrontier h ls f) (v : N)
    {l : ℕ} (hl : l < h) :
    S.digestUp f ls.length l (S.node (ls ++ [v]) l (ls.length / 2 ^ l))
      = S.digest (ls ++ [v]) l (ls.length / 2 ^ (l + 1)) := by
  unfold digestUp digest
  have hdiv := div_two_pow_succ ls.length l
  have hpos : 0 < 2 ^ l := by positivity
  split_ifs with hbit
  · -- the path comes up on the right, and its left sibling is complete
    rw [hf l hl (testBit_iff.2 hbit),
      ← node_append_of_ne ls v l (ls.length / 2 ^ l - 1) (by omega)]
    congr 2 <;> omega
  · have hempty : S.node (ls ++ [v]) l (2 * (ls.length / 2 ^ (l + 1)) + 1) = S.zero := by
      apply node_of_le
      have h1 : 2 * (ls.length / 2 ^ (l + 1)) = ls.length / 2 ^ l := by omega
      have h2 := Nat.lt_mul_div_succ ls.length hpos
      rw [h1, List.length_append, List.length_singleton, mul_comm]
      omega
    rw [hempty]
    congr 2
    omega

/-- The path hashed from a frontier is the tree's. -/
theorem climb_eq_node {h : ℕ} {ls : List N} {f : ℕ → N} (hf : S.IsFrontier h ls f) (v : N) :
    ∀ {l : ℕ}, l ≤ h → S.climb f ls.length v l = S.node (ls ++ [v]) l (ls.length / 2 ^ l)
  | 0, _ => by simp [climb, node]
  | l + 1, hl => by
    have hmem : ls.length / 2 ^ (l + 1) * 2 ^ (l + 1) < (ls ++ [v]).length := by
      have := Nat.div_mul_le_self ls.length (2 ^ (l + 1))
      simp only [List.length_append, List.length_singleton]
      omega
    rw [climb, climb_eq_node hf v (by omega), digestUp_node hf v (by omega), node_succ hmem]

theorem digestUp_eq_root {h : ℕ} {ls : List N} {f : ℕ → N} (hf : S.IsFrontier (h + 1) ls f)
    (v : N) (hfit : ls.length < 2 ^ (h + 1)) :
    S.digestUp f ls.length h (S.climb f ls.length v h) = S.root (ls ++ [v]) (h + 1) := by
  rw [climb_eq_node hf v (by omega), digestUp_node hf v (by omega), Nat.div_eq_of_lt hfit]
  rfl

/-! ## The frontier -/

theorem isFrontier_nil (h : ℕ) (f : ℕ → N) : S.IsFrontier h [] f := by
  intro l _ hb
  simp at hb

theorem IsFrontier.congr {h : ℕ} {ls : List N} {f g : ℕ → N} (hf : S.IsFrontier h ls f)
    (hfg : ∀ l < h, f l = g l) : S.IsFrontier h ls g :=
  fun l hl hb => (hfg l hl).symm.trans (hf l hl hb)

theorem isFrontier_push {h : ℕ} {ls : List N} {f : ℕ → N} (hf : S.IsFrontier h ls f) (v : N) :
    S.IsFrontier h (ls ++ [v]) (S.push f ls.length v) := by
  intro l hl hb
  rw [List.length_append, List.length_singleton, testBit_iff] at hb
  simp only [List.length_append, List.length_singleton, push]
  rcases lt_trichotomy l (slot ls.length) with hlt | rfl | hgt
  · have := succ_div_of_lt_slot hlt
    omega
  · obtain ⟨q, h1, h2⟩ := div_slot ls.length
    rw [Function.update_self, climb_eq_node hf v hl.le, h1, h2, Nat.add_sub_cancel]
  · have hdiv := succ_div_of_slot_lt hgt
    rw [hdiv] at hb ⊢
    rw [Function.update_of_ne hgt.ne', hf l hl (testBit_iff.2 hb),
      node_append_of_ne ls v _ _ (by omega)]

theorem isFrontier_pushAll {h : ℕ} : ∀ (vs : List N) {ls : List N} {f : ℕ → N},
    S.IsFrontier h ls f → S.IsFrontier h (ls ++ vs) (S.pushAll f ls.length vs)
  | [], ls, f, hf => by simpa [pushAll] using hf
  | v :: vs, ls, f, hf => by
    have := isFrontier_pushAll vs (isFrontier_push hf v)
    simpa [pushAll] using this

/-- From its slot up, a leaf's path does not meet the value it leaves there. -/
theorem digestUp_push {f : ℕ → N} {k l : ℕ} (u v : N) (hl : slot k ≤ l) :
    S.digestUp (S.push f k u) k l v = S.digestUp f k l v := by
  unfold digestUp
  split_ifs with hbit
  · have hne : l ≠ slot k := by
      rintro rfl
      obtain ⟨q, h1, -⟩ := div_slot k
      omega
    rw [push, Function.update_of_ne hne]
  · rfl

theorem digestUp_congr {f g : ℕ → N} {k l : ℕ} (v : N) (h : f l = g l) :
    S.digestUp f k l v = S.digestUp g k l v := by
  unfold digestUp
  rw [h]

theorem climb_congr {f g : ℕ → N} (k : ℕ) (v : N) :
    ∀ {l : ℕ}, (∀ i < l, f i = g i) → S.climb f k v l = S.climb g k v l
  | 0, _ => rfl
  | l + 1, h => by
    rw [climb, climb, climb_congr k v fun i hi => h i (by omega),
      digestUp_congr _ (h l (by omega))]

theorem push_congr {f g : ℕ → N} {h k : ℕ} (v : N) (hk : k < 2 ^ h) (hfg : ∀ i < h, f i = g i) :
    ∀ i < h, S.push f k v i = S.push g k v i := by
  intro i hi
  have hle := slot_le hk
  have hc : S.climb f k v (slot k) = S.climb g k v (slot k) :=
    climb_congr k v fun j hj => hfg j (by omega)
  simp only [push, Function.update_apply, hfg i hi, hc]

theorem pushAll_congr {h : ℕ} : ∀ (vs : List N) {f g : ℕ → N} {k : ℕ}, k + vs.length ≤ 2 ^ h →
    (∀ i < h, f i = g i) → ∀ i < h, S.pushAll f k vs i = S.pushAll g k vs i
  | [], _, _, _, _, hfg => hfg
  | v :: vs, f, g, k, hk, hfg => by
    simp only [List.length_cons] at hk
    exact pushAll_congr vs (by omega) (push_congr v (by omega) hfg)

theorem pushAll_append (vs : List N) : ∀ (us : List N) (f : ℕ → N) (k : ℕ),
    S.pushAll f k (us ++ vs) = S.pushAll (S.pushAll f k us) (k + us.length) vs
  | [], f, k => rfl
  | u :: us, f, k => by
    rw [List.cons_append, pushAll, pushAll_append vs us, pushAll, List.length_cons,
      show k + 1 + us.length = k + (us.length + 1) by omega]

/-! ## Paths that lead to the root -/

/-- Of two pairs in a table without collisions that go up alike, both values are the same. -/
theorem eq_of_not_collision {table : N × N → Prop} (hno : ¬ S.Collision table) {e e' : N × N}
    (he : table e) (he' : table e')
    (heq : S.trunc (S.hash e.1 e.2) = S.trunc (S.hash e'.1 e'.2)) : e = e' := by
  by_contra hne
  exact hno ⟨e, e', hne, he, he', heq⟩

section Binding

variable {h : ℕ} {ls ls' : List N} {table : N × N → Prop}

/-- The nodes below two nodes of one level that go up alike are alike. -/
theorem node_eq_of_pair_eq {l q : ℕ} (h : (S.node ls l (2 * (q / 2)), S.node ls l (2 * (q / 2) + 1))
    = (S.node ls' l (2 * (q / 2)), S.node ls' l (2 * (q / 2) + 1))) :
    S.node ls l q = S.node ls' l q := by
  rcases Nat.mod_two_eq_zero_or_one q with heven | hodd
  · have hq : 2 * (q / 2) = q := by omega
    rw [hq] at h
    exact congrArg Prod.fst h
  · have hq : 2 * (q / 2) + 1 = q := by omega
    rw [hq] at h
    exact congrArg Prod.snd h

theorem node_eq_of_root_eq (hno : ¬ S.Collision table) (htree : ∀ e, S.PairOf h ls e → table e)
    (htree' : ∀ e, S.PairOf h ls' e → table e) (hlen : ls.length = ls'.length)
    (hsize : ls.length ≤ 2 ^ h) (hroot : S.root ls h = S.root ls' h) :
    ∀ (d l q : ℕ), l + d + 1 = h → q * 2 ^ l < ls.length → S.node ls l q = S.node ls' l q
  | 0, l, q, hd, hq => by
    obtain rfl : h = l + 1 := by omega
    have hq0 : q / 2 = 0 := by
      have hlt : q * 2 ^ l < 2 * 2 ^ l := by
        rw [pow_succ] at hsize
        omega
      have := Nat.lt_of_mul_lt_mul_right hlt
      omega
    have hpair : ∀ {us : List N}, q * 2 ^ l < us.length → S.PairOf (l + 1) us
        (S.node us l (2 * (q / 2)), S.node us l (2 * (q / 2) + 1)) :=
      fun hlt => ⟨l, q / 2, Nat.lt_succ_self l, by rw [hq0, Nat.zero_mul]; omega, rfl⟩
    refine node_eq_of_pair_eq (eq_of_not_collision hno (htree _ (hpair hq))
      (htree' _ (hpair (hlen ▸ hq))) ?_)
    rw [hq0]
    exact congrArg S.trunc hroot
  | d + 1, l, q, hd, hq => by
    have hparent : q / 2 * 2 ^ (l + 1) < ls.length := by
      refine lt_of_le_of_lt ?_ hq
      rw [pow_succ, Nat.mul_comm (2 ^ l), ← Nat.mul_assoc]
      exact Nat.mul_le_mul_right _ (Nat.div_mul_le_self q 2)
    have hup := node_eq_of_root_eq hno htree htree' hlen hsize hroot d (l + 1) (q / 2) (by omega)
      hparent
    rw [node_succ hparent, node_succ (hlen ▸ hparent)] at hup
    exact node_eq_of_pair_eq (eq_of_not_collision hno
      (htree _ ⟨l, q / 2, by omega, hparent, rfl⟩)
      (htree' _ ⟨l, q / 2, by omega, hlen ▸ hparent, rfl⟩) hup)

theorem eq_of_root_eq (hh : 1 ≤ h) (hno : ¬ S.Collision table)
    (htree : ∀ e, S.PairOf h ls e → table e) (htree' : ∀ e, S.PairOf h ls' e → table e)
    (hlen : ls.length = ls'.length) (hsize : ls.length ≤ 2 ^ h)
    (hroot : S.root ls h = S.root ls' h) : ls = ls' := by
  refine List.ext_getElem hlen fun q hq hq' => ?_
  have hleaf := node_eq_of_root_eq hno htree htree' hlen hsize hroot (h - 1) 0 q (by omega)
    (by simpa using hq)
  simpa [node, List.getD_eq_getElem?_getD, hq, hq'] using hleaf

end Binding

end Scheme

end HashTree
