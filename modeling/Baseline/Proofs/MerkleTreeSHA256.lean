import Baseline.MerkleTreeSHA256
import Baseline.Proofs.Bytes
import Baseline.Proofs.HashTree
import Baseline.Sha256

/-!
# The contract keeps a frontier

`insertLeaf` is one step of the abstract frontier (`insertLeaf_eq`), so whatever it is called on,
the state represents the leaves inserted so far (`insertEach_represents`): its root is the tree's,
and at every bit of `leafCount` the frontier holds the left sibling the next leaf will need.
-/

namespace Baseline

open HashTree

theorem wrap_of_lt {n : ℕ} (h : n < 2 ^ 256) : wrap n = n := Nat.mod_eq_of_lt h

theorem uadd_of_lt {a b : ℕ} (h : a + b < 2 ^ 256) : uadd a b = a + b := wrap_of_lt h

theorem usub_of_le {a b : ℕ} (hb : b ≤ a) (ha : a < 2 ^ 256) : usub a b = a - b := by
  have h : a + 2 ^ 256 - b = a - b + 2 ^ 256 := by omega
  rw [usub, wrap, h, Nat.add_mod_right, Nat.mod_eq_of_lt (by omega)]

namespace Frontier

/-- The frontier as the abstract tree reads it. -/
def get (f : Frontier) (i : ℕ) : Bytes 27 := if h : i < 33 then f ⟨i, h⟩ else Bytes.zeros 27

theorem read_eq (f : Frontier) {i : ℕ} (h : i < 33) : f.read i = some (f.get i) := by
  simp [read, get, h]

theorem write_eq (f : Frontier) {i : ℕ} (h : i < 33) (v : Bytes 27) :
    ∃ g : Frontier, f.write i v = some g ∧ g.get = Function.update f.get i v := by
  refine ⟨_, by rw [write, dif_pos h], ?_⟩
  funext j
  by_cases hj : j < 33
  · rcases eq_or_ne j i with rfl | hne
    · simp [get, hj]
    · have hfin : (⟨j, hj⟩ : Fin 33) ≠ ⟨i, h⟩ := by simpa using hne
      simp [get, hj, Function.update_of_ne hne, Function.update_of_ne hfin]
  · have hne : j ≠ i := by omega
    simp [get, hj, Function.update_of_ne hne]

end Frontier

namespace MerkleTreeSHA256

/-! ## `getFrontierSlot` -/

theorem slot_lt {k : ℕ} (hk : k + 1 < 2 ^ 255) : slot k < 255 := by
  obtain ⟨q, hq⟩ := succ_eq_slot k
  have h1 : 2 ^ slot k ≤ 2 ^ slot k * (2 * q + 1) := Nat.le_mul_of_pos_right _ (by omega)
  exact (Nat.pow_lt_pow_iff_right (by norm_num : 1 < 2)).1 (by omega)

theorem frontierSlotLoop_eq {k : ℕ} (hk : k + 1 < 2 ^ 255) :
    ∀ (fuel e : ℕ), e ≤ slot k → slot k < e + fuel →
      frontierSlotLoop k fuel e (2 ^ e) (2 ^ (e + 1)) = some (slot k)
  | 0, e, he, hf => by omega
  | fuel + 1, e, he, hf => by
    have hs := slot_lt hk
    have hpos : 0 < 2 ^ e := by positivity
    rw [frontierSlotLoop, if_neg (by positivity), uadd_of_lt (by omega)]
    rcases he.eq_or_lt with heq | hlt
    · obtain ⟨q, hq⟩ := succ_eq_slot k
      rw [← heq] at hq
      have hsub : k + 1 - 2 ^ e = 2 ^ (e + 1) * q := by
        rw [hq, pow_succ, mul_add, mul_one, Nat.add_sub_cancel]
        ring
      rw [usub_of_le (by rw [hq]; exact Nat.le_mul_of_pos_right _ (by omega)) (by omega), hsub,
        Nat.mul_mod_right, if_pos rfl, heq]
    · obtain ⟨m, hm⟩ := succ_eq_of_lt_slot hlt
      have hsub : k + 1 - 2 ^ e = 2 ^ (e + 1) * m + 2 ^ e := by
        have : k + 1 = 2 ^ (e + 1) * m + 2 ^ e + 2 ^ e := by rw [hm, pow_succ]; ring
        omega
      have hmod : (2 ^ (e + 1) * m + 2 ^ e) % 2 ^ (e + 1) = 2 ^ e := by
        rw [Nat.mul_add_mod, Nat.mod_eq_of_lt (Nat.pow_lt_pow_right (by norm_num) (by omega))]
      have hnext : wrap (2 ^ (e + 1) <<< 1) = 2 ^ (e + 1 + 1) := by
        rw [Nat.shiftLeft_eq, pow_one, ← pow_succ]
        exact wrap_of_lt (Nat.pow_lt_pow_right (by norm_num) (by omega))
      rw [usub_of_le (by rw [hm]; exact Nat.le_mul_of_pos_right _ (by omega)) (by omega), hsub,
        hmod, if_neg hpos.ne', uadd_of_lt (by omega), hnext]
      exact frontierSlotLoop_eq hk fuel (e + 1) hlt (by omega)

theorem getFrontierSlot_eq {k : ℕ} (hk : k + 1 < 2 ^ 255) : getFrontierSlot k = some (slot k) := by
  unfold getFrontierSlot
  split_ifs with hodd
  · have h1 : slot k ≠ 0 := by
      intro h0
      obtain ⟨q, hq⟩ := succ_eq_slot k
      rw [h0] at hq
      omega
    have hs := slot_lt hk
    exact frontierSlotLoop_eq hk 256 1 (by omega) (by omega)
  · have h0 : slot k = 0 := slot_eq_of (q := k / 2) (by omega)
    rw [h0]

/-! ## Hashing upwards -/

section Path

variable {H : Bytes 54 → Bytes 32} {h : ℕ} {f : ℕ → Bytes 27} {k : ℕ} {v : Bytes 27}

theorem index_lt_uint (hk : k < 2 ^ h) (h33 : h ≤ 33) (l : ℕ) :
    index h l (k / 2 ^ l) < 2 ^ 256 := by
  have h1 : 2 ^ h ≤ 2 ^ 33 := Nat.pow_le_pow_right (by norm_num) h33
  have h2 : 2 ^ (h - l) ≤ 2 ^ 33 := Nat.pow_le_pow_right (by norm_num) (by omega)
  have h3 : k / 2 ^ l ≤ k := Nat.div_le_self _ _
  rw [index]
  omega

theorem leaf_index (hk : k < 2 ^ h) (h33 : h ≤ 33) : usub (uadd k (2 ^ h)) 1 = index h 0 k := by
  have h1 : 2 ^ h ≤ 2 ^ 33 := Nat.pow_le_pow_right (by norm_num) h33
  have hpos : 0 < 2 ^ h := by positivity
  rw [uadd_of_lt (by omega), usub_of_le (by omega) (by omega)]
  simp [index]

/-- `p` is where leaf `k`'s path is at level `l` of a tree of height `h`, hashed from `f`. -/
structure OnPath (H : Bytes 54 → Bytes 32) (h : ℕ) (f : ℕ → Bytes 27) (k : ℕ) (v : Bytes 27)
    (l : ℕ) (p : Path) : Prop where
  nodeIndex : p.nodeIndex = index h l (k / 2 ^ l)
  nodeValue : p.nodeValue = (shaScheme H).climb f k v l
  output : ∀ i, l = i + 1 →
    p.output = (shaScheme H).digestUp f k i ((shaScheme H).climb f k v i)

theorem hashUp_eq {l : ℕ} {p : Path} {g : Frontier} (hk : k < 2 ^ h) (h33 : h ≤ 33) (hl : l < h)
    (hp : OnPath H h f k v l p)
    (hg : ∀ u, (shaScheme H).digestUp g.get k l u = (shaScheme H).digestUp f k l u) :
    ∃ p', hashUp H g l p = some p' ∧ OnPath H h f k v (l + 1) p' := by
  have hnext : index h (l + 1) (k / 2 ^ (l + 1)) = _ :=
    div_two_pow_succ k l ▸ index_parent hl (k / 2 ^ l)
  have hbig : p.nodeIndex < 2 ^ 256 := hp.nodeIndex ▸ index_lt_uint hk h33 l
  have hpos : 1 ≤ p.nodeIndex := hp.nodeIndex ▸ index_pos hl _
  have hparity : p.nodeIndex % 2 = 0 ↔ k / 2 ^ l % 2 = 1 := hp.nodeIndex ▸ index_even_iff hl _
  have hout : ∀ D, D = (shaScheme H).digestUp f k l ((shaScheme H).climb f k v l) →
      ∀ i, l + 1 = i + 1 → D = (shaScheme H).digestUp f k i ((shaScheme H).climb f k v i) := by
    rintro D rfl i hi
    rw [Nat.add_right_cancel hi]
  have hval : ∀ D, D = (shaScheme H).digestUp f k l ((shaScheme H).climb f k v l) →
      D.shl40.toBytes27 = (shaScheme H).climb f k v (l + 1) := by
    rintro D rfl
    exact Bytes.toBytes27_shl40 _
  unfold hashUp
  split_ifs with hev
  · have hbit := hparity.1 hev
    have hd : H ((g.get l).append p.nodeValue)
        = (shaScheme H).digestUp f k l ((shaScheme H).climb f k v l) := by
      rw [← hg, Scheme.digestUp, if_pos hbit, ← hp.nodeValue]
      rfl
    refine ⟨_, by rw [g.read_eq (by omega)]; rfl, ?_, hval _ hd, hout _ hd⟩
    rw [usub_of_le hpos hbig, hnext, ← hp.nodeIndex, if_pos hev]
  · have hbit : ¬ k / 2 ^ l % 2 = 1 := fun hb => hev (hparity.2 hb)
    have hd : H (p.nodeValue.append zero)
        = (shaScheme H).digestUp f k l ((shaScheme H).climb f k v l) := by
      rw [Scheme.digestUp, if_neg hbit, ← hp.nodeValue]
      rfl
    refine ⟨_, rfl, ?_, hval _ hd, hout _ hd⟩
    rw [hnext, ← hp.nodeIndex, if_neg hev]

theorem onPath_zero (H : Bytes 54 → Bytes 32) (f : ℕ → Bytes 27) (hk : k < 2 ^ h) (h33 : h ≤ 33)
    (leafValue o : Bytes 32) :
    OnPath H h f k leafValue.low27 0 ⟨usub (uadd k (2 ^ h)) 1, leafValue.shl40.toBytes27, o⟩ := by
  refine ⟨?_, Bytes.toBytes27_shl40 _, fun i hi => by omega⟩
  rw [leaf_index hk h33, pow_zero, Nat.div_one]

theorem hashLevels_eq {g : Frontier} (hk : k < 2 ^ h) (h33 : h ≤ 33) :
    ∀ (n l : ℕ) {p : Path}, l + n ≤ h → OnPath H h f k v l p →
      (∀ i, l ≤ i → i < l + n → ∀ u,
        (shaScheme H).digestUp g.get k i u = (shaScheme H).digestUp f k i u) →
      ∃ p', hashLevels H g n (l + 1) p = some p' ∧ OnPath H h f k v (l + n) p'
  | 0, l, p, _, hp, _ => ⟨p, rfl, hp⟩
  | n + 1, l, p, hn, hp, hg => by
    obtain ⟨p₁, h1, hp₁⟩ := hashUp_eq hk h33 (by omega) hp (hg l le_rfl (by omega))
    obtain ⟨p₂, h2, hp₂⟩ := hashLevels_eq hk h33 n (l + 1) (by omega) hp₁
      fun i hi hin => hg i (by omega) (by omega)
    refine ⟨p₂, ?_, by rwa [show l + (n + 1) = l + 1 + n by omega]⟩
    rw [hashLevels, Nat.add_sub_cancel, h1]
    exact h2

/-- From a level above the slot on, `insertLeaf`'s loop reads a frontier already pushed. -/
theorem insertLeafLoop_above {g : Frontier} (hk : k < 2 ^ h) (h33 : h ≤ 33)
    (hg : ∀ i, slot k ≤ i → ∀ u,
      (shaScheme H).digestUp g.get k i u = (shaScheme H).digestUp f k i u) :
    ∀ (n l : ℕ) {p : Path}, l + n = h → slot k < l → OnPath H h f k v l p →
      ∃ p', insertLeafLoop H (slot k) n l g p = some (g, p') ∧ OnPath H h f k v h p'
  | 0, l, p, hn, _, hp => by
    obtain rfl : l = h := by omega
    exact ⟨p, rfl, hp⟩
  | n + 1, l, p, hn, hl, hp => by
    obtain ⟨p₁, h1, hp₁⟩ := hashUp_eq hk h33 (by omega) hp (hg l hl.le)
    obtain ⟨p₂, h2, hp₂⟩ := insertLeafLoop_above hk h33 hg n (l + 1) (by omega) (by omega) hp₁
    refine ⟨p₂, ?_, hp₂⟩
    rw [insertLeafLoop, if_neg (by omega)]
    simp only [Option.bind_eq_bind, Option.bind_some, h1]
    exact h2

theorem insertLeafLoop_eq {g : Frontier} (hk : k < 2 ^ h) (h33 : h ≤ 33) :
    ∀ (n l : ℕ) {p : Path}, l + n = h → l ≤ slot k → OnPath H h g.get k v l p →
      ∃ g' p', insertLeafLoop H (slot k) n l g p = some (g', p') ∧ OnPath H h g.get k v h p' ∧
        ∀ i < h, g'.get i = (shaScheme H).push g.get k v i
  | 0, l, p, hn, hl, hp => by
    -- the last leaf of a full tree: its slot is the root's level, which is never reached
    have hs := slot_le hk
    obtain rfl : l = h := by omega
    refine ⟨g, p, rfl, hp, fun i hi => ?_⟩
    rw [Scheme.push, Function.update_of_ne (by omega)]
  | n + 1, l, p, hn, hl, hp => by
    rcases hl.eq_or_lt with heq | hlt
    · obtain ⟨g₁, hw, hg₁⟩ := g.write_eq (i := slot k) (by omega) p.nodeValue
      have hpush : g₁.get = (shaScheme H).push g.get k v := by
        rw [hg₁, hp.nodeValue, heq]
        rfl
      have hread : ∀ i, slot k ≤ i → ∀ u,
          (shaScheme H).digestUp g₁.get k i u = (shaScheme H).digestUp g.get k i u := by
        intro i hi u
        rw [hpush, Scheme.digestUp_push _ _ hi]
      obtain ⟨p₁, h1, hp₁⟩ := hashUp_eq hk h33 (by omega) hp (hread l heq.ge)
      obtain ⟨p₂, h2, hp₂⟩ :=
        insertLeafLoop_above hk h33 hread n (l + 1) (by omega) (by omega) hp₁
      refine ⟨g₁, p₂, ?_, hp₂, fun i _ => by rw [hpush]⟩
      rw [insertLeafLoop, if_pos heq]
      simp only [Option.bind_eq_bind, hw, Option.bind_some, h1]
      exact h2
    · obtain ⟨p₁, h1, hp₁⟩ := hashUp_eq hk h33 (by omega) hp fun _ => rfl
      obtain ⟨g', p', h2, hp', hg'⟩ := insertLeafLoop_eq hk h33 n (l + 1) (by omega) hlt hp₁
      refine ⟨g', p', ?_, hp', hg'⟩
      rw [insertLeafLoop, if_neg (by omega)]
      simp only [Option.bind_eq_bind, Option.bind_some, h1]
      exact h2

end Path

/-! ## `insertLeaf` -/

variable {H : Bytes 54 → Bytes 32} {h : ℕ}

/-- The sizes a tree of height `h` was made with, and room for what was counted. -/
structure Sized (h : ℕ) (t : MerkleTreeSHA256) : Prop where
  treeHeight : t.treeHeight = h
  treeWidth : t.treeWidth = 2 ^ h
  leafCount : t.leafCount ≤ 2 ^ h

theorem new_sized (h33 : h ≤ 33) : Sized h (new h) := by
  refine ⟨rfl, ?_, Nat.zero_le _⟩
  exact wrap_of_lt (Nat.pow_lt_pow_right (by norm_num) (by omega))

/-- What `insertLeaf` does to a tree with space left: one step of the abstract frontier. -/
theorem insertLeaf_eq {t : MerkleTreeSHA256} (hh : 1 ≤ h) (h33 : h ≤ 33) (ht : Sized h t)
    (hk : t.leafCount < 2 ^ h) (leafValue : Bytes 32) :
    ∃ t', t.insertLeaf H leafValue = some (t', ⟨t.leafCount, leafValue, t'.latestRoot⟩) ∧
      Sized h t' ∧ t'.leafCount = t.leafCount + 1 ∧
      t'.latestRoot = (shaScheme H).digestUp t.frontier.get t.leafCount (h - 1)
        ((shaScheme H).climb t.frontier.get t.leafCount leafValue.low27 (h - 1)) ∧
      ∀ i < h, t'.frontier.get i
        = (shaScheme H).push t.frontier.get t.leafCount leafValue.low27 i := by
  have h1 : 2 ^ h ≤ 2 ^ 33 := Nat.pow_le_pow_right (by norm_num) h33
  have hp := onPath_zero H t.frontier.get hk h33 leafValue (Bytes.zeros 32)
  obtain ⟨g, p, hloop, hpath, hpush⟩ :=
    insertLeafLoop_eq hk h33 h 0 (Nat.zero_add h) (Nat.zero_le _) hp
  have hcount : uadd t.leafCount 1 = t.leafCount + 1 := uadd_of_lt (by omega)
  refine ⟨{ t with latestRoot := p.output, leafCount := uadd t.leafCount 1, frontier := g },
    ?_, ⟨ht.treeHeight, ht.treeWidth, ?_⟩, hcount, hpath.output (h - 1) (by omega), hpush⟩
  · simp only [insertLeaf, ht.treeWidth, ht.treeHeight, guard, gt_iff_lt, hk, if_true,
      getFrontierSlot_eq (show t.leafCount + 1 < 2 ^ 255 by omega), hloop, Option.bind_eq_bind,
      Option.bind_some, Option.pure_def]
  · simp only [hcount]
    omega

theorem insertLeaf_full {t : MerkleTreeSHA256} (hk : t.treeWidth ≤ t.leafCount)
    (leafValue : Bytes 32) : t.insertLeaf H leafValue = none := by
  simp [insertLeaf, guard, not_lt.2 hk]

/-- The contract's state after the leaves `ls`, each cut to 27 bytes. -/
structure Represents (H : Bytes 54 → Bytes 32) (h : ℕ) (ls : List (Bytes 27))
    (t : MerkleTreeSHA256) : Prop extends Sized h t where
  count : t.leafCount = ls.length
  frontier : (shaScheme H).IsFrontier h ls t.frontier.get
  root : t.latestRoot = if ls = [] then Bytes.zeros 32 else (shaScheme H).root ls h

theorem new_represents (h33 : h ≤ 33) : Represents H h [] (new h) where
  toSized := new_sized h33
  count := rfl
  frontier := Scheme.isFrontier_nil _ _
  root := rfl

theorem insertLeaf_represents {t : MerkleTreeSHA256} {ls : List (Bytes 27)} (hh : 1 ≤ h)
    (h33 : h ≤ 33) (ht : Represents H h ls t) (hk : ls.length < 2 ^ h) (leafValue : Bytes 32) :
    ∃ t', t.insertLeaf H leafValue = some (t', ⟨ls.length, leafValue, t'.latestRoot⟩) ∧
      Represents H h (ls ++ [leafValue.low27]) t' := by
  obtain ⟨t', h1, hs, hc, hr, hf⟩ :=
    insertLeaf_eq (H := H) hh h33 ht.toSized (by rw [ht.count]; exact hk) leafValue
  rw [ht.count] at h1 hc hr hf
  refine ⟨t', h1, hs, by simp [hc], ?_, ?_⟩
  · exact (Scheme.isFrontier_push ht.frontier _).congr fun i hi => (hf i hi).symm
  · obtain ⟨h, rfl⟩ : ∃ m, h = m + 1 := ⟨h - 1, by omega⟩
    rw [if_neg (by simp), hr]
    exact Scheme.digestUp_eq_root ht.frontier _ hk

theorem insertEach_represents (hh : 1 ≤ h) (h33 : h ≤ 33) :
    ∀ (vs : List (Bytes 32)) {t : MerkleTreeSHA256} {ls : List (Bytes 27)},
      Represents H h ls t → ls.length + vs.length ≤ 2 ^ h →
      ∃ t', insertEach H t vs = some t' ∧ Represents H h (ls ++ vs.map Bytes.low27) t'
  | [], t, ls, ht, _ => ⟨t, rfl, by simpa using ht⟩
  | v :: vs, t, ls, ht, hn => by
    simp only [List.length_cons] at hn
    obtain ⟨t₁, h1, ht₁⟩ := insertLeaf_represents hh h33 ht (by omega) v
    obtain ⟨t₂, h2, ht₂⟩ := insertEach_represents hh h33 vs ht₁ (by simp; omega)
    refine ⟨t₂, ?_, by simpa using ht₂⟩
    rw [insertEach, h1]
    exact h2

/-- Up to `2 ^ h` calls of `insertLeaf` on a fresh tree of height `h` succeed, and after them the
root, the count and the frontier are those of the tree over the leaves inserted. -/
theorem insertLeaf_calls (H : Bytes 54 → Bytes 32) {h : ℕ} (hh : 1 ≤ h) (h32 : h ≤ 32)
    (vs : List (Bytes 32)) (hn : vs.length ≤ 2 ^ h) :
    ∃ t, insertEach H (new h) vs = some t ∧ t.leafCount = vs.length ∧
      (vs ≠ [] → t.latestRoot = (shaScheme H).root (vs.map Bytes.low27) h) ∧
      ∀ L < h, t.leafCount.testBit L → t.frontier.read L
        = some ((shaScheme H).node (vs.map Bytes.low27) L (t.leafCount / 2 ^ L - 1)) := by
  have h33 : h ≤ 33 := by omega
  obtain ⟨t, h1, ht⟩ := insertEach_represents (H := H) hh h33 vs (new_represents h33) (by simpa)
  simp only [List.nil_append] at ht
  have hc : t.leafCount = vs.length := by rw [ht.count, List.length_map]
  refine ⟨t, h1, hc, fun hne => ?_, fun L hL hb => ?_⟩
  · rw [ht.root, if_neg (by simpa using hne)]
  · rw [t.frontier.read_eq (by omega), ht.frontier L hL (by rw [← ht.count]; exact hb), ht.count]

theorem insertLeaf_calls_two : ∃ t, insertEach (precompile Sha256.digest) (new 1)
      [Bytes.fill 32 1, Bytes.fill 32 2] = some t ∧ t.leafCount = 2 ∧
    t.latestRoot
      = (shaScheme (precompile Sha256.digest)).root [Bytes.fill 27 1, Bytes.fill 27 2] 1 := by
  obtain ⟨t, h1, h2, h3, -⟩ := insertLeaf_calls (precompile Sha256.digest) (h := 1) le_rfl
    (by norm_num) [Bytes.fill 32 1, Bytes.fill 32 2] (by decide)
  exact ⟨t, h1, h2, h3 (by simp)⟩

end MerkleTreeSHA256

end Baseline
