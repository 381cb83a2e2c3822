import Baseline.Proofs.MerkleTreeSHA256

/-!
# The heights the contract can have

The constructor takes any height. At height zero nothing is hashed and the root stays what it was;
from 34 on the leaf that completes a subtree of height 33 needs a frontier slot that is not there
(`insertLeaf_reverts`), and from 256 on the width wraps to zero. From 1 to 33 all is as it should
be (`works_iff`).
-/

namespace Baseline

open HashTree

namespace MerkleTreeSHA256

variable {H : Bytes 54 → Bytes 32} {h : ℕ}

/-! ## Node indices -/

/-- `nodeIndex` at a level of `insertLeaf`'s loop, for leaf `leafCount`. -/
def nodeIndexAt (treeWidth leafCount : ℕ) : ℕ → ℕ
  | 0 => usub (uadd leafCount treeWidth) 1
  | level + 1 =>
    let nodeIndex := nodeIndexAt treeWidth leafCount level
    if nodeIndex % 2 = 0 then usub nodeIndex 1 / 2 else nodeIndex / 2

theorem hashUp_nodeIndex {f : Frontier} {i : ℕ} {p p' : Path} (h : hashUp H f i p = some p') :
    p'.nodeIndex = if p.nodeIndex % 2 = 0 then usub p.nodeIndex 1 / 2 else p.nodeIndex / 2 := by
  unfold hashUp at h
  split_ifs at h ⊢ with heven
  · obtain ⟨leftInput, -, h⟩ := Option.bind_eq_some_iff.1 h
    obtain rfl := Option.some.inj h
    rfl
  · obtain rfl := Option.some.inj h
    rfl

/-- The loop is at these indices. -/
theorem insertLeafLoop_nodeIndex {slot treeWidth leafCount : ℕ} :
    ∀ (n level : ℕ) {f f' : Frontier} {p p' : Path},
      p.nodeIndex = nodeIndexAt treeWidth leafCount level →
      insertLeafLoop H slot n level f p = some (f', p') →
      p'.nodeIndex = nodeIndexAt treeWidth leafCount (level + n)
  | 0, level, f, f', p, p', hp, hrun => by
    obtain ⟨rfl, rfl⟩ := Prod.mk.inj (Option.some.inj hrun)
    exact hp
  | n + 1, level, f, f', p, p', hp, hrun => by
    rw [insertLeafLoop] at hrun
    obtain ⟨g, p₁, hup, hrun⟩ : ∃ g p₁, hashUp H g level p = some p₁ ∧
        insertLeafLoop H slot n (level + 1) g p₁ = some (f', p') := by
      split_ifs at hrun <;>
        (obtain ⟨g, -, hrun⟩ := Option.bind_eq_some_iff.1 hrun
         obtain ⟨p₁, hup, hrun⟩ := Option.bind_eq_some_iff.1 hrun
         exact ⟨g, p₁, hup, hrun⟩)
    have hnext : p₁.nodeIndex = nodeIndexAt treeWidth leafCount (level + 1) := by
      rw [hashUp_nodeIndex hup, hp]
      rfl
    rw [show level + (n + 1) = level + 1 + n by omega]
    exact insertLeafLoop_nodeIndex n (level + 1) hnext hrun

theorem nodeIndexAt_eq (h33 : h ≤ 33) {k : ℕ} (hk : k < 2 ^ h) :
    ∀ l, l ≤ h → nodeIndexAt (2 ^ h) k l = index h l (k / 2 ^ l)
  | 0, _ => by rw [nodeIndexAt, leaf_index hk h33, pow_zero, Nat.div_one]
  | l + 1, hl => by
    have hpos := index_pos (Nat.lt_of_succ_le hl) (k / 2 ^ l)
    rw [nodeIndexAt, nodeIndexAt_eq h33 hk l (by omega), div_two_pow_succ,
      index_parent (Nat.lt_of_succ_le hl), usub_of_le hpos (index_lt_uint hk h33 l)]

/-! ## Runs that succeed -/

theorem insertLeaf_counts {t t' : MerkleTreeSHA256} {v : Bytes 32} {e : NewLeaf}
    (hrun : t.insertLeaf H v = some (t', e)) :
    t'.treeHeight = t.treeHeight ∧ t'.leafCount = uadd t.leafCount 1 := by
  simp only [insertLeaf, Option.bind_eq_bind, Option.bind_eq_some_iff, Option.pure_def,
    Option.some.injEq, Prod.mk.injEq] at hrun
  obtain ⟨-, -, slot, -, ⟨f, p⟩, -, rfl, -⟩ := hrun
  exact ⟨rfl, rfl⟩

theorem insertEach_counts : ∀ (vs : List (Bytes 32)) {t t' : MerkleTreeSHA256},
    insertEach H t vs = some t' → t.leafCount + vs.length < 2 ^ 256 →
      t'.treeHeight = t.treeHeight ∧ t'.leafCount = t.leafCount + vs.length
  | [], t, t', hrun, _ => by
    obtain rfl := Option.some.inj hrun
    exact ⟨rfl, rfl⟩
  | v :: vs, t, t', hrun, hlt => by
    simp only [insertEach, Option.bind_eq_bind, Option.bind_eq_some_iff] at hrun
    obtain ⟨⟨t₁, e⟩, h1, hrun⟩ := hrun
    rw [List.length_cons] at hlt
    obtain ⟨hheight, hcount⟩ := insertLeaf_counts h1
    rw [uadd_of_lt (by omega)] at hcount
    obtain ⟨hheight', hcount'⟩ := insertEach_counts vs hrun (by
      change t₁.leafCount + vs.length < 2 ^ 256
      omega)
    refine ⟨hheight'.trans hheight, ?_⟩
    rw [hcount', hcount, List.length_cons]
    omega

theorem insertEach_concat (v : Bytes 32) : ∀ (vs : List (Bytes 32)) (t : MerkleTreeSHA256),
    insertEach H t (vs ++ [v]) = do
      let t' ← insertEach H t vs
      let (t', _) ← t'.insertLeaf H v
      return t'
  | [], t => rfl
  | u :: vs, t => by
    rw [List.cons_append, insertEach, insertEach]
    simp only [Option.bind_eq_bind, Option.bind_assoc]
    congr 1
    funext x
    exact insertEach_concat v vs x.1

/-! ## A slot that is not there -/

theorem insertLeafLoop_reverts {slot : ℕ} (hslot : 33 ≤ slot) :
    ∀ (n level : ℕ) (f : Frontier) (p : Path), level ≤ slot → slot < level + n →
      insertLeafLoop H slot n level f p = none
  | 0, level, f, p, hle, hlt => by omega
  | n + 1, level, f, p, hle, hlt => by
    rw [insertLeafLoop]
    rcases hle.eq_or_lt with rfl | hbelow
    · have hwrite : f.write level p.nodeValue = none := by
        rw [Frontier.write, dif_neg (by omega)]
      rw [if_pos rfl, hwrite]
      rfl
    · rw [if_neg hbelow.ne]
      simp only [Option.bind_eq_bind, Option.bind_some]
      cases hashUp H f level p with
      | none => rfl
      | some p₁ => exact insertLeafLoop_reverts hslot n (level + 1) f p₁ hbelow (by omega)

/-- A leaf whose slot is below the root, but past the frontier. -/
theorem insertLeaf_reverts {t : MerkleTreeSHA256} (hcount : t.leafCount + 1 < 2 ^ 255)
    (hslot : 33 ≤ slot t.leafCount) (hheight : slot t.leafCount < t.treeHeight)
    (v : Bytes 32) : t.insertLeaf H v = none := by
  unfold insertLeaf
  rw [getFrontierSlot_eq hcount]
  simp only [Option.bind_eq_bind, Option.bind_some,
    insertLeafLoop_reverts hslot t.treeHeight 0 _ _ (Nat.zero_le _) (by omega)]
  by_cases hspace : t.treeWidth > t.leafCount <;> simp [guard, hspace]

/-! ## The heights -/

/-- What the contract is made for: a width that is the power of two, room for every leaf, node
indices above zero all the way up, and a root that the last leaf goes into. -/
structure Works (H : Bytes 54 → Bytes 32) (h : ℕ) : Prop where
  treeWidth : (new h).treeWidth = 2 ^ h
  succeeds : ∀ vs : List (Bytes 32), vs.length ≤ 2 ^ h → (insertEach H (new h) vs).isSome
  nodeIndex : ∀ k < 2 ^ h, 0 < k + (new h).treeWidth ∧ k + (new h).treeWidth < 2 ^ 256 ∧
    ∀ l < h, 0 < nodeIndexAt (new h).treeWidth k l
  latestRoot : ∀ (vs vs' : List (Bytes 32)) (v v' : Bytes 32) (t t' : MerkleTreeSHA256),
    vs.length = vs'.length → vs.length < 2 ^ h → v.low27 ≠ v'.low27 →
      insertEach H (new h) (vs ++ [v]) = some t → insertEach H (new h) (vs' ++ [v']) = some t' →
        ¬ (shaScheme H).Collision (fun e =>
          (shaScheme H).PairOf h ((vs ++ [v]).map Bytes.low27) e ∨
          (shaScheme H).PairOf h ((vs' ++ [v']).map Bytes.low27) e) →
          t.latestRoot ≠ t'.latestRoot

theorem roots_differ (hh : 1 ≤ h) (h33 : h ≤ 33) {vs vs' : List (Bytes 32)} {v v' : Bytes 32}
    {t t' : MerkleTreeSHA256} (hlen : vs.length = vs'.length) (hlt : vs.length < 2 ^ h)
    (hne : v.low27 ≠ v'.low27) (hrun : insertEach H (new h) (vs ++ [v]) = some t)
    (hrun' : insertEach H (new h) (vs' ++ [v']) = some t')
    (hno : ¬ (shaScheme H).Collision (fun e =>
      (shaScheme H).PairOf h ((vs ++ [v]).map Bytes.low27) e ∨
      (shaScheme H).PairOf h ((vs' ++ [v']).map Bytes.low27) e)) :
    t.latestRoot ≠ t'.latestRoot := by
  have hroot : ∀ {us : List (Bytes 32)} {u : Bytes 32} {s : MerkleTreeSHA256},
      us.length < 2 ^ h → insertEach H (new h) (us ++ [u]) = some s →
      s.latestRoot = (shaScheme H).root ((us ++ [u]).map Bytes.low27) h := by
    intro us u s hus hs
    obtain ⟨s', hs', hrep⟩ := insertEach_represents (H := H) hh h33 (us ++ [u]) (new_represents h33)
      (by simp; omega)
    obtain rfl := Option.some.inj (hs.symm.trans hs')
    rw [hrep.root, if_neg (by simp)]
    rfl
  intro heq
  rw [hroot hlt hrun, hroot (hlen ▸ hlt) hrun'] at heq
  have hleaves := Scheme.eq_of_root_eq hh hno (fun e he => Or.inl he) (fun e he => Or.inr he)
    (by simp [hlen]) (by simp; omega) heq
  rw [List.map_append, List.map_append] at hleaves
  exact hne (by simpa using (List.append_inj' hleaves rfl).2)

theorem works (hh : 1 ≤ h) (h33 : h ≤ 33) : Works H h where
  treeWidth := (new_sized h33).treeWidth
  succeeds vs hlen := by
    obtain ⟨t, ht, -⟩ := insertEach_represents (H := H) hh h33 vs (new_represents h33) (by simpa)
    rw [ht]
    rfl
  nodeIndex k hk := by
    have hle : 2 ^ h ≤ 2 ^ 33 := Nat.pow_le_pow_right (by norm_num) h33
    rw [(new_sized h33).treeWidth]
    refine ⟨by omega, by omega, fun l hl => ?_⟩
    rw [nodeIndexAt_eq h33 hk l hl.le]
    exact index_pos hl _
  latestRoot _ _ _ _ _ _ hlen hlt hne hrun hrun' hno :=
    roots_differ hh h33 hlen hlt hne hrun hrun' hno

/-- Nothing is hashed at height zero. -/
theorem insertEach_zero {v : Bytes 32} {t : MerkleTreeSHA256}
    (hrun : insertEach H (new 0) [v] = some t) : t.latestRoot = Bytes.zeros 32 := by
  simp only [insertEach, insertLeaf, insertLeafLoop, new, Option.bind_eq_bind,
    Option.bind_eq_some_iff, Option.pure_def, Option.some.injEq] at hrun
  obtain ⟨⟨t₁, e⟩, ⟨-, -, slot, -, ⟨f, p⟩, ⟨-, rfl⟩, rfl, -⟩, rfl⟩ := hrun
  rfl

theorem not_works_zero : ¬ Works H 0 := by
  intro hw
  obtain ⟨t, ht⟩ := Option.isSome_iff_exists.1 (hw.succeeds [Bytes.fill 32 1] le_rfl)
  obtain ⟨t', ht'⟩ := Option.isSome_iff_exists.1 (hw.succeeds [Bytes.fill 32 2] le_rfl)
  refine hw.latestRoot [] [] _ _ t t' rfl Nat.one_pos (by decide) ht ht' ?_ ?_
  · rintro ⟨e, -, -, ⟨l, -, hl, -⟩ | ⟨l, -, hl, -⟩, -⟩ <;> exact Nat.not_lt_zero l hl
  · exact (insertEach_zero ht).trans (insertEach_zero ht').symm

/-- The leaf with index `2 ^ 33 - 1` has slot 33. -/
theorem not_works_of_gt (hgt : 33 < h) : ¬ Works H h := by
  intro hw
  obtain ⟨n, hn⟩ : ∃ n, n + 1 = 2 ^ 33 := ⟨2 ^ 33 - 1, by norm_num⟩
  have hpow : 2 ^ 33 ≤ 2 ^ h := Nat.pow_le_pow_right (by norm_num) hgt.le
  have hrun := hw.succeeds (List.replicate n (Bytes.zeros 32) ++ [Bytes.zeros 32])
    (by simp; omega)
  rw [insertEach_concat] at hrun
  obtain ⟨t, ht⟩ := Option.isSome_iff_exists.1 (hw.succeeds (List.replicate n (Bytes.zeros 32))
    (by simp; omega))
  obtain ⟨hheight, hcount⟩ := insertEach_counts _ ht (by
    rw [List.length_replicate]
    change 0 + n < 2 ^ 256
    omega)
  have hleaf : t.leafCount = n := by
    rw [hcount, List.length_replicate]
    exact Nat.zero_add n
  have hslot : slot n = 33 := slot_eq_of (q := 0) (by omega)
  have hrev : t.insertLeaf H (Bytes.zeros 32) = none := by
    refine insertLeaf_reverts ?_ ?_ ?_ _ <;> rw [hleaf]
    · omega
    · exact hslot.ge
    · rw [hslot, hheight]
      exact hgt
  simp [ht, hrev] at hrun

theorem works_iff (H : Bytes 54 → Bytes 32) (h : ℕ) : Works H h ↔ 1 ≤ h ∧ h ≤ 33 := by
  refine ⟨fun hw => ?_, fun hh => works hh.1 hh.2⟩
  by_contra hout
  rcases Nat.eq_zero_or_pos h with rfl | hpos
  · exact not_works_zero hw
  · exact not_works_of_gt (by omega) hw

/-- The two heights the constructor could refuse outright: at 0 the root is the same for both
leaves, at 256 there is no room for one. -/
theorem heights_unchecked :
    (∃ t t', insertEach (precompile Sha256.digest) (new 0) [Bytes.fill 32 1] = some t ∧
      insertEach (precompile Sha256.digest) (new 0) [Bytes.fill 32 2] = some t' ∧
      (Bytes.fill 32 1).low27 ≠ (Bytes.fill 32 2).low27 ∧ t.latestRoot = t'.latestRoot) ∧
    insertEach (precompile Sha256.digest) (new 256) [Bytes.fill 32 1] = none ∧
    ¬ Works (precompile Sha256.digest) 0 := by
  refine ⟨⟨_, _, rfl, rfl, by decide, rfl⟩, ?_, not_works_zero⟩
  rw [insertEach, insertLeaf_full (by decide)]
  rfl

end MerkleTreeSHA256

end Baseline
