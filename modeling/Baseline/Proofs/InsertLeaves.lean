import Baseline.Proofs.MerkleTreeSHA256

/-!
# Batches

A non-empty batch leaves what inserting its values one by one leaves (`insertLeaves_eq`,
`insertEach_eq`): both push every value into the frontier, and both hash the last one's path to
the root. The empty batch hashes anyway (`insertLeaves_nil`), from the zeros its variables start
with: node `0` counts as a right node, and `nodeIndex - 1` wraps to an index all of whose
ancestors are left nodes, so the root becomes that of the tree whose one leaf is the value in
frontier slot `0`.
-/

namespace Baseline

open HashTree

namespace MerkleTreeSHA256

variable {H : Bytes 54 → Bytes 32} {h : ℕ}

/-! ## One by one -/

theorem insertEach_append (us vs : List (Bytes 32)) :
    ∀ t : MerkleTreeSHA256,
      insertEach H t (us ++ vs) = (insertEach H t us).bind (insertEach H · vs) := by
  induction us with
  | nil => intro t; rfl
  | cons u us ih =>
    intro t
    simp only [List.cons_append, insertEach]
    rcases t.insertLeaf H u with _ | ⟨t', e⟩
    · rfl
    · exact ih t'

theorem insertEach_eq (hh : 1 ≤ h) (h32 : h ≤ 32) :
    ∀ (vs : List (Bytes 32)) {t : MerkleTreeSHA256}, Sized h t →
      t.leafCount + vs.length ≤ 2 ^ h →
      ∃ t', insertEach H t vs = some t' ∧ Sized h t' ∧
        t'.leafCount = t.leafCount + vs.length ∧
        ∀ i < h, t'.frontier.get i
          = (shaScheme H).pushAll t.frontier.get t.leafCount (vs.map Bytes.low27) i
  | [], t, ht, _ => ⟨t, rfl, ht, rfl, fun _ _ => rfl⟩
  | v :: vs, t, ht, hn => by
    simp only [List.length_cons] at hn
    obtain ⟨t₁, h1, hs₁, hc₁, -, hf₁⟩ := insertLeaf_eq (H := H) hh (by omega) ht (by omega) v
    obtain ⟨t₂, h2, hs₂, hc₂, hf₂⟩ := insertEach_eq hh h32 vs hs₁ (by omega)
    refine ⟨t₂, ?_, hs₂, by simp only [hc₂, hc₁, List.length_cons]; omega, fun i hi => ?_⟩
    · rw [insertEach, h1]
      exact h2
    · rw [hf₂ i hi, hc₁]
      exact Scheme.pushAll_congr _ (by rw [List.length_map]; omega) hf₁ i hi

/-! ## The batch -/

section Batch

theorem insertLeavesLoop_cons {k : ℕ} (hk : k < 2 ^ h) (h32 : h ≤ 32) (v : Bytes 32) (b : Batch) :
    ∃ b₁ : Batch, (∀ vs, insertLeavesLoop H (2 ^ h) (v :: vs) k b
        = insertLeavesLoop H (2 ^ h) vs (k + 1) b₁) ∧
      b₁.frontier.get = (shaScheme H).push b.frontier.get k v.low27 ∧ b₁.slot = slot k ∧
      OnPath H h b.frontier.get k v.low27 (slot k) b₁.path := by
  have h1 : 2 ^ h ≤ 2 ^ 32 := Nat.pow_le_pow_right (by norm_num) h32
  have hs := slot_le hk
  have hp := onPath_zero H b.frontier.get hk (by omega) v b.path.output
  have hslot := getFrontierSlot_eq (show k + 1 < 2 ^ 255 by omega)
  rcases Nat.eq_zero_or_pos (slot k) with h0 | hpos
  · obtain ⟨g, hw, hg⟩ := b.frontier.write_eq (i := 0) (by omega) v.shl40.toBytes27
    refine ⟨⟨slot k, _, g⟩, fun vs => ?_, ?_, rfl, by rw [h0]; exact hp⟩
    · simp only [insertLeavesLoop, hslot, h0, if_true, hw, Option.bind_eq_bind, Option.bind_some]
    · rw [hg, Scheme.push, h0, Bytes.toBytes27_shl40]
      rfl
  · obtain ⟨p, hl, hp'⟩ := hashLevels_eq (g := b.frontier) hk (by omega) (slot k) 0 (by omega) hp
      fun _ _ _ _ => rfl
    rw [Nat.zero_add] at hl hp'
    obtain ⟨g, hw, hg⟩ := b.frontier.write_eq (i := slot k) (by omega) p.nodeValue
    refine ⟨⟨slot k, p, g⟩, fun vs => ?_, ?_, rfl, hp'⟩
    · simp only [insertLeavesLoop, hslot, if_neg hpos.ne', hl, hw, Option.bind_eq_bind,
        Option.bind_some]
    · rw [hg, hp'.nodeValue]
      rfl

theorem insertLeavesLoop_eq (h32 : h ≤ 32) (v : Bytes 32) :
    ∀ (us : List (Bytes 32)) {k : ℕ} (b : Batch), k + us.length < 2 ^ h →
      ∃ b₁ : Batch, insertLeavesLoop H (2 ^ h) (us ++ [v]) k b = some b₁ ∧
        b₁.frontier.get = (shaScheme H).push
          ((shaScheme H).pushAll b.frontier.get k (us.map Bytes.low27)) (k + us.length) v.low27 ∧
        b₁.slot = slot (k + us.length) ∧
        OnPath H h ((shaScheme H).pushAll b.frontier.get k (us.map Bytes.low27)) (k + us.length)
          v.low27 (slot (k + us.length)) b₁.path
  | [], k, b, hk => by
    obtain ⟨b₁, h1, h2, h3, h4⟩ := insertLeavesLoop_cons (H := H) hk h32 v b
    exact ⟨b₁, h1 [], h2, h3, h4⟩
  | u :: us, k, b, hk => by
    simp only [List.length_cons] at hk
    obtain ⟨b₁, h1, h2, -, -⟩ := insertLeavesLoop_cons (H := H) (k := k) (by omega) h32 u b
    obtain ⟨b₂, h3, h4, h5, h6⟩ := insertLeavesLoop_eq h32 v us (k := k + 1) b₁ (by omega)
    rw [h2, show k + 1 + us.length = k + (us.length + 1) by omega] at h4 h6
    rw [show k + 1 + us.length = k + (us.length + 1) by omega] at h5
    exact ⟨b₂, (h1 _).trans h3, h4, h5, h6⟩

theorem insertLeaves_eq (hh : 1 ≤ h) (h32 : h ≤ 32) {t : MerkleTreeSHA256} (ht : Sized h t)
    {vs : Bytes32Array} {us : List (Bytes 32)} {v : Bytes 32} (hvs : vs.1 = us ++ [v])
    (hn : t.leafCount + vs.1.length ≤ 2 ^ h) :
    ∃ t', t.insertLeaves H vs = some (t', ⟨t.leafCount, vs.1, t'.latestRoot⟩) ∧ Sized h t' ∧
      t'.leafCount = t.leafCount + vs.1.length ∧
      t'.latestRoot = (shaScheme H).digestUp
        ((shaScheme H).pushAll t.frontier.get t.leafCount (us.map Bytes.low27))
        (t.leafCount + us.length) (h - 1)
        ((shaScheme H).climb
          ((shaScheme H).pushAll t.frontier.get t.leafCount (us.map Bytes.low27))
          (t.leafCount + us.length) v.low27 (h - 1)) ∧
      t'.frontier.get
        = (shaScheme H).pushAll t.frontier.get t.leafCount (vs.1.map Bytes.low27) := by
  have h1 : 2 ^ h ≤ 2 ^ 32 := Nat.pow_le_pow_right (by norm_num) h32
  have hlen : vs.1.length = us.length + 1 := by rw [hvs, List.length_append]; rfl
  have hk : t.leafCount + us.length < 2 ^ h := by omega
  obtain ⟨b, hb, hf, hs, hp⟩ := insertLeavesLoop_eq (H := H) h32 v us (k := t.leafCount)
    { slot := 0, path := ⟨0, Bytes.zeros 27, Bytes.zeros 32⟩, frontier := t.frontier } hk
  have hsl := slot_le hk
  obtain ⟨p, hl, hp'⟩ := hashLevels_eq (g := b.frontier) hk (by omega)
    (h - slot (t.leafCount + us.length)) _ (by omega) hp
    fun i hi _ u => by rw [hf, Scheme.digestUp_push _ _ hi]
  rw [Nat.add_sub_cancel' hsl] at hp'
  have hspace : usub (2 ^ h) t.leafCount = 2 ^ h - t.leafCount :=
    usub_of_le (by omega) (by omega)
  have hfit : ¬ vs.1.length > 2 ^ h - t.leafCount := by omega
  have hcount : uadd t.leafCount vs.1.length = t.leafCount + vs.1.length :=
    uadd_of_lt (by omega)
  refine ⟨⟨t.treeHeight, t.treeWidth, p.output, t.leafCount + vs.1.length, b.frontier⟩, ?_,
    ⟨ht.treeHeight, ht.treeWidth, hn⟩, rfl, hp'.output (h - 1) (by omega), ?_⟩
  · rw [hvs] at hfit hcount
    rw [hvs] at hn
    simp only [insertLeaves, ht.treeWidth, ht.treeHeight, hvs, hcount, guard, ge_iff_le, hn,
      if_true, hspace, hfit, if_false, hb, hs, hl, Option.bind_eq_bind, Option.bind_some,
      Option.pure_def]
  · simp only [hf, hvs, List.map_append, Scheme.pushAll_append, List.length_map, List.map_cons,
      List.map_nil, Scheme.pushAll]

end Batch

/-! ## The empty batch -/

section Empty

variable {g : Frontier}

/-- `p` is where the empty batch is at level `l`: on the path of a tree whose one leaf is frontier
slot `0`, at a node index that is odd as long as it matters. -/
structure OnEmptyPath (H : Bytes 54 → Bytes 32) (g : Frontier) (l : ℕ) (p : Path) : Prop where
  nodeIndex : p.nodeIndex = 2 ^ (256 - l) - 1
  nodeValue : p.nodeValue = (shaScheme H).climb g.get 0 (g.get 0) l
  output : ∀ i, l = i + 1 →
    p.output = (shaScheme H).digestUp g.get 0 i ((shaScheme H).climb g.get 0 (g.get 0) i)

theorem digestUp_zero (f : ℕ → Bytes 27) (l : ℕ) (v : Bytes 27) :
    (shaScheme H).digestUp f 0 l v = H (v.append zero) := by
  simp [Scheme.digestUp, shaScheme, zero]

theorem onEmptyPath_of_output {l : ℕ} {p : Path}
    (hi : p.nodeIndex = 2 ^ (256 - (l + 1)) - 1)
    (ho : p.output = H (((shaScheme H).climb g.get 0 (g.get 0) l).append zero))
    (hv : p.nodeValue = p.output.shl40.toBytes27) : OnEmptyPath H g (l + 1) p := by
  have hd := digestUp_zero (H := H) g.get l ((shaScheme H).climb g.get 0 (g.get 0) l)
  refine ⟨hi, ?_, fun i hil => ?_⟩
  · rw [hv, Bytes.toBytes27_shl40, ho, Scheme.climb, hd]
    rfl
  · rw [← Nat.add_right_cancel hil, ho, hd]

theorem hashLevels_empty (h32 : h ≤ 32) :
    ∀ (n l : ℕ) {p : Path}, 1 ≤ l → l + n = h → OnEmptyPath H g l p →
      ∃ p', hashLevels H g n (l + 1) p = some p' ∧ OnEmptyPath H g h p'
  | 0, l, p, _, hn, hp => by
    obtain rfl : l = h := by omega
    exact ⟨p, rfl, hp⟩
  | n + 1, l, p, hl, hn, hp => by
    have hpow : 2 ^ (256 - l) = 2 * 2 ^ (256 - (l + 1)) := by
      rw [show 256 - l = 256 - (l + 1) + 1 by omega, pow_succ]
      ring
    have hpos : 0 < 2 ^ (256 - (l + 1)) := by positivity
    have hodd : ¬ p.nodeIndex % 2 = 0 := by
      rw [hp.nodeIndex, hpow]
      omega
    have hp₁ : OnEmptyPath H g (l + 1) ⟨p.nodeIndex / 2,
        (H (p.nodeValue.append zero)).shl40.toBytes27, H (p.nodeValue.append zero)⟩ := by
      have hhalf : p.nodeIndex / 2 = 2 ^ (256 - (l + 1)) - 1 := by
        rw [hp.nodeIndex, hpow]
        omega
      exact onEmptyPath_of_output hhalf (by rw [hp.nodeValue]) rfl
    obtain ⟨p', h1, hp'⟩ := hashLevels_empty h32 n (l + 1) (by omega) (by omega) hp₁
    refine ⟨p', ?_, hp'⟩
    rw [hashLevels, hashUp, if_neg hodd]
    exact h1

theorem insertLeaves_nil (hh : 1 ≤ h) (h32 : h ≤ 32) {t : MerkleTreeSHA256} (ht : Sized h t)
    {vs : Bytes32Array} (hvs : vs.1 = []) :
    ∃ t', t.insertLeaves H vs = some (t', ⟨t.leafCount, [], t'.latestRoot⟩) ∧ Sized h t' ∧
      t'.leafCount = t.leafCount ∧ t'.frontier = t.frontier ∧
      t'.latestRoot = (shaScheme H).root [t.frontier.get 0] h := by
  have h1 : 2 ^ h ≤ 2 ^ 32 := Nat.pow_le_pow_right (by norm_num) h32
  have hc := ht.leafCount
  obtain ⟨m, rfl⟩ : ∃ m, h = m + 1 := ⟨h - 1, by omega⟩
  have hp₁ : OnEmptyPath H t.frontier 1 ⟨usub 0 1 / 2,
      (H ((t.frontier.get 0).append (Bytes.zeros 27))).shl40.toBytes27,
      H ((t.frontier.get 0).append (Bytes.zeros 27))⟩ :=
    onEmptyPath_of_output (by norm_num [usub, wrap]) rfl rfl
  obtain ⟨p, hl, hp⟩ := hashLevels_empty h32 m 1 le_rfl (by omega) hp₁
  have hcount : uadd t.leafCount 0 = t.leafCount := uadd_of_lt (by omega)
  have hfirst : hashLevels H t.frontier (m + 1) 1 ⟨0, Bytes.zeros 27, Bytes.zeros 32⟩
      = hashLevels H t.frontier m 2 ⟨usub 0 1 / 2,
        (H ((t.frontier.get 0).append (Bytes.zeros 27))).shl40.toBytes27,
        H ((t.frontier.get 0).append (Bytes.zeros 27))⟩ := by
    simp only [hashLevels, hashUp, Nat.zero_mod, if_true, Nat.sub_self,
      t.frontier.read_eq (show 0 < 33 by omega), Option.bind_eq_bind, Option.bind_some,
      Option.pure_def]
  refine ⟨⟨t.treeHeight, t.treeWidth, p.output, t.leafCount, t.frontier⟩, ?_,
    ⟨ht.treeHeight, ht.treeWidth, hc⟩, rfl, rfl, ?_⟩
  · simp only [insertLeaves, ht.treeWidth, ht.treeHeight, hvs, List.length_nil, hcount, guard,
      ge_iff_le, hc, if_true, gt_iff_lt, Nat.not_lt_zero, if_false, insertLeavesLoop,
      Nat.sub_zero, Nat.zero_add, hfirst, hl, Option.bind_eq_bind, Option.bind_some,
      Option.pure_def]
  · have := Scheme.digestUp_eq_root (S := shaScheme H) (Scheme.isFrontier_nil (m + 1)
      t.frontier.get) (t.frontier.get 0) (by simp)
    rw [hp.output m rfl]
    exact this

end Empty

/-! ## Any batch -/

/-- The states any mix of calls reaches. -/
inductive Reachable (H : Bytes 54 → Bytes 32) (h : ℕ) : MerkleTreeSHA256 → Prop
  | new : Reachable H h (new h)
  | insertLeaf {t t' : MerkleTreeSHA256} {v : Bytes 32} {e : NewLeaf} :
      Reachable H h t → t.insertLeaf H v = some (t', e) → Reachable H h t'
  | insertLeaves {t t' : MerkleTreeSHA256} {vs : Bytes32Array} {e : NewLeaves} :
      Reachable H h t → t.insertLeaves H vs = some (t', e) → Reachable H h t'

/-- A batch's capacity check does not wrap. -/
theorem checked_iff (h32 : h ≤ 32) {t : MerkleTreeSHA256} (ht : Sized h t) (vs : Bytes32Array) :
    t.treeWidth ≥ uadd t.leafCount vs.1.length ↔ t.leafCount + vs.1.length ≤ 2 ^ h := by
  have h1 : 2 ^ h ≤ 2 ^ 32 := Nat.pow_le_pow_right (by norm_num) h32
  have h2 := ht.leafCount
  have h3 := vs.2
  rw [ht.treeWidth, uadd_of_lt (by omega)]

theorem insertLeaves_sized (hh : 1 ≤ h) (h32 : h ≤ 32) {t t' : MerkleTreeSHA256}
    {vs : Bytes32Array} {e : NewLeaves} (ht : Sized h t)
    (h1 : t.insertLeaves H vs = some (t', e)) : Sized h t' := by
  by_cases hn : t.leafCount + vs.1.length ≤ 2 ^ h
  · rcases List.eq_nil_or_concat vs.1 with hvs | ⟨us, v, hvs⟩
    · obtain ⟨t₁, h2, hs, -⟩ := insertLeaves_nil (H := H) hh h32 ht hvs
      simp only [h1, Option.some.injEq, Prod.mk.injEq] at h2
      exact h2.1 ▸ hs
    · obtain ⟨t₁, h2, hs, -⟩ := insertLeaves_eq (H := H) hh h32 ht
        (by rwa [List.concat_eq_append] at hvs) hn
      simp only [h1, Option.some.injEq, Prod.mk.injEq] at h2
      exact h2.1 ▸ hs
  · rw [insertLeaves, guard, if_neg (fun hc => hn ((checked_iff h32 ht vs).1 hc))] at h1
    cases h1

theorem Reachable.sized (hh : 1 ≤ h) (h32 : h ≤ 32) {t : MerkleTreeSHA256}
    (ht : Reachable H h t) : Sized h t := by
  induction ht with
  | new => exact new_sized (by omega)
  | @insertLeaf t t' v e _ h1 ih =>
    by_cases hk : t.leafCount < 2 ^ h
    · obtain ⟨t₁, h2, hs, -⟩ := insertLeaf_eq (H := H) hh (by omega) ih hk v
      simp only [h1, Option.some.injEq, Prod.mk.injEq] at h2
      exact h2.1 ▸ hs
    · rw [insertLeaf_full (by rw [ih.treeWidth]; omega)] at h1
      cases h1
  | insertLeaves _ h1 ih => exact insertLeaves_sized hh h32 ih h1

/-- `insertLeaves` on a list leaves what `insertLeaf` on each of its values leaves. -/
def SameAsEach (H : Bytes 54 → Bytes 32) (h : ℕ) (t : MerkleTreeSHA256) (vs : Bytes32Array) :
    Prop :=
  ∃ t₁ e t₂, t.insertLeaves H vs = some (t₁, e) ∧ insertEach H t vs.1 = some t₂ ∧
    t₁.latestRoot = t₂.latestRoot ∧ t₁.leafCount = t₂.leafCount ∧
    ∀ L < h, t₁.frontier.read L = t₂.frontier.read L

theorem sameAsEach_of_ne_nil (hh : 1 ≤ h) (h32 : h ≤ 32) {t : MerkleTreeSHA256} (ht : Sized h t)
    {vs : Bytes32Array} (hne : vs.1 ≠ []) (hn : t.leafCount + vs.1.length ≤ 2 ^ h) :
    SameAsEach H h t vs := by
  obtain ⟨us, v, hvs⟩ := (List.eq_nil_or_concat vs.1).resolve_left hne
  rw [List.concat_eq_append] at hvs
  have hlen : vs.1.length = us.length + 1 := by rw [hvs, List.length_append]; rfl
  obtain ⟨t₁, h1, -, hc₁, hr₁, hf₁⟩ := insertLeaves_eq (H := H) hh h32 ht hvs hn
  obtain ⟨t₂, h2, -, hc₂, hf₂⟩ := insertEach_eq (H := H) hh h32 vs.1 ht hn
  -- the root is the last call's
  obtain ⟨t₃, h3, hs₃, hc₃, hf₃⟩ := insertEach_eq (H := H) hh h32 us ht (by omega)
  obtain ⟨t₄, h4, -, -, hr₄, -⟩ := insertLeaf_eq (H := H) hh (by omega) hs₃ (by omega) v
  have h24 : t₂ = t₄ := by
    rw [hvs, insertEach_append, h3, Option.bind_some] at h2
    simp only [insertEach, h4, Option.bind_eq_bind, Option.bind_some, Option.some.injEq] at h2
    exact h2.symm
  refine ⟨t₁, _, t₂, h1, h2, ?_, hc₁.trans hc₂.symm, fun L hL => ?_⟩
  · rw [hr₁, h24, hr₄, hc₃, Scheme.digestUp_congr _ (hf₃ (h - 1) (by omega)),
      Scheme.climb_congr _ _ fun i hi => hf₃ i (by omega)]
  · rw [t₁.frontier.read_eq (by omega), t₂.frontier.read_eq (by omega), hf₂ L hL, hf₁]

theorem sameAsEach_nil_iff (hh : 1 ≤ h) (h32 : h ≤ 32) {t : MerkleTreeSHA256} (ht : Sized h t)
    {vs : Bytes32Array} (hvs : vs.1 = []) :
    SameAsEach H h t vs ↔ t.latestRoot = (shaScheme H).root [t.frontier.get 0] h := by
  obtain ⟨t₁, h1, -, hc, hf, hr⟩ := insertLeaves_nil (H := H) hh h32 ht hvs
  constructor
  · rintro ⟨t₂, e, t₃, h2, h3, hr', -⟩
    rw [hvs] at h3
    simp only [h1, Option.some.injEq, Prod.mk.injEq] at h2
    cases h3
    rw [← hr', ← h2.1, hr]
  · intro hroot
    exact ⟨t₁, _, t, h1, by rw [hvs]; rfl, hr.trans hroot.symm, hc, fun L _ => by rw [hf]⟩

/-- A batch that passes the capacity check does what single insertions do exactly if it is not
empty, or the root already is that of the tree whose one leaf is frontier slot `0`. -/
theorem insertLeaves_same_iff (H : Bytes 54 → Bytes 32) {h : ℕ} (hh : 1 ≤ h) (h32 : h ≤ 32)
    {t : MerkleTreeSHA256} (ht : Reachable H h t) {vs : Bytes32Array}
    (hn : t.treeWidth ≥ uadd t.leafCount vs.1.length) :
    SameAsEach H h t vs
      ↔ vs.1 ≠ [] ∨ t.latestRoot = (shaScheme H).root [t.frontier 0] h := by
  have hs := ht.sized hh h32
  by_cases hvs : vs.1 = []
  · rw [sameAsEach_nil_iff hh h32 hs hvs]
    simp only [hvs, ne_eq, not_true_eq_false, false_or]
    rfl
  · simp only [ne_eq, hvs, not_false_eq_true, true_or, iff_true]
    exact sameAsEach_of_ne_nil hh h32 hs hvs ((checked_iff h32 hs vs).1 hn)

theorem insertLeaves_same_one :
    SameAsEach (precompile Sha256.digest) 1 (new 1) ⟨[Bytes.fill 32 1], by decide⟩ :=
  (insertLeaves_same_iff _ le_rfl (by norm_num) .new (by decide)).2 (.inl (by simp))

/-- After two leaves, the empty batch passes the check and replaces the root. -/
theorem insertLeaves_empty : ∃ t, insertEach (precompile Sha256.digest) (new 1)
      [Bytes.fill 32 1, Bytes.fill 32 2] = some t ∧ t.treeWidth ≥ uadd t.leafCount 0 ∧
    ¬ SameAsEach (precompile Sha256.digest) 1 t ⟨[], by decide⟩ := by
  obtain ⟨t, h1, hs, -, -⟩ := insertEach_eq (H := precompile Sha256.digest) (h := 1) le_rfl
    (by norm_num) [Bytes.fill 32 1, Bytes.fill 32 2] (new_sized (by norm_num)) (by decide)
  refine ⟨t, h1, (checked_iff (by norm_num) hs ⟨[], by decide⟩).2 hs.leafCount,
    mt (sameAsEach_nil_iff le_rfl (by norm_num) hs rfl).1 ?_⟩
  have hroot : (insertEach (precompile Sha256.digest) (new 1)
      [Bytes.fill 32 1, Bytes.fill 32 2]).all (fun t => t.latestRoot
        ≠ (shaScheme (precompile Sha256.digest)).root [t.frontier.get 0] 1) = true := by
    decide +kernel
  rw [h1] at hroot
  simpa using hroot

end MerkleTreeSHA256

end Baseline
