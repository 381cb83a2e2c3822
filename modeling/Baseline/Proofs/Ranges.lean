import Baseline.Proofs.Scan

/-!
# Ranges with gaps

A turn of `getLeavesByLeafIndexRange` takes every stored leaf from its index to the last one, and
the next turn starts as many indices later as it took leaves. So after the leaves of the range come
those again that a gap pushed past that index (`leafIndexRangeLoop_reads`), and the result is right
if no leaf of the range is missing below a stored one (`getLeavesByLeafIndexRange_exact_iff`).
-/

namespace Baseline

open Await HashTree

namespace CommitMgr

/-! ## Numbers without a gap -/

theorem lt_add_length_iff {ids : List ℕ} {lo : ℕ} (hnodup : ids.Nodup) (hge : ∀ j ∈ ids, lo ≤ j) :
    (∀ j ∈ ids, j < lo + ids.length) ↔ ∀ j ∈ ids, ∀ i, lo ≤ i → i < j → i ∈ ids := by
  refine ⟨fun hlt j hj i hi hij => ?_, fun hdense j hj => ?_⟩
  · have hsub : ids ⊆ List.range' lo ids.length := fun k hk =>
      List.mem_range'_1.2 ⟨hge k hk, hlt k hk⟩
    have hperm := (hnodup.subperm hsub).perm_of_length_le (by rw [List.length_range'])
    rw [hperm.mem_iff, List.mem_range'_1]
    exact ⟨hi, hij.trans (hlt j hj)⟩
  · have hsub : List.range' lo (j + 1 - lo) ⊆ ids := by
      intro i hi
      obtain ⟨hlo, hlt⟩ := List.mem_range'_1.1 hi
      rcases Nat.lt_or_ge i j with h | h
      · exact hdense j hj i hlo h
      · rwa [show i = j by omega]
    have hlen := ((List.nodup_range' (n := j + 1 - lo)).subperm hsub).length_le
    have hj := hge j hj
    rw [List.length_range'] at hlen
    omega

/-! ## What a range should be -/

section InRange

variable {leaves : List Leaf} {lo hi i : ℕ}

/-- The leaves with an index from `lo` to `hi`, in order. -/
def leavesInRange (leaves : List Leaf) (lo hi : ℕ) : List Leaf :=
  (List.range' lo (hi + 1 - lo)).filterMap fun i => leaves.find? fun leaf => leaf.leafIndex = i

/-- Below a leaf of the range every index of the range has its leaf. -/
def Gapless (leaves : List Leaf) (lo hi : ℕ) : Prop :=
  ∀ leaf ∈ leaves, leaf.leafIndex ≤ hi → ∀ i, lo ≤ i → i < leaf.leafIndex →
    ∃ leaf' ∈ leaves, leaf'.leafIndex = i

theorem map_leafIndex_leavesInRange (leaves : List Leaf) (lo hi : ℕ) :
    (leavesInRange leaves lo hi).map Leaf.leafIndex
      = (List.range' lo (hi + 1 - lo)).filter fun i => i ∈ leaves.map Leaf.leafIndex := by
  rw [leavesInRange, List.map_filterMap, ← List.filterMap_eq_filter]
  refine List.filterMap_congr fun i _ => ?_
  rcases hfind : leaves.find? fun leaf => leaf.leafIndex = i with _ | leaf
  · rw [hfind, Option.map_none]
    have hno : i ∉ leaves.map Leaf.leafIndex := by
      intro hmem
      obtain ⟨leaf, hleaf, hi⟩ := List.mem_map.1 hmem
      exact absurd (by simpa using hi) (List.find?_eq_none.1 hfind leaf hleaf)
    rw [Option.guard, if_neg (by simpa using hno)]
  · have hi : leaf.leafIndex = i := by simpa using List.find?_some hfind
    have hmem : i ∈ leaves.map Leaf.leafIndex :=
      List.mem_map.2 ⟨leaf, List.mem_of_find?_eq_some hfind, hi⟩
    rw [hfind, Option.map_some, hi, Option.guard, if_pos (by simpa using hmem)]

theorem mem_indices_iff : i ∈ (leavesInRange leaves lo hi).map Leaf.leafIndex
    ↔ lo ≤ i ∧ i ≤ hi ∧ ∃ leaf ∈ leaves, leaf.leafIndex = i := by
  rw [map_leafIndex_leavesInRange, List.mem_filter, List.mem_range'_1, decide_eq_true_iff,
    List.mem_map]
  refine ⟨fun ⟨⟨h1, h2⟩, h3⟩ => ⟨h1, by omega, h3⟩, fun ⟨h1, h2, h3⟩ => ⟨⟨h1, by omega⟩, h3⟩⟩

theorem nodup_indices : ((leavesInRange leaves lo hi).map Leaf.leafIndex).Nodup := by
  rw [map_leafIndex_leavesInRange]
  exact List.Nodup.filter _ List.nodup_range'

/-- All the leaves of the range, each once and in order. -/
structure IsRange (leaves : List Leaf) (lo hi : ℕ) (result : List Leaf) : Prop where
  mem : ∀ leaf, leaf ∈ result ↔ leaf ∈ leaves ∧ lo ≤ leaf.leafIndex ∧ leaf.leafIndex ≤ hi
  increasing : result.Pairwise fun leaf leaf' => leaf.leafIndex < leaf'.leafIndex

theorem isRange_leavesInRange (hdistinct : (leaves.map Leaf.leafIndex).Nodup) (lo hi : ℕ) :
    IsRange leaves lo hi (leavesInRange leaves lo hi) where
  mem leaf := by
    rw [leavesInRange, List.mem_filterMap]
    refine ⟨fun ⟨i, hi, hfind⟩ => ?_, fun ⟨hmem, hlo, hhi⟩ => ⟨leaf.leafIndex, ?_, ?_⟩⟩
    · have hidx : leaf.leafIndex = i := by simpa using List.find?_some hfind
      obtain ⟨hlo, hlt⟩ := List.mem_range'_1.1 hi
      exact ⟨List.mem_of_find?_eq_some hfind, by omega, by omega⟩
    · exact List.mem_range'_1.2 ⟨hlo, by omega⟩
    · have hsome : (leaves.find? fun leaf' => leaf'.leafIndex = leaf.leafIndex).isSome :=
        List.find?_isSome.2 ⟨leaf, hmem, by simp⟩
      obtain ⟨leaf', hfind⟩ := Option.isSome_iff_exists.1 hsome
      have hidx : leaf'.leafIndex = leaf.leafIndex := by simpa using List.find?_some hfind
      rw [hfind, List.inj_on_of_nodup_map hdistinct (List.mem_of_find?_eq_some hfind) hmem hidx]
  increasing := by
    rw [← List.pairwise_map, map_leafIndex_leavesInRange]
    exact List.Pairwise.filter _ List.pairwise_lt_range'

theorem IsRange.eq {result result' : List Leaf} (h : IsRange leaves lo hi result)
    (h' : IsRange leaves lo hi result') : result = result' := by
  have : Std.Irrefl fun leaf leaf' : Leaf => leaf.leafIndex < leaf'.leafIndex :=
    ⟨fun _ => lt_irrefl _⟩
  have : Std.Antisymm fun leaf leaf' : Leaf => leaf.leafIndex < leaf'.leafIndex :=
    ⟨fun _ _ hlt hlt' => absurd hlt' hlt.asymm⟩
  exact h.increasing.eq_of_mem_iff h'.increasing fun leaf => (h.mem leaf).trans (h'.mem leaf).symm

theorem leavesInRange_eq_nil_iff : leavesInRange leaves lo hi = []
    ↔ ∀ leaf ∈ leaves, lo ≤ leaf.leafIndex → ¬ leaf.leafIndex ≤ hi := by
  rw [← List.map_eq_nil_iff (f := Leaf.leafIndex), List.eq_nil_iff_forall_not_mem]
  simp only [mem_indices_iff]
  refine ⟨fun h leaf hleaf hlo hhi => h _ ⟨hlo, hhi, leaf, hleaf, rfl⟩, ?_⟩
  rintro h i ⟨hlo, hhi, leaf, hleaf, rfl⟩
  exact h leaf hleaf hlo hhi

/-- Nothing is left of the range past the count of its leaves. -/
theorem gapless_iff : Gapless leaves lo hi
    ↔ leavesInRange leaves (lo + (leavesInRange leaves lo hi).length) hi = [] := by
  have hge : ∀ j ∈ (leavesInRange leaves lo hi).map Leaf.leafIndex, lo ≤ j :=
    fun j hj => (mem_indices_iff.1 hj).1
  have hdense := lt_add_length_iff nodup_indices hge
  rw [List.length_map] at hdense
  rw [leavesInRange_eq_nil_iff]
  refine ⟨fun hgap leaf hleaf hpast hhi => ?_, fun hpast leaf hleaf hhi i hlo hlt => ?_⟩
  · have hlt := hdense.2 (fun j hj i hi hij => ?_) leaf.leafIndex
      (mem_indices_iff.2 ⟨by omega, hhi, leaf, hleaf, rfl⟩)
    · omega
    · obtain ⟨-, hjhi, leaf', hleaf', rfl⟩ := mem_indices_iff.1 hj
      exact mem_indices_iff.2 ⟨hi, by omega, hgap leaf' hleaf' hjhi i hi hij⟩
  · have hmem := hdense.1 (fun j hj => ?_) leaf.leafIndex
      (mem_indices_iff.2 ⟨by omega, hhi, leaf, hleaf, rfl⟩) i hlo hlt
    · exact (mem_indices_iff.1 hmem).2.2
    · obtain ⟨-, hjhi, leaf', hleaf', rfl⟩ := mem_indices_iff.1 hj
      by_contra hge
      exact hpast leaf' hleaf' (by omega) hjhi

/-- What the turns take, one after another. -/
def reads (leaves : List Leaf) (hi : ℕ) : ℕ → ℕ → List Leaf
  | 0, _ => []
  | fuel + 1, lo =>
    if lo ≤ hi then
      leavesInRange leaves lo hi
        ++ reads leaves hi fuel (lo + ((leavesInRange leaves lo hi).length - 1) + 1)
    else []

theorem leavesInRange_mono {lo' : ℕ} (hle : lo ≤ lo') (hnil : leavesInRange leaves lo hi = []) :
    leavesInRange leaves lo' hi = [] := by
  rw [leavesInRange_eq_nil_iff] at hnil ⊢
  exact fun leaf hleaf hlo => hnil leaf hleaf (hle.trans hlo)

theorem reads_of_nil : ∀ (fuel : ℕ) {lo : ℕ}, leavesInRange leaves lo hi = [] →
    reads leaves hi fuel lo = []
  | 0, _, _ => rfl
  | fuel + 1, lo, hnil => by
    rw [reads]
    split_ifs
    · rw [hnil, reads_of_nil fuel (leavesInRange_mono (by omega) hnil)]
      rfl
    · rfl

theorem reads_eq_nil_iff {fuel : ℕ} (hfuel : hi < lo + fuel) :
    reads leaves hi fuel lo = [] ↔ leavesInRange leaves lo hi = [] := by
  refine ⟨fun hnil => ?_, reads_of_nil fuel⟩
  by_contra hne
  obtain ⟨leaf, hleaf⟩ := List.exists_mem_of_ne_nil _ hne
  obtain ⟨hlo, hhi, -⟩ := mem_indices_iff.1 (List.mem_map_of_mem hleaf)
  obtain ⟨fuel, rfl⟩ : ∃ n, fuel = n + 1 := ⟨fuel - 1, by omega⟩
  rw [reads, if_pos (by omega)] at hnil
  exact hne (List.append_eq_nil_iff.1 hnil).1

theorem reads_eq_iff (hle : lo ≤ hi) :
    reads leaves hi (hi + 1 - lo) lo = leavesInRange leaves lo hi ↔ Gapless leaves lo hi := by
  rw [show hi + 1 - lo = hi - lo + 1 by omega, reads, if_pos hle, List.append_right_eq_self,
    reads_eq_nil_iff (by omega), gapless_iff]
  rcases Nat.eq_zero_or_pos (leavesInRange leaves lo hi).length with hzero | hpos
  · have hnil := List.length_eq_zero_iff.1 hzero
    rw [hzero]
    exact iff_of_true (leavesInRange_mono (by omega) hnil) hnil
  · rw [show lo + ((leavesInRange leaves lo hi).length - 1) + 1
      = lo + (leavesInRange leaves lo hi).length by omega]

end InRange

/-! ## The store -/

section Store

variable {h : ℕ} {leaves : List Leaf} {d : TreeDoc}

theorem foldl_withLeaf_treeHeight : ∀ (leaves : List Leaf) (d : TreeDoc),
    (leaves.foldl withLeaf d).treeHeight = d.treeHeight
  | [], _ => rfl
  | leaf :: leaves, d => foldl_withLeaf_treeHeight leaves (withLeaf d leaf)

/-- What the calls leave at a node. -/
theorem entry_foldl_withLeaf (j : ℕ) : ∀ (leaves : List Leaf) (d : TreeDoc),
    (leaves.map Leaf.leafIndex).Nodup → entry (leaves.foldl withLeaf d).nodes j
      = ((leaves.find? fun leaf => leafIndexToNodeIndex d.treeHeight leaf.leafIndex = j).map
          Leaf.toNode).or (entry d.nodes j)
  | [], d, _ => rfl
  | leaf :: leaves, d, hdistinct => by
    obtain ⟨hnot, hdistinct⟩ := List.nodup_cons.1 hdistinct
    rw [List.foldl_cons, entry_foldl_withLeaf j leaves (withLeaf d leaf) hdistinct, List.find?_cons]
    have hset : entry (withLeaf d leaf).nodes j = _ := entry_setEntry _ _ _ _
    rw [hset]
    by_cases hj : leafIndexToNodeIndex d.treeHeight leaf.leafIndex = j
    · have hrest : leaves.find? (fun leaf' =>
          leafIndexToNodeIndex (withLeaf d leaf).treeHeight leaf'.leafIndex = j) = none := by
        refine List.find?_eq_none.2 fun leaf' hmem heq => hnot ?_
        have hidx : leaf'.leafIndex = leaf.leafIndex :=
          index_leaf_inj ((of_decide_eq_true heq).trans hj.symm)
        exact hidx ▸ List.mem_map_of_mem hmem
      rw [hrest, if_pos hj.symm]
      simp [hj]
    · rw [if_neg (Ne.symm hj), decide_eq_false hj]
      rfl

/-- The tree after the calls, from a document without nodes. -/
theorem entry_leaf (hd : d.nodes = []) (hdistinct : (leaves.map Leaf.leafIndex).Nodup) (i : ℕ) :
    entry (leaves.foldl withLeaf d).nodes (leafIndexToNodeIndex d.treeHeight i)
      = (leaves.find? fun leaf => leaf.leafIndex = i).map Leaf.toNode := by
  have hnone : ∀ j, entry ([] : List (Option Node)) j = none := fun j => rfl
  rw [entry_foldl_withLeaf _ _ _ hdistinct, hd, hnone, Option.or_none]
  congr 2
  funext leaf
  exact decide_eq_decide.2 ⟨index_leaf_inj, fun heq => heq ▸ rfl⟩

theorem leafIndex_of_entry (hd : d.nodes = []) (hdistinct : (leaves.map Leaf.leafIndex).Nodup)
    {j : ℕ} {node : Node} (hj : entry (leaves.foldl withLeaf d).nodes j = some node) :
    ∃ i, node.leafIndex = some i ∧ j = leafIndexToNodeIndex d.treeHeight i := by
  have hnone : ∀ j, entry ([] : List (Option Node)) j = none := fun j => rfl
  rw [entry_foldl_withLeaf _ _ _ hdistinct, hd, hnone, Option.or_none] at hj
  obtain ⟨leaf, hfind, rfl⟩ := Option.map_eq_some_iff.1 hj
  have hnode : leafIndexToNodeIndex d.treeHeight leaf.leafIndex = j := by
    simpa using List.find?_some hfind
  exact ⟨leaf.leafIndex, rfl, hnode.symm⟩

end Store

/-! ## A turn -/

section Turn

variable {α β : Type}

theorem filterMap_eq_range' (g : α → Option β) (F : ℕ → Option β) : ∀ (l : List α) (k : ℕ),
    (∀ j x, l[j]? = some x → g x = F (k + j)) →
      l.filterMap g = (List.range' k l.length).filterMap F
  | [], _, _ => rfl
  | x :: l, k, hg => by
    have ih := filterMap_eq_range' g F l (k + 1) fun j y hj => by
      rw [hg (j + 1) y (by simpa using hj), Nat.add_right_comm, Nat.add_assoc]
    rw [List.length_cons, List.range'_succ, List.filterMap_cons, List.filterMap_cons,
      hg 0 x rfl, ih, Nat.add_zero]

theorem filterMap_range'_of_none {F : ℕ → Option β} {a n : ℕ}
    (hnone : ∀ j, a ≤ j → j < a + n → F j = none) : (List.range' a n).filterMap F = [] :=
  List.filterMap_eq_nil_iff.2 fun j hj =>
    hnone j (List.mem_range'_1.1 hj).1 (List.mem_range'_1.1 hj).2

/-- Only the numbers of a window count. -/
theorem filterMap_range'_window {F : ℕ → Option β} {N a n : ℕ}
    (hout : ∀ j, j < a ∨ a + n ≤ j → F j = none) (hN : ∀ j, N ≤ j → F j = none) :
    (List.range' 0 N).filterMap F = (List.range' a n).filterMap F := by
  have hext : ∀ {M m : ℕ}, (∀ j, M ≤ j → F j = none) →
      (List.range' 0 (M + m)).filterMap F = (List.range' 0 M).filterMap F := by
    intro M m hM
    have htail : (List.range' (0 + M) m).filterMap F = [] :=
      filterMap_range'_of_none fun j hj _ => hM j (by omega)
    rw [← List.range'_append_1, List.filterMap_append, htail, List.append_nil]
  calc (List.range' 0 N).filterMap F = (List.range' 0 (N + (a + n))).filterMap F := (hext hN).symm
    _ = (List.range' 0 (a + n + N)).filterMap F := by rw [Nat.add_comm]
    _ = (List.range' 0 (a + n)).filterMap F := hext fun j hj => hout j (.inr hj)
    _ = (List.range' a n).filterMap F := by
      have hhead : (List.range' 0 a).filterMap F = [] :=
        filterMap_range'_of_none fun j _ hj => hout j (.inl (by omega))
      rw [← List.range'_append_1, List.filterMap_append, hhead, Nat.zero_add, List.nil_append]

end Turn

section Range

variable {a : Str} {leaves : List Leaf} {d : TreeDoc} {w : World} {hi : ℕ}

/-- What a turn takes at a node. -/
def takenAt (nodes : List (Option Node)) (lo hi j : ℕ) : Option Node :=
  (entry nodes j).filter fun node => node.leafIndex.any fun i => lo ≤ i && i ≤ hi

theorem leavesBetween_eq_takenAt (nodes : List (Option Node)) (lo hi : ℕ) :
    leavesBetween nodes lo hi
      = (List.range' 0 nodes.length).filterMap (takenAt nodes lo hi) := by
  refine filterMap_eq_range' _ _ _ 0 fun j node hj => ?_
  rw [Nat.zero_add, takenAt, entry_of_getElem? hj]

theorem takenAt_leaf (hd : d.nodes = []) (hdistinct : (leaves.map Leaf.leafIndex).Nodup)
    {lo i : ℕ} (hlo : lo ≤ i) (hhi : i ≤ hi) : takenAt (leaves.foldl withLeaf d).nodes lo hi
      (leafIndexToNodeIndex d.treeHeight i)
      = (leaves.find? fun leaf => leaf.leafIndex = i).map Leaf.toNode := by
  rw [takenAt, entry_leaf hd hdistinct]
  rcases hfind : leaves.find? fun leaf => leaf.leafIndex = i with _ | leaf
  · rw [hfind]
    rfl
  · have hidx : leaf.leafIndex = i := by simpa using List.find?_some hfind
    rw [hfind, Option.map_some, Option.filter_some, if_pos]
    simp [Leaf.toNode, hidx, hlo, hhi]

theorem takenAt_eq_none (hd : d.nodes = []) (hdistinct : (leaves.map Leaf.leafIndex).Nodup)
    {lo j : ℕ} (hj : ∀ i, lo ≤ i → i ≤ hi → j ≠ leafIndexToNodeIndex d.treeHeight i) :
    takenAt (leaves.foldl withLeaf d).nodes lo hi j = none := by
  rw [takenAt, Option.filter_eq_none_iff]
  intro node hentry htaken
  obtain ⟨i, hi, rfl⟩ := leafIndex_of_entry hd hdistinct hentry
  rw [hi, Option.any_some, Bool.and_eq_true, decide_eq_true_iff, decide_eq_true_iff] at htaken
  exact hj i htaken.1 htaken.2 rfl

/-- A turn takes the leaves of the range from its index on. -/
theorem leavesBetween_foldl (hd : d.nodes = []) (hdistinct : (leaves.map Leaf.leafIndex).Nodup)
    (lo hi : ℕ) : leavesBetween (leaves.foldl withLeaf d).nodes lo hi
      = (leavesInRange leaves lo hi).map Leaf.toNode := by
  have hwindow := filterMap_range'_window (F := takenAt (leaves.foldl withLeaf d).nodes lo hi)
    (N := (leaves.foldl withLeaf d).nodes.length) (a := 2 ^ d.treeHeight - 1 + lo)
    (n := hi + 1 - lo)
    (fun j hj => takenAt_eq_none hd hdistinct fun i hlo hhi heq => by
      rw [leafIndexToNodeIndex_eq, index_leaf] at heq
      omega)
    (fun j hj => by rw [takenAt, entry, List.getElem?_eq_none hj]; rfl)
  rw [leavesBetween_eq_takenAt, hwindow, ← List.map_add_range', List.filterMap_map, leavesInRange,
    List.map_filterMap]
  refine List.filterMap_congr fun i hmem => ?_
  obtain ⟨hlo, hlt⟩ := List.mem_range'_1.1 hmem
  have hleaf := takenAt_leaf hd hdistinct hlo (by omega : i ≤ hi)
  rwa [leafIndexToNodeIndex_eq, index_leaf] at hleaf

variable (hw : w.db.findOne (docId a 0) = some (leaves.foldl withLeaf d)) (hd : d.nodes = [])
  (hdistinct : (leaves.map Leaf.leafIndex).Nodup)

include hw hd hdistinct

/-- Where a turn reads the first document. -/
theorem leafIndexRangeLoop_turn {fuel lo : ℕ} (hle : lo ≤ hi)
    (hb : leafIndexToNodeIndex d.treeHeight lo < BUCKET_SIZE) (acc : List Node) :
    (leafIndexRangeLoop a d.treeHeight hi (fuel + 1) lo acc).run w
      = (leafIndexRangeLoop a d.treeHeight hi fuel
          (lo + ((leavesInRange leaves lo hi).length - 1) + 1)
          (acc ++ (leavesInRange leaves lo hi).map Leaf.toNode)).run w := by
  rw [leafIndexRangeLoop, if_pos hle]
  simp only [calculateBucket_eq hb]
  rw [run_findOne_deref, hw]
  simp only [leavesBetween_foldl hd hdistinct, List.length_map]

/-- The turns one after another. -/
theorem leafIndexRangeLoop_reads (hb : leafIndexToNodeIndex d.treeHeight hi < BUCKET_SIZE) :
    ∀ (fuel lo : ℕ) (acc : List Node),
      (leafIndexRangeLoop a d.treeHeight hi fuel lo acc).run w
        = (.ok (acc ++ (reads leaves hi fuel lo).map Leaf.toNode), w)
  | 0, lo, acc => by
    rw [reads, List.map_nil, List.append_nil]
    rfl
  | fuel + 1, lo, acc => by
    rw [reads]
    split_ifs with hle
    · have hlo : leafIndexToNodeIndex d.treeHeight lo < BUCKET_SIZE := by
        rw [leafIndexToNodeIndex_eq, index_leaf] at hb ⊢
        omega
      rw [leafIndexRangeLoop_turn hw hd hdistinct hle hlo,
        leafIndexRangeLoop_reads hb fuel, List.map_append, List.append_assoc]
    · rw [leafIndexRangeLoop_of_lt (by omega), List.map_nil, List.append_nil]
      rfl

/-- No turn steps over the end of the bucket, since all that is there to take is before it. -/
theorem leafIndexRangeLoop_missing (hbuckets : ∀ b, b ≠ 0 → w.db.findOne (docId a b) = none)
    (hbucket : ∀ leaf ∈ leaves, leafIndexToNodeIndex d.treeHeight leaf.leafIndex < BUCKET_SIZE)
    (hb : BUCKET_SIZE ≤ leafIndexToNodeIndex d.treeHeight hi) :
    ∀ (fuel lo : ℕ) (acc : List Node), lo ≤ hi → hi < lo + fuel →
      (leafIndexRangeLoop a d.treeHeight hi fuel lo acc).run w = (.error .typeError, w)
  | 0, lo, acc, hle, hfuel => by omega
  | fuel + 1, lo, acc, hle, hfuel => by
    rcases Nat.lt_or_ge (leafIndexToNodeIndex d.treeHeight lo) BUCKET_SIZE with hlt | hge
    · rw [leafIndexRangeLoop_turn hw hd hdistinct hle hlt]
      have hsub : (leavesInRange leaves lo hi).map Leaf.leafIndex
          ⊆ List.range' lo (BUCKET_SIZE - (2 ^ d.treeHeight - 1) - lo) := by
        intro i hi
        obtain ⟨hlo, -, leaf, hleaf, rfl⟩ := mem_indices_iff.1 hi
        have hnode := hbucket leaf hleaf
        rw [leafIndexToNodeIndex_eq, index_leaf] at hnode
        exact List.mem_range'_1.2 ⟨hlo, by omega⟩
      have hlen := (nodup_indices.subperm hsub).length_le
      rw [List.length_map, List.length_range'] at hlen
      have hend := hb
      rw [leafIndexToNodeIndex_eq, index_leaf] at hend hlt
      exact leafIndexRangeLoop_missing hbuckets hbucket hb fuel _ _ (by omega) (by omega)
    · rw [leafIndexRangeLoop, if_pos hle]
      simp only []
      rw [run_findOne_deref, hbuckets _ (calculateBucket_ne_zero hge)]

end Range

theorem toNode_injective : Function.Injective Leaf.toNode := by
  rintro ⟨hash, leafIndex, txHash, blockNumber⟩ ⟨hash', leafIndex', txHash', blockNumber'⟩ heq
  simpa [Leaf.toNode, and_comm, and_left_comm, and_assoc] using heq

/-- After `insertLeaf` of any leaves with nodes in the first bucket, a range is read as it should
be where its end is in that bucket too and no leaf is missing below another. -/
theorem getLeavesByLeafIndexRange_exact_iff {a : Str} {h : ℕ} {leaves : List Leaf} {w : World}
    {lo hi : ℕ} (hw : w.db.findOne (docId a 0) = some (trackedDoc a h))
    (hbuckets : ∀ b, b ≠ 0 → w.db.findOne (docId a b) = none)
    (hdistinct : (leaves.map Leaf.leafIndex).Nodup)
    (hbucket : ∀ leaf ∈ leaves, leafIndexToNodeIndex h leaf.leafIndex < BUCKET_SIZE)
    (hle : lo ≤ hi) :
    ∃ w', (insertEach a leaves).run w = (.ok (), w') ∧
      ((∃ result, IsRange leaves lo hi result ∧
          (getLeavesByLeafIndexRange a lo hi).run w' = (.ok (result.map Leaf.toNode), w')) ↔
        leafIndexToNodeIndex h hi < BUCKET_SIZE ∧ Gapless leaves lo hi) := by
  obtain ⟨w', hrun, he⟩ := insertEach_run leaves hw hbucket
  refine ⟨w', hrun, ?_⟩
  have hrange := isRange_leavesInRange hdistinct lo hi
  have hread : (getLeavesByLeafIndexRange a lo hi).run w'
      = (leafIndexRangeLoop a h hi (hi + 1 - lo) lo []).run w' := by
    unfold getLeavesByLeafIndexRange
    rw [run_findOne_deref, he.doc]
    simp only [foldl_withLeaf_treeHeight]
    rfl
  rw [hread]
  rcases Nat.lt_or_ge (leafIndexToNodeIndex h hi) BUCKET_SIZE with hb | hb
  · have hturns : (leafIndexRangeLoop a h hi (hi + 1 - lo) lo []).run w' = _ :=
      leafIndexRangeLoop_reads he.doc rfl hdistinct hb (hi + 1 - lo) lo []
    rw [hturns, List.nil_append]
    refine ⟨?_, fun ⟨_, hgap⟩ => ⟨_, hrange, by rw [(reads_eq_iff hle).2 hgap]⟩⟩
    rintro ⟨result, hresult, heq⟩
    obtain rfl := hresult.eq hrange
    have hmap := Except.ok.inj (congrArg Prod.fst heq)
    exact ⟨hb, (reads_eq_iff hle).1 (toNode_injective.list_map hmap)⟩
  · have hmissing : (leafIndexRangeLoop a h hi (hi + 1 - lo) lo []).run w' = _ :=
      leafIndexRangeLoop_missing he.doc rfl hdistinct
        (fun b hb0 => (he.others _ fun hid => hb0 (docId_inj hid)).trans (hbuckets b hb0))
        hbucket hb (hi + 1 - lo) lo [] hle (by omega)
    rw [hmissing]
    refine iff_of_false ?_ fun hboth => absurd hboth.1 (not_lt.2 hb)
    rintro ⟨result, -, heq⟩
    cases congrArg Prod.fst heq

def leafAt (leafIndex : ℕ) : Leaf where
  hash := hexlify (Bytes.fill 32 1)
  leafIndex := leafIndex
  txHash := []
  blockNumber := 1

theorem getLeavesByLeafIndexRange_exact_two :
    ∃ w', (insertEach [] [leafAt 1, leafAt 0]).run (trackedWorld [] 1) = (.ok (), w') ∧
      ∃ result, IsRange [leafAt 1, leafAt 0] 0 1 result ∧
        (getLeavesByLeafIndexRange [] 0 1).run w' = (.ok (result.map Leaf.toNode), w') := by
  have hdistinct : ([leafAt 1, leafAt 0].map Leaf.leafIndex).Nodup := by decide
  have hbucket : ∀ leaf ∈ [leafAt 1, leafAt 0],
      leafIndexToNodeIndex 1 leaf.leafIndex < BUCKET_SIZE := by decide
  obtain ⟨w', hrun, hiff⟩ :=
    getLeavesByLeafIndexRange_exact_iff (trackedWorld_doc [] 1)
      (fun b hb => trackedWorld_others [] 1 hb) hdistinct hbucket (Nat.zero_le 1)
  refine ⟨w', hrun, hiff.2 ⟨by decide, fun leaf hmem _ i _ hlt => ?_⟩⟩
  have hi : i < 1 := by
    rcases List.mem_cons.1 hmem with rfl | hmem
    · exact hlt
    · obtain rfl := List.mem_singleton.1 hmem
      exact absurd hlt (Nat.not_lt_zero i)
  exact ⟨leafAt 0, by simp, (Nat.lt_one_iff.1 hi).symm⟩

/-- A leaf whose neighbour is missing comes twice. -/
theorem getLeavesByLeafIndexRange_twice :
    ∃ w', (insertEach [] [leafAt 1]).run (trackedWorld [] 1) = (.ok (), w') ∧
      (getLeavesByLeafIndexRange [] 0 1).run w'
        = (.ok [(leafAt 1).toNode, (leafAt 1).toNode], w') ∧
      ∀ result, IsRange [leafAt 1] 0 1 result →
        result.map Leaf.toNode ≠ [(leafAt 1).toNode, (leafAt 1).toNode] := by
  refine ⟨_, rfl, rfl, fun result hresult heq => ?_⟩
  obtain rfl := hresult.eq (isRange_leavesInRange (by decide) 0 1)
  cases congrArg List.length heq

end CommitMgr

end Baseline
