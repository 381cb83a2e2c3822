import Baseline.Proofs.UpdateNodes

/-!
# The row of leaves

A tree's document holds leaves at the nodes of the last row and hashes above them (`LeafRow`), so
reading a range of leaf indices that are all stored gives exactly those leaves
(`leavesBetween_eq`), and a range that goes on past them too (`getLeavesByLeafIndexRange_run`).
-/

namespace Baseline

open Await HashTree

namespace CommitMgr

/-! ## Leaves of a contract -/

/-- The logs are those of leaves `0`, `1`, `2` and so on. -/
def InOrder (logs : List Log) : Prop :=
  ∀ (p : ℕ) (log : Log), logs[p]? = some log → log.event.leafIndex = p

instance (logs : List Log) : Decidable (InOrder logs) :=
  decidable_of_iff (∀ p : Fin logs.length, logs[p].event.leafIndex = p) <| by
    refine ⟨fun h p log hp => ?_, fun h p => h p _ (List.getElem?_eq_getElem p.2)⟩
    obtain ⟨hlt, rfl⟩ := List.getElem?_eq_some_iff.1 hp
    exact h ⟨p, hlt⟩

/-- The values that are hashed for the leaves of some logs. -/
def values (logs : List Log) : List (Bytes 27) := logs.map fun log => log.event.leafValue.low27

@[simp] theorem length_values (logs : List Log) : (values logs).length = logs.length :=
  List.length_map _

theorem InOrder.take {logs : List Log} (h : InOrder logs) (n : ℕ) : InOrder (logs.take n) := by
  intro p log hp
  rw [List.getElem?_take] at hp
  split_ifs at hp
  exact h p log hp

theorem InOrder.concat {logs : List Log} (h : InOrder logs) {log : Log}
    (hi : log.event.leafIndex = logs.length) : InOrder (logs ++ [log]) := by
  intro p log' hp
  rw [List.getElem?_append] at hp
  split_ifs at hp with hlt
  · exact h p log' hp
  · obtain ⟨h0, hlog⟩ := List.getElem?_eq_some_iff.1 hp
    rw [List.length_singleton] at h0
    rw [← hlog, List.getElem_singleton, hi]
    omega

/-! ## A document's leaves -/

/-- Leaf `p` of the tree is that of the log. -/
def Stored (h : ℕ) (d : TreeDoc) (p : ℕ) (log : Log) : Prop :=
  entry d.nodes (index h 0 p) = some log.leaf.toNode

instance (h : ℕ) (d : TreeDoc) (p : ℕ) (log : Log) : Decidable (Stored h d p log) :=
  inferInstanceAs (Decidable (_ = _))

/-- The last row holds leaves of the logs, each at its index, and the rows above hold none. -/
structure LeafRow (h : ℕ) (logs : List Log) (d : TreeDoc) : Prop where
  treeHeight : d.treeHeight = h
  inner : ∀ j node, j < 2 ^ h - 1 → entry d.nodes j = some node → node.leafIndex = none
  leaf : ∀ p node, entry d.nodes (index h 0 p) = some node →
    ∃ log, logs[p]? = some log ∧ node = log.leaf.toNode

theorem filterMap_window {β γ : Type} (g : β → Option γ) :
    ∀ (l : List β) (s : ℕ) (xs : List γ),
      (∀ i x, xs[i]? = some x → ∃ b, l[s + i]? = some b ∧ g b = some x) →
      (∀ j b, l[j]? = some b → j < s ∨ s + xs.length ≤ j → g b = none) → l.filterMap g = xs
  | [], s, [], _, _ => rfl
  | [], s, x :: xs, hin, _ => by
    obtain ⟨b, hb, -⟩ := hin 0 x rfl
    cases hb
  | b :: l, s + 1, xs, hin, hout => by
    have hb : g b = none := hout 0 b rfl (by omega)
    rw [List.filterMap_cons, hb]
    refine filterMap_window g l s xs (fun i x hi => ?_) fun j c hj hjs =>
      hout (j + 1) c (by simpa using hj) (by omega)
    obtain ⟨c, hc, hgc⟩ := hin i x hi
    exact ⟨c, by rwa [show s + 1 + i = s + i + 1 by omega, List.getElem?_cons_succ] at hc, hgc⟩
  | b :: l, 0, [], _, hout => by
    have hb : g b = none := hout 0 b rfl (by simp)
    rw [List.filterMap_cons, hb]
    exact filterMap_window g l 0 [] (by simp) fun j c hj _ =>
      hout (j + 1) c (by simpa using hj) (by simp)
  | b :: l, 0, x :: xs, hin, hout => by
    obtain ⟨c, hc, hgc⟩ := hin 0 x rfl
    simp only [Nat.add_zero, List.getElem?_cons_zero, Option.some.injEq] at hc
    rw [List.filterMap_cons, hc, hgc]
    refine congrArg _ (filterMap_window g l 0 xs (fun i y hi => ?_) fun j e hj hjs =>
      hout (j + 1) e (by simpa using hj) (by simp only [List.length_cons]; omega))
    obtain ⟨e, he, hge⟩ := hin (i + 1) y (by simpa using hi)
    exact ⟨e, by simpa [show 0 + (i + 1) = i + 1 by omega] using he, hge⟩

theorem entry_of_getElem? {α : Type} {a : List (Option α)} {i : ℕ} {x : Option α}
    (h : a[i]? = some x) : entry a i = x := by rw [entry, h, Option.join_some]

theorem getElem?_of_entry {α : Type} {a : List (Option α)} {i : ℕ} {x : α}
    (h : entry a i = some x) : a[i]? = some (some x) := by
  rw [entry] at h
  exact Option.join_eq_some_iff.1 h

theorem index_leaf (h p : ℕ) : index h 0 p = (2 ^ h - 1) + p := by
  have : 0 < 2 ^ h := by positivity
  simp only [index, Nat.sub_zero]
  omega

theorem index_leaf_inj {h p q : ℕ} (hpq : index h 0 p = index h 0 q) : p = q := by
  rw [index_leaf, index_leaf] at hpq
  omega

theorem entry_setEntry_leaf {α : Type} (nodes : List (Option α)) (x : α) (h i p : ℕ) :
    entry (setEntry nodes (index h 0 i) x) (index h 0 p)
      = if p = i then some x else entry nodes (index h 0 p) := by
  rw [entry_setEntry]
  exact if_congr ⟨index_leaf_inj, fun hp => hp ▸ rfl⟩ rfl rfl

theorem LeafRow.append {h : ℕ} {logs : List Log} {d : TreeDoc} (hd : LeafRow h logs d)
    (more : List Log) : LeafRow h (logs ++ more) d where
  treeHeight := hd.treeHeight
  inner := hd.inner
  leaf p node hp := by
    obtain ⟨log, hlog, rfl⟩ := hd.leaf p node hp
    have hlt := (List.getElem?_eq_some_iff.1 hlog).1
    exact ⟨log, by rw [List.getElem?_append_left hlt]; exact hlog, rfl⟩

/-- A leaf is written into nodes whose leaves are still those of the document. -/
theorem LeafRow.setLeaf {h : ℕ} {logs : List Log} {d : TreeDoc} (hd : LeafRow h logs d)
    {nodes : List (Option Node)}
    (hinner : ∀ j node, j < 2 ^ h - 1 → entry nodes j = some node → node.leafIndex = none)
    (hrow : ∀ p, entry nodes (index h 0 p) = entry d.nodes (index h 0 p)) {i : ℕ} {log : Log}
    (hi : logs[i]? = some log) :
    LeafRow h logs { d with nodes := setEntry nodes (index h 0 i) log.leaf.toNode } where
  treeHeight := hd.treeHeight
  inner j node hj hnode := by
    rw [entry_setEntry_ne _ _ (by rw [index_leaf]; omega)] at hnode
    exact hinner j node hj hnode
  leaf p node hnode := by
    rw [entry_setEntry_leaf] at hnode
    split_ifs at hnode with hp
    · exact ⟨log, hp ▸ hi, (Option.some.inj hnode).symm⟩
    · exact hd.leaf p node (hrow p ▸ hnode)

/-- Among stored leaves, a range of leaf indices is those leaves in order. -/
theorem leavesBetween_eq {h : ℕ} {logs : List Log} {d : TreeDoc} (hd : LeafRow h logs d)
    (ho : InOrder logs) {lo hi : ℕ}
    (hs : ∀ p log, lo ≤ p → p ≤ hi → logs[p]? = some log → Stored h d p log) :
    leavesBetween d.nodes lo hi
      = ((logs.take (hi + 1)).drop lo).map fun log => log.leaf.toNode := by
  refine filterMap_window _ _ (2 ^ h - 1 + lo) _ (fun i x hx => ?_) fun j node hj hjs => ?_
  · simp only [List.getElem?_map, List.getElem?_drop, Option.map_eq_some_iff] at hx
    obtain ⟨log, hlog, rfl⟩ := hx
    rw [List.getElem?_take] at hlog
    split_ifs at hlog with hle
    have hst := hs (lo + i) log (by omega) (by omega) hlog
    rw [Stored, index_leaf, ← Nat.add_assoc] at hst
    refine ⟨_, getElem?_of_entry hst, ?_⟩
    have hidx : log.leaf.toNode.leafIndex = some (lo + i) := congrArg some (ho _ _ hlog)
    rw [Option.filter_some, hidx, Option.any_some, if_pos]
    simp
    omega
  · have hentry := entry_of_getElem? hj
    rcases node with _ | node
    · rfl
    · rw [List.length_map, List.length_drop, List.length_take] at hjs
      rw [Option.filter_some, if_neg]
      rcases Nat.lt_or_ge j (2 ^ h - 1) with hlt | hge
      · rw [hd.inner j node hlt hentry]
        simp
      · obtain ⟨p, rfl⟩ := Nat.exists_eq_add_of_le hge
        rw [← index_leaf] at hentry
        obtain ⟨log, hlog, rfl⟩ := hd.leaf p node hentry
        have hidx : log.leaf.toNode.leafIndex = some p := congrArg some (ho _ _ hlog)
        have hlt := (List.getElem?_eq_some_iff.1 hlog).1
        rw [hidx]
        simp
        omega

/-! ## Reading a range -/

section Range

variable {a : Str} {h : ℕ} {logs : List Log} {d : TreeDoc} {w : World}

/-- Once every leaf of the range is read, the loop ends. -/
theorem leafIndexRangeLoop_of_lt {treeHeight maxIndex leafIndex : ℕ} (hlt : maxIndex < leafIndex)
    (fuel : ℕ) (leaves : List Node) :
    leafIndexRangeLoop a treeHeight maxIndex fuel leafIndex leaves = .ret leaves := by
  cases fuel with
  | zero => rfl
  | succ fuel => rw [leafIndexRangeLoop, if_neg (by omega)]; rfl

theorem length_range {lo hi : ℕ} (hhi : hi < logs.length) :
    ((logs.take (hi + 1)).drop lo).length = hi + 1 - lo := by
  rw [List.length_drop, List.length_take, Nat.min_eq_left (by omega)]

/-- A turn reads all stored leaves up to the last index, and from there on there are none. -/
theorem leafIndexRangeLoop_run (hw : w.db.findOne (docId a 0) = some d) (hd : LeafRow h logs d)
    (ho : InOrder logs) {hi : ℕ} (hb : index h 0 hi < BUCKET_SIZE)
    (hs : ∀ p log, p ≤ hi → logs[p]? = some log → Stored h d p log) :
    ∀ (fuel lo : ℕ) (leaves : List Node), hi + 1 - lo ≤ fuel →
      (leafIndexRangeLoop a h hi fuel lo leaves).run w
        = (.ok (leaves ++ ((logs.take (hi + 1)).drop lo).map fun log => log.leaf.toNode), w)
  | 0, lo, leaves, hfuel => by
    rw [List.drop_of_length_le (by rw [List.length_take]; omega), List.map_nil, List.append_nil]
    rfl
  | fuel + 1, lo, leaves, hfuel => by
    by_cases hlo : lo ≤ hi
    · have hbucket : index h 0 lo < BUCKET_SIZE := by
        rw [index_leaf] at hb ⊢
        omega
      obtain ⟨found, hfound⟩ : ∃ found, (logs.take (hi + 1)).drop lo = found := ⟨_, rfl⟩
      rw [leafIndexRangeLoop, if_pos hlo]
      simp only [leafIndexToNodeIndex_eq, calculateBucket_eq hbucket]
      rw [run_findOne_deref, hw]
      simp only [leavesBetween_eq hd ho fun p log _ hp hlog => hs p log hp hlog, hfound,
        List.length_map]
      rw [leafIndexRangeLoop_run hw hd ho hb hs fuel _ _ (by omega)]
      have hrest : (logs.take (hi + 1)).drop (lo + (found.length - 1) + 1) = [] := by
        have hlen := congrArg List.length hfound
        rw [List.length_drop] at hlen
        exact List.drop_of_length_le (by omega)
      rw [hrest, List.map_nil, List.append_nil]
    · rw [leafIndexRangeLoop_of_lt (by omega), List.drop_of_length_le
        (by rw [List.length_take]; omega), List.map_nil, List.append_nil]
      rfl

theorem getLeavesByLeafIndexRange_run (hw : w.db.findOne (docId a 0) = some d)
    (hd : LeafRow h logs d) (ho : InOrder logs) (lo hi : ℕ) (hb : index h 0 hi < BUCKET_SIZE)
    (hs : ∀ p log, p ≤ hi → logs[p]? = some log → Stored h d p log) :
    (getLeavesByLeafIndexRange a lo hi).run w
      = (.ok (((logs.take (hi + 1)).drop lo).map fun log => log.leaf.toNode), w) := by
  unfold getLeavesByLeafIndexRange
  rw [run_findOne_deref, hw]
  simp only [hd.treeHeight]
  rw [leafIndexRangeLoop_run hw hd ho hb hs _ _ _ le_rfl, List.nil_append]

end Range

end CommitMgr

end Baseline
