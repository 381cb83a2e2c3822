import Baseline.Proofs.Scan
import Baseline.Proofs.Verify

/-!
# Leaves past the first bucket

Documents of later buckets are read and written but never created. So of a tree that was just
tracked the leaves whose nodes are in the first bucket are stored and found again, by their index
(`getLeafByLeafIndex_of_placed`) and as the first sibling of the leaf beside
(`getSiblingPathByLeafIndex_of_entry`), and the handler of any other leaf fails.
-/

namespace Baseline

open Await HashTree

namespace CommitMgr

/-- Every leaf is at the node of its index. -/
def Placed (d : TreeDoc) : Prop :=
  ∀ j node i, entry d.nodes j = some node → node.leafIndex = some i →
    j = leafIndexToNodeIndex d.treeHeight i

section Placed

variable {a : Str} {d : TreeDoc} {w : World} {i : ℕ}

theorem placed_trackedDoc (a : Str) (h : ℕ) : Placed (trackedDoc a h) := by
  intro j node i hj
  cases hj

theorem placed_withLeaves (hd : Placed d) (logs : List Log) : Placed (withLeaves d logs) := by
  intro j node i hj hi
  rw [withLeaves_treeHeight]
  rcases entry_withLeaves_cases logs d hj with ⟨log, -, rfl, rfl⟩ | hold
  · have : log.event.leafIndex = i := Option.some.inj hi
    rw [leafNode, this]
  · exact hd j node i hold hi

theorem getLeafByLeafIndex_of_placed (hw : w.db.findOne (docId a 0) = some d) (hd : Placed d)
    (hb : leafIndexToNodeIndex d.treeHeight i < BUCKET_SIZE) {node : Node}
    (hi : entry d.nodes (leafIndexToNodeIndex d.treeHeight i) = some node)
    (hnode : node.leafIndex = some i) : (getLeafByLeafIndex a i).run w = (.ok node, w) := by
  have hfound : (d.nodes.filterMap fun node =>
      node.filter fun node => node.leafIndex = some i) = [node] := by
    refine filterMap_window _ _ (leafIndexToNodeIndex d.treeHeight i) _ (fun k x hk => ?_)
      fun j b hj hjs => ?_
    · obtain ⟨hk0, rfl⟩ : k = 0 ∧ node = x := by
        obtain ⟨hlt, hx⟩ := List.getElem?_eq_some_iff.1 hk
        rw [List.length_singleton] at hlt
        exact ⟨by omega, by rw [← hx, List.getElem_singleton]⟩
      subst hk0
      exact ⟨_, getElem?_of_entry hi, by rw [Option.filter_some, if_pos (by simp [hnode])]⟩
    · have hentry := entry_of_getElem? hj
      rcases b with _ | x
      · rfl
      · rw [Option.filter_some, if_neg]
        intro hx
        have := hd j x i hentry (by simpa using hx)
        rw [List.length_singleton] at hjs
        omega
  rw [getLeafByLeafIndex_run hw hb, hfound]
  rfl

theorem beside_beside (p : ℕ) : beside (beside p) = p := by
  unfold beside
  split_ifs <;> omega

/-- The neighbour's path starts with the leaf. -/
theorem getSiblingPathByLeafIndex_of_entry (hw : w.db.findOne (docId a 0) = some d)
    (hh : 1 ≤ d.treeHeight) (hi : i < 2 ^ d.treeHeight)
    (hb : leafIndexToNodeIndex d.treeHeight i < BUCKET_SIZE) {node : Node}
    (hentry : entry d.nodes (leafIndexToNodeIndex d.treeHeight i) = some node) :
    ∃ first rest, (getSiblingPathByLeafIndex a (beside i)).run w = (.ok (first :: rest), w) ∧
      first.hash = node.hash := by
  obtain ⟨h, hh'⟩ : ∃ h, d.treeHeight = h + 1 := ⟨d.treeHeight - 1, by omega⟩
  rw [hh'] at hi hb hentry
  rw [leafIndexToNodeIndex_eq] at hb hentry
  have hk : beside i < 2 ^ (h + 1) := beside_lt (l := 0) (Nat.succ_pos h) hi
  have hpath := getSiblingPathByLeafIndex_run hw hh' hk fun l hl => by
    rcases Nat.eq_zero_or_pos l with rfl | hpos
    · rwa [pow_zero, Nat.div_one, beside_beside]
    · have hq : beside i / 2 ^ l < 2 ^ (h + 1 - l) := by
        rw [Nat.div_lt_iff_lt_mul (by positivity), ← pow_add, Nat.sub_add_cancel hl.le]
        exact hk
      have hinner := index_le_of_le hpos hl.le (beside_lt hl hq)
      rw [index_leaf] at hb
      omega
  rw [List.range'_succ, List.map_cons, List.cons_append, pow_zero, Nat.div_one,
    beside_beside] at hpath
  exact ⟨_, _, hpath, by rw [siblingOf, hentry]⟩

end Placed

/-! ## A new tree -/

section NewTree

variable {a : Str} {w : World}

/-- The world after the first scan of a contract whose leaves all fit. -/
theorem baseline_track_run (hnew : ∀ b, w.db.findOne (docId a b) = none) (hrpc : w.rpc = .ok)
    (hws : w.get_ws_provider.ws_provider.isSome) (hh : w.heights a ≠ 0)
    (hb : ∀ log ∈ World.getLogs a 0 w, leafNode (w.heights a) log < BUCKET_SIZE) :
    ∃ w₁, (baseline_track a).run w = (.ok ⟨none, some true⟩, w₁) ∧
      w₁.db.findOne (docId a 0)
        = some (withLeaves (trackedDoc a (w.heights a)) (World.getLogs a 0 w)) ∧
      ∀ b, b ≠ 0 → w₁.db.findOne (docId a b) = none := by
  obtain ⟨listeners, hlisten⟩ := Option.isSome_iff_exists.1 hws
  obtain ⟨v, h1, he⟩ := insertLogs_run (World.getLogs a 0 w) (withTree_doc (hnew 0)) hb
  have hlisten' : v.get_ws_provider.ws_provider = some listeners := by
    rw [World.get_ws_provider, he.wsUp, he.ws_provider]
    exact hlisten
  refine ⟨{ v.get_ws_provider with ws_provider := some (listeners ++ [a]) }, ?_, he.doc,
    fun b hb0 => ?_⟩
  · rw [run_baseline_track (by simp [hnew 0]) hrpc hh, Proc.run_bind_ok h1,
      Proc.run_bind_ok (run_subscribeMerkleEvents hlisten')]
    rfl
  · calc v.db.findOne (docId a b) = (withTree a w).db.findOne (docId a b) :=
        he.others _ fun hid => hb0 (docId_inj hid)
      _ = none := by rw [withTree_others hb0, hnew b]

theorem baseline_track_error (hnew : ∀ b, w.db.findOne (docId a b) = none) (hrpc : w.rpc = .ok)
    (hh : w.heights a ≠ 0)
    (hb : ∃ log ∈ World.getLogs a 0 w, BUCKET_SIZE ≤ leafNode (w.heights a) log) :
    ((baseline_track a).run w).1 = .error .typeError := by
  have herr := insertLogs_run_error _ (withTree_doc (hnew 0))
    (fun b hb0 => by rw [withTree_others hb0, hnew b]) hb
  rw [run_baseline_track (by simp [hnew 0]) hrpc hh]
  rcases hrun : (insertLogs a (World.getLogs a 0 w)).run (withTree a w) with ⟨r, v⟩
  rw [hrun] at herr
  subst herr
  rw [Proc.run_bind_error hrun]

/-- Stored leaves are found both ways. -/
theorem found_of_mem {logs : List Log} {d : TreeDoc} (hw : w.db.findOne (docId a 0) = some d)
    {h : ℕ} (hh : 1 ≤ h) (hd : d = withLeaves (trackedDoc a h) logs) (hinc : Increasing logs)
    {log : Log} (hmem : log ∈ logs) (hlt : log.event.leafIndex < 2 ^ h)
    (hb : leafNode h log < BUCKET_SIZE) :
    (getLeafByLeafIndex a log.event.leafIndex).run w = (.ok log.leaf.toNode, w) ∧
      ∃ first rest, (getSiblingPathByLeafIndex a (beside log.event.leafIndex)).run w
        = (.ok (first :: rest), w) ∧ first.hash = some log.leaf.hash := by
  have hheight : d.treeHeight = h := by rw [hd, withLeaves_treeHeight]; rfl
  have hplaced : Placed d := hd ▸ placed_withLeaves (placed_trackedDoc a h) logs
  have hentry : entry d.nodes (leafIndexToNodeIndex d.treeHeight log.event.leafIndex)
      = some log.leaf.toNode := by
    rw [hheight, hd]
    exact entry_withLeaves logs (trackedDoc a h) hinc log hmem
  have hb' : leafIndexToNodeIndex d.treeHeight log.event.leafIndex < BUCKET_SIZE := by
    rw [hheight]
    exact hb
  exact ⟨getLeafByLeafIndex_of_placed hw hplaced hb' hentry rfl,
    getSiblingPathByLeafIndex_of_entry hw (hheight ▸ hh) (hheight ▸ hlt) hb' hentry⟩

end NewTree

/-- A contract is tracked that the service does not know. Whatever leaves it has by then and gets
later, in order, they are all stored and found exactly if their nodes are in the first bucket. -/
theorem leaves_found_iff (contractAddress : Str) {w : World}
    (hnew : ∀ b, w.db.findOne (docId contractAddress b) = none) (hrpc : w.rpc = .ok)
    (hws : w.get_ws_provider.ws_provider.isSome) (hh : 1 ≤ w.heights contractAddress)
    (later : List Log) (hinc : Increasing (World.getLogs contractAddress 0 w ++ later))
    (hlt : ∀ log ∈ World.getLogs contractAddress 0 w ++ later,
      log.event.leafIndex < 2 ^ w.heights contractAddress) :
    (∃ w₁ w₂, (baseline_track contractAddress).run w = (.ok ⟨none, some true⟩, w₁) ∧
      (insertLogs contractAddress later).run w₁ = (.ok (), w₂) ∧
      ∀ log ∈ World.getLogs contractAddress 0 w ++ later,
        (getLeafByLeafIndex contractAddress log.event.leafIndex).run w₂
          = (.ok log.leaf.toNode, w₂) ∧
        ∃ first rest,
          (getSiblingPathByLeafIndex contractAddress (beside log.event.leafIndex)).run w₂
            = (.ok (first :: rest), w₂) ∧ first.hash = some log.leaf.hash)
    ↔ ∀ log ∈ World.getLogs contractAddress 0 w ++ later,
        leafIndexToNodeIndex (w.heights contractAddress) log.event.leafIndex < BUCKET_SIZE := by
  have hh0 : w.heights contractAddress ≠ 0 := by omega
  constructor
  · rintro ⟨w₁, w₂, h1, h2, -⟩
    by_contra hpast
    obtain ⟨log, hmem, hge⟩ : ∃ log ∈ World.getLogs contractAddress 0 w ++ later,
        BUCKET_SIZE ≤ leafNode (w.heights contractAddress) log := by
      simpa only [not_forall, not_lt, exists_prop, leafNode] using hpast
    by_cases hearly : ∃ log ∈ World.getLogs contractAddress 0 w,
        BUCKET_SIZE ≤ leafNode (w.heights contractAddress) log
    · have herr := baseline_track_error hnew hrpc hh0 hearly
      rw [h1] at herr
      cases herr
    · have hfit : ∀ log ∈ World.getLogs contractAddress 0 w,
          leafNode (w.heights contractAddress) log < BUCKET_SIZE := by
        simpa only [not_exists, not_and, not_le] using hearly
      obtain ⟨w₁', h1', hdoc, hnone⟩ := baseline_track_run hnew hrpc hws hh0 hfit
      obtain rfl : w₁' = w₁ := congrArg Prod.snd (h1'.symm.trans h1)
      have hlater : log ∈ later := (List.mem_append.1 hmem).resolve_left fun hmem' =>
        hearly ⟨log, hmem', hge⟩
      have herr := insertLogs_run_error later hdoc hnone
        ⟨log, hlater, by rw [withLeaves_treeHeight]; exact hge⟩
      rw [h2] at herr
      cases herr
  · intro hfit
    obtain ⟨w₁, h1, hdoc, -⟩ := baseline_track_run hnew hrpc hws hh0
      fun log hmem => hfit log (List.mem_append_left _ hmem)
    obtain ⟨w₂, h2, he⟩ := insertLogs_run later hdoc fun log hmem => by
      rw [withLeaves_treeHeight]
      exact hfit log (List.mem_append_right _ hmem)
    refine ⟨w₁, w₂, h1, h2, fun log hmem => ?_⟩
    exact found_of_mem he.doc hh (withLeaves_append _ _ _).symm hinc hmem (hlt log hmem)
      (hfit log hmem)

/-- A contract of height two gets its third leaf first. -/
theorem leaves_found_third :
    let log : Log := ⟨⟨[], ⟨2, Bytes.fill 32 7, Bytes.zeros 32⟩, []⟩, 5⟩
    ∃ w₁ w₂, (baseline_track []).run (newWorld 2) = (.ok ⟨none, some true⟩, w₁) ∧
      (insertLogs [] [log]).run w₁ = (.ok (), w₂) ∧
      (getLeafByLeafIndex [] 2).run w₂ = (.ok log.leaf.toNode, w₂) := by
  intro log
  obtain ⟨w₁, w₂, h1, h2, h3⟩ := (leaves_found_iff [] (w := newWorld 2) (fun _ => rfl) rfl rfl
    (by decide) [log] (List.pairwise_singleton _ log) (by decide)).2 (by decide)
  exact ⟨w₁, w₂, h1, h2, (h3 log (List.mem_singleton_self log)).1⟩

/-- In a tree of height fifteen not even the first leaf is in the first bucket. -/
theorem leaves_found_fifteen :
    ((insertLogs [] [⟨⟨[], ⟨0, Bytes.fill 32 7, Bytes.zeros 32⟩, []⟩, 5⟩]).run
      ((baseline_track []).run (newWorld 15)).2).1 = .error .typeError := by
  decide +kernel

end CommitMgr

end Baseline
