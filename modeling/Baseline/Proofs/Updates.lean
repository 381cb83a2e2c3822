import Baseline.Proofs.Handlers
import Baseline.Proofs.Session

/-!
# Updates while leaves arrive

An update reads which leaf is the latest, then the leaves, and records the leaf that is the latest
when it reads that again. If it is still the same one, and all leaves up to it are stored, the
update hashes exactly these (`updateTree_safe`). So the record is right at any time of a run in
which handlers do not write where an update or another handler counts on what it has read
(`updates_recorded`).
-/

namespace Baseline

open Await HashTree

namespace CommitMgr

/-! ## The discipline -/

/-- The document between any two accesses: only leaves that are there count as stored, and the
record is right. -/
structure Current (sha256 : List UInt8 → Bytes 32) (h : ℕ) (logs : List Log) (d : TreeDoc) :
    Prop extends LeafRow h logs d where
  marked : ∀ k, d.latestLeaf.leafIndex = some k →
    k < logs.length ∧ ∀ p log, p ≤ k → logs[p]? = some log → Stored h d p log
  numbered : d.latestLeaf.blockNumber ≠ none → d.latestLeaf.leafIndex ≠ none
  record : Recorded sha256 h logs d.latestRecalculation

/-- The row of leaves. -/
def rowAt (a : Str) (h : ℕ) (w : World) (p : ℕ) : Option Node := entryAt a w (index h 0 p)

/-- Who writes `nodes` counts on the leaves read before, and an update on the latest leaf until it
has read it again. -/
def treeDiscipline (sha256 : List UInt8 → Bytes 32) (a : Str) (h : ℕ) (logs : List Log) :
    Discipline AwaitPoint World where
  inv w := ∃ d, w.db.findOne (docId a 0) = some d ∧ Current sha256 h logs d
  pre l w := ∀ p < logs.length, l.marks p → rowAt a h w p = logs[p]?.map fun log => log.leaf.toNode
  fits l m := ¬ (l.isLeafNodes ∧ m.isNodes) ∧ ¬ (l.isLatestLeaf ∧ m.isBetweenReads)
  rely l w w' := (l.isNodes → rowAt a h w' = rowAt a h w) ∧
    (l.isBetweenReads → latestLeafAt a w' = latestLeafAt a w)
  guar l w w' := (¬ l.isLeafNodes → rowAt a h w' = rowAt a h w) ∧
    (¬ l.isLatestLeaf → latestLeafAt a w' = latestLeafAt a w)
  rely_refl _ _ := ⟨fun _ => rfl, fun _ => rfl⟩
  rely_trans h₁ h₂ :=
    ⟨fun hl => (h₂.1 hl).trans (h₁.1 hl), fun hl => (h₂.2 hl).trans (h₁.2 hl)⟩
  rely_of_guar hfits hg :=
    ⟨fun hm => hg.1 fun hl => hfits.1 ⟨hl, hm⟩, fun hm => hg.2 fun hl => hfits.2 ⟨hl, hm⟩⟩

section Discipline

variable {sha256 : List UInt8 → Bytes 32} {a : Str} {h : ℕ} {logs : List Log} {d : TreeDoc}
  {w : World}

theorem treeDiscipline_guar_refl (l : AwaitPoint) (w : World) :
    (treeDiscipline sha256 a h logs).guar l w w := ⟨fun _ => rfl, fun _ => rfl⟩

theorem rowAt_eq (hd : w.db.findOne (docId a 0) = some d) (p : ℕ) :
    rowAt a h w p = entry d.nodes (index h 0 p) := entryAt_eq hd _

/-! ## Handlers -/

/-- A leaf is written into nodes whose leaves are still those of the document. -/
theorem Current.setLeaf (hd : Current sha256 h logs d) {nodes : List (Option Node)}
    (hinner : ∀ j node, j < 2 ^ h - 1 → entry nodes j = some node → node.leafIndex = none)
    (hrow : ∀ p, entry nodes (index h 0 p) = entry d.nodes (index h 0 p)) {i : ℕ} {log : Log}
    (hi : logs[i]? = some log) :
    Current sha256 h logs { d with nodes := setEntry nodes (index h 0 i) log.leaf.toNode } := by
  refine ⟨hd.toLeafRow.setLeaf hinner hrow hi, fun k hk => ?_, hd.numbered, hd.record⟩
  obtain ⟨hlt, hstored⟩ := hd.marked k hk
  refine ⟨hlt, fun p log' hp hlog' => ?_⟩
  rw [Stored, entry_setEntry_leaf, hrow]
  split_ifs with hpi
  · rw [hpi, hi] at hlog'
    rw [Option.some.inj hlog']
  · exact hstored p log' hp hlog'

theorem onNewLeaf_tree_safe (ho : InOrder logs) {i : ℕ} {log : Log} (hi : logs[i]? = some log)
    (hb : index h 0 i < BUCKET_SIZE) (w : World) :
    (treeDiscipline sha256 a h logs).Safe (fun _ _ => True) (onNewLeaf a log) w := by
  have hindex : log.leaf.leafIndex = i := ho i log hi
  unfold onNewLeaf insertLeaf
  refine safe_findOne_deref fun w₁ _ hi₁ _ => ⟨treeDiscipline_guar_refl _ _, ?_⟩
  obtain ⟨d₁, hd₁, hc₁⟩ := hi₁
  refine ⟨d₁, hd₁, ?_⟩
  simp only [hc₁.treeHeight, hindex, leafIndexToNodeIndex_eq]
  rw [calculateBucket_eq hb]
  refine safe_findOne_deref fun w₂ _ hi₂ _ => ⟨treeDiscipline_guar_refl _ _, ?_⟩
  obtain ⟨d₂, hd₂, hc₂⟩ := hi₂
  refine ⟨d₂, hd₂, ?_⟩
  refine safe_updateOne fun w₃ hr₃ hi₃ _ => ?_
  obtain ⟨d₃, hd₃, hc₃⟩ := hi₃
  have hrow : ∀ p, entry d₂.nodes (index h 0 p) = entry d₃.nodes (index h 0 p) := by
    intro p
    have hsame := congrFun (hr₃.1 rfl) p
    rw [rowAt_eq hd₂, rowAt_eq hd₃] at hsame
    exact hsame.symm
  have hd₃' := findOne_updated hd₃
    { nodes := some (setEntry d₂.nodes (index h 0 i) log.leaf.toNode) }
  refine ⟨⟨_, hd₃', hc₃.setLeaf hc₂.inner hrow hi⟩, ⟨fun hl => absurd rfl hl, fun _ => ?_⟩, ?_⟩
  · rw [latestLeafAt_eq hd₃', latestLeafAt_eq hd₃]
    rfl
  intro w₄ _ hi₄ hp₄
  obtain ⟨d₄, hd₄, hc₄⟩ := hi₄
  have hd₄' := findOne_updated hd₄ { latestLeaf := some ⟨some log.leaf.blockNumber, some i⟩ }
  refine ⟨⟨_, hd₄', ⟨hc₄.treeHeight, hc₄.inner, hc₄.leaf⟩, fun k hk => ?_,
    fun _ => Option.some_ne_none _, hc₄.record⟩,
    ⟨fun _ => ?_, fun hl => absurd rfl hl⟩, trivial⟩
  · obtain rfl : i = k := Option.some.inj hk
    refine ⟨(List.getElem?_eq_some_iff.1 hi).1, fun p log' hp hlog' => ?_⟩
    have hin := hp₄ p (List.getElem?_eq_some_iff.1 hlog').1 (by simpa [AwaitPoint.marks] using hp)
    rw [rowAt_eq hd₄, hlog'] at hin
    exact hin
  · funext p
    rw [rowAt_eq hd₄', rowAt_eq hd₄]
    rfl

/-! ## Updates -/

theorem latestLeaf_of_rely {w' : World} {l : AwaitPoint} {latest : LatestLeaf}
    (hr : (treeDiscipline sha256 a h logs).rely l w w') (hl : l.isBetweenReads)
    (hw : latestLeafAt a w = some latest) (hd : w'.db.findOne (docId a 0) = some d) :
    d.latestLeaf = latest := by
  have hsame := hr.2 hl
  rw [hw, latestLeafAt_eq hd] at hsame
  exact Option.some.inj hsame

/-- While the latest leaf stays the same, all leaves up to it are found. -/
theorem range_safe (ho : InOrder logs) (hfit : logs.length ≤ fit h) {latest : LatestLeaf}
    (hw : latestLeafAt a w = some latest) {n k : ℕ} (hk : latest.leafIndex = some k) (hn : n ≤ k) :
    (treeDiscipline sha256 a h logs).Safe
      (fun r v => r = .ok (((logs.take (k + 1)).drop n).map fun log => log.leaf.toNode) ∧
        latestLeafAt a v = some latest) (getLeavesByLeafIndexRange a n k) w := by
  obtain ⟨m, hm⟩ : ∃ m, k + 1 - n = m + 1 := ⟨k - n, by omega⟩
  unfold getLeavesByLeafIndexRange
  refine safe_findOne_deref fun w₁ hr₁ hi₁ _ => ⟨treeDiscipline_guar_refl _ _, ?_⟩
  obtain ⟨d₁, hd₁, hc₁⟩ := hi₁
  have hlatest₁ := latestLeaf_of_rely hr₁ rfl hw hd₁
  obtain ⟨hlt, -⟩ := hc₁.marked k (by rw [hlatest₁, hk])
  have hb : index h 0 n < BUCKET_SIZE := index_lt_bucket_iff.2 (by omega)
  refine ⟨d₁, hd₁, ?_⟩
  simp only [hm, leafIndexRangeLoop, if_pos hn, hc₁.treeHeight, leafIndexToNodeIndex_eq,
    calculateBucket_eq hb]
  refine safe_findOne_deref fun w₂ hr₂ hi₂ _ => ⟨treeDiscipline_guar_refl _ _, ?_⟩
  obtain ⟨d₂, hd₂, hc₂⟩ := hi₂
  have hlatest₂ := latestLeaf_of_rely hr₂ rfl (hlatest₁ ▸ latestLeafAt_eq hd₁) hd₂
  obtain ⟨-, hstored⟩ := hc₂.marked k (by rw [hlatest₂, hk])
  refine ⟨d₂, hd₂, ?_⟩
  simp only [leavesBetween_eq hc₂.toLeafRow ho fun p log _ hp hlog => hstored p log hp hlog,
    List.length_map, length_range hlt]
  rw [leafIndexRangeLoop_of_lt (by omega)]
  exact ⟨rfl, hlatest₂ ▸ latestLeafAt_eq hd₂⟩

/-- An inner node is written into nodes whose leaves are still those of the document. -/
theorem Current.setInner (hd : Current sha256 h logs d) {nodes : List (Option Node)}
    (hinner : ∀ j node, j < 2 ^ h - 1 → entry nodes j = some node → node.leafIndex = none)
    (hrow : ∀ p, entry nodes (index h 0 p) = entry d.nodes (index h 0 p)) {j : ℕ}
    (hj : j < 2 ^ h - 1) (hash : Str) :
    Current sha256 h logs { d with nodes := setEntry nodes j (hashNode hash) } ∧
      ∀ p, entry (setEntry nodes j (hashNode hash)) (index h 0 p)
        = entry d.nodes (index h 0 p) := by
  have hsame : ∀ p, entry (setEntry nodes j (hashNode hash)) (index h 0 p)
      = entry d.nodes (index h 0 p) := by
    intro p
    rw [entry_setEntry_ne _ _ (by rw [index_leaf]; omega), hrow]
  refine ⟨⟨⟨hd.treeHeight, fun i node hi hnode => ?_, fun p node hnode => ?_⟩, fun k hk => ?_,
    hd.numbered, hd.record⟩, hsame⟩
  · rw [entry_setEntry] at hnode
    split_ifs at hnode
    · rw [← Option.some.inj hnode]
      rfl
    · exact hinner i node hi hnode
  · exact hd.leaf p node ((hsame p).symm.trans hnode)
  · obtain ⟨hlt, hstored⟩ := hd.marked k hk
    exact ⟨hlt, fun p log hp hlog => (hsame p).trans (hstored p log hp hlog)⟩

theorem storeNode_safe {j : ℕ} (hj : j < 2 ^ h - 1) (hb : 2 ^ h - 1 < BUCKET_SIZE) (hash : Str)
    (w : World) :
    (treeDiscipline sha256 a h logs).Safe (fun r _ => r = .ok ()) (storeNode a j hash) w := by
  unfold storeNode
  rw [calculateBucket_eq (hj.trans hb), Nat.mod_eq_of_lt (hj.trans hb)]
  refine safe_findOne_deref fun w₁ _ hi₁ _ => ⟨treeDiscipline_guar_refl _ _, ?_⟩
  obtain ⟨d₁, hd₁, hc₁⟩ := hi₁
  refine ⟨d₁, hd₁, ?_⟩
  intro w₂ hr₂ hi₂ _
  obtain ⟨d₂, hd₂, hc₂⟩ := hi₂
  have hrow : ∀ p, entry d₁.nodes (index h 0 p) = entry d₂.nodes (index h 0 p) := by
    intro p
    have hsame := congrFun (hr₂.1 rfl) p
    rw [rowAt_eq hd₁, rowAt_eq hd₂] at hsame
    exact hsame.symm
  obtain ⟨hnew, hsame⟩ := hc₂.setInner hc₁.inner hrow hj hash
  have hd₂' := findOne_updated hd₂ { nodes := some (setEntry d₁.nodes j (hashNode hash)) }
  refine ⟨⟨_, hd₂', hnew⟩, ⟨fun _ => ?_, fun _ => ?_⟩, rfl⟩
  · funext p
    exact ((rowAt_eq hd₂' p).trans (hsame p)).trans (rowAt_eq hd₂ p).symm
  · exact (latestLeafAt_eq hd₂').trans (latestLeafAt_eq hd₂).symm

theorem storeNodes_safe (hb : 2 ^ h - 1 < BUCKET_SIZE) : ∀ (ws : List (ℕ × Str)) (w : World),
    (∀ x ∈ ws, x.1 < 2 ^ h - 1) →
      (treeDiscipline sha256 a h logs).Safe (fun r _ => r = .ok ()) (storeNodes a ws) w
  | [], _, _ => rfl
  | (j, hash) :: ws, w, hws => by
    refine Discipline.Safe.bind (fun _ v _ => ?_) (fun _ _ hv => by cases hv)
      (storeNode_safe (hws (j, hash) List.mem_cons_self) hb hash w)
    exact storeNodes_safe hb ws v fun x hx => hws x (List.mem_cons_of_mem _ hx)

variable (sha256) in
/-- The record an update writes. -/
theorem recorded_upTo {k : ℕ} (hk : k < logs.length) (b : Option ℕ) {frontier : List (Option Str)}
    (hf : FrontierOf (treeScheme sha256) h (values (logs.take (k + 1))) frontier) :
    Recorded sha256 h logs ⟨b, some k,
      some (hexlify ((treeScheme sha256).root (values (logs.take (k + 1))) h)), frontier⟩ where
  le := hk
  frontier := hf
  root _ := rfl

theorem updateNodes_safe (hh : 1 ≤ h) (hfit : logs.length ≤ fit h) (hsize : logs.length ≤ 2 ^ h)
    {latest : LatestLeaf} (hw : latestLeafAt a w = some latest) {n k : ℕ}
    (hk : latest.leafIndex = some k) (hn : n ≤ k) (hlt : k < logs.length)
    {frontier : List (Option Str)}
    (hf : FrontierOf (treeScheme sha256) h (values (logs.take n)) frontier) :
    (treeDiscipline sha256 a h logs).Safe (fun _ _ => True) (updateNodes sha256 a frontier
      ((((logs.take (k + 1)).drop n).map fun log => log.leaf.toNode).map Node.hash) n) w := by
  have htake : (logs.take (k + 1)).length = k + 1 := by
    rw [List.length_take, Nat.min_eq_left (by omega)]
  have hf₀ : FrontierOf (treeScheme sha256) h (values ((logs.take (k + 1)).take n)) frontier := by
    rwa [List.take_take, Nat.min_eq_left (by omega)]
  unfold updateNodes
  refine safe_findOne_deref fun w₁ hr₁ hi₁ _ => ⟨treeDiscipline_guar_refl _ _, ?_⟩
  obtain ⟨d₁, hd₁, hc₁⟩ := hi₁
  have hlatest := latestLeaf_of_rely hr₁ rfl hw hd₁
  refine ⟨d₁, hd₁, ?_⟩
  have hn' : n < (logs.take (k + 1)).length := by omega
  rw [updateNodesFrom_logs a hh (height_le (by omega)) hc₁.treeHeight hn' (by omega) hf₀, htake]
  refine Discipline.Safe.bind (fun _ v _ => ?_) (fun _ _ hv => by cases hv)
    (storeNodes_safe (inner_lt_bucket (by omega)) _ w₁ fun x hx =>
      allWrites_lt (by omega) (by omega) hx)
  refine safe_updateOne fun w₂ _ hi₂ _ => ?_
  obtain ⟨d₂, hd₂, hc₂⟩ := hi₂
  have hd₂' := findOne_updated hd₂ { latestRecalculation := some (LatestRecalculation.mk
    d₁.latestLeaf.blockNumber d₁.latestLeaf.leafIndex
    (some (hexlify ((treeScheme sha256).root (values (logs.take (k + 1))) h)))
    (nextFrontier sha256 h (logs.take (k + 1)) n frontier)) }
  refine ⟨⟨_, hd₂', ⟨hc₂.treeHeight, hc₂.inner, hc₂.leaf⟩, hc₂.marked, hc₂.numbered, ?_⟩,
    ⟨fun _ => ?_, fun _ => ?_⟩, trivial⟩
  · have hrec := recorded_upTo sha256 hlt d₁.latestLeaf.blockNumber (frontierOf_next hf₀)
    rw [← hk, ← hlatest] at hrec
    exact hrec
  · funext p
    exact (rowAt_eq hd₂' p).trans (rowAt_eq hd₂ p).symm
  · exact (latestLeafAt_eq hd₂').trans (latestLeafAt_eq hd₂).symm

variable (sha256 a) in
theorem updateTree_safe (hh : 1 ≤ h) (ho : InOrder logs) (hfit : logs.length ≤ fit h)
    (hsize : logs.length ≤ 2 ^ h) (w : World) :
    (treeDiscipline sha256 a h logs).Safe (fun _ _ => True) (updateTree sha256 a) w := by
  unfold updateTree
  refine safe_findOne_deref fun w₁ _ hi₁ _ => ⟨treeDiscipline_guar_refl _ _, ?_⟩
  obtain ⟨d, hd, hc⟩ := hi₁
  refine ⟨d, hd, ?_⟩
  simp only []
  split_ifs with hblock hle
  · trivial
  · obtain ⟨k, hk⟩ : ∃ k, d.latestLeaf.leafIndex = some k :=
      Option.ne_none_iff_exists'.1 (hc.numbered fun hnone => hblock (by rw [hnone]; rfl))
    rw [hk, Option.getD_some] at hle ⊢
    have hlt := (hc.marked k hk).1
    refine Discipline.Safe.bind (fun leaves v hv => ?_) (fun _ _ _ => trivial)
      (range_safe ho hfit (latestLeafAt_eq hd) hk hle)
    rw [Except.ok.inj hv.1]
    exact updateNodes_safe hh hfit hsize hv.2 hk hle hlt hc.record.frontier
  · trivial

end Discipline

/-! ## Any order of accesses -/

section Traffic

variable {sha256 : List UInt8 → Bytes 32} {a : Str} {h : ℕ} {logs : List Log}

theorem allows_of_treeApart {s : Calls × List Log} {i : ℕ}
    (hs : TreeApart a h logs s (.serve i)) :
    (treeDiscipline sha256 a h logs).Allows (fun _ _ => True) s.1 i := by
  obtain ⟨hnodes, hlatest, hmarks⟩ := hs
  intro l hl
  rw [hl] at hnodes hlatest hmarks
  refine ⟨hmarks, fun j p hj hp => ⟨fun m hm => ?_, fun _ => trivial⟩⟩
  have hjm : s.1.pointOf j = some m := by rw [Pool.pointOf, hp, Option.bind_some, hm]
  have hlt := (List.getElem?_eq_some_iff.1 hp).1
  refine ⟨fun hlm => hnodes hlm.1 j hlt hj ?_, fun hlm => hlatest hlm.1 j hlt ?_⟩
  · rw [hjm]
    exact hlm.2
  · rw [hjm]
    exact hlm.2

/-- Every call keeps the discipline, and the events still to come are the last ones. -/
structure InTraffic (sha256 : List UInt8 → Bytes 32) (a : Str) (h : ℕ) (logs : List Log)
    (s : Calls × List Log) : Prop where
  kept : (treeDiscipline sha256 a h logs).Kept (fun _ _ _ => True) s.1
  coming : ∃ k, s.2 = logs.drop k

theorem inTraffic_advance (hh : 1 ≤ h) (ho : InOrder logs) (hfit : logs.length ≤ fit h)
    (hsize : logs.length ≤ 2 ^ h) (s : Calls × List Log) (e : TreeEvent)
    (hs : InTraffic sha256 a h logs s) (he : TreeApart a h logs s e) :
    InTraffic sha256 a h logs (advance a sha256 s e) := by
  obtain ⟨P, rest⟩ := s
  obtain ⟨hkept, k, hk⟩ := hs
  have hone : ∀ {p : Js Unit}, (∀ w, (treeDiscipline sha256 a h logs).Safe (fun _ _ => True) p w) →
      (treeDiscipline sha256 a h logs).Kept (fun _ _ _ => True) (P.spawn [p]) := by
    intro p hp
    refine hkept.spawn fun j q hq => ?_
    rw [List.mem_singleton.1 (List.mem_of_getElem? hq)]
    exact hp _
  cases e with
  | arrive =>
    rcases rest with _ | ⟨log, rest⟩
    · exact ⟨hkept, k, hk⟩
    · have hlog : logs[k]? = some log := by
        rw [← List.head?_drop, ← show log :: rest = logs.drop k from hk, List.head?_cons]
      have hlt := (List.getElem?_eq_some_iff.1 hlog).1
      refine ⟨hone fun w => onNewLeaf_tree_safe ho hlog (index_lt_bucket_iff.2 (by omega)) w,
        k + 1, ?_⟩
      rw [← List.tail_drop, ← show log :: rest = logs.drop k from hk, List.tail_cons]
      rfl
  | updateTree =>
    refine ⟨hone fun w => ?_, k, hk⟩
    have hsafe := updateTree_safe sha256 a hh ho hfit hsize w
    refine Discipline.Safe.bind ?_ ?_ hsafe <;> exact fun _ _ _ => trivial
  | serve i =>
    exact ⟨hkept.step (fun _ _ _ _ _ _ _ _ => trivial) (allows_of_treeApart he), k, hk⟩

theorem current_tracked (a : Str) (h : ℕ) : Current sha256 h logs (trackedDoc a h) where
  treeHeight := rfl
  inner j node _ hj := by cases hj
  leaf p node hp := by cases hp
  marked k hk := by cases hk
  numbered hne := absurd rfl hne
  record := by
    refine ⟨Nat.zero_le _, ?_, fun h0 => absurd rfl h0⟩
    change FrontierOf _ h (values (logs.take 0)) _
    rw [List.take_zero]
    exact frontierOf_nil _ _

theorem length_le_fit (ho : InOrder logs)
    (hb : ∀ log ∈ logs, leafIndexToNodeIndex h log.event.leafIndex < BUCKET_SIZE) :
    logs.length ≤ fit h := by
  rcases Nat.eq_zero_or_pos logs.length with h0 | hpos
  · omega
  · have hlast := List.getElem?_eq_getElem (show logs.length - 1 < logs.length by omega)
    have hlt := hb _ (List.mem_of_getElem? hlast)
    rw [ho _ _ hlast, leafIndexToNodeIndex_eq, index_lt_bucket_iff] at hlt
    omega

end Traffic

/-- Whatever leaves arrive and updates are called, in any order of their accesses: if handlers do
not write where others count on what they have read, a record is at any time the root and the
frontier of exactly the leaves up to the one it names. -/
theorem updates_recorded (sha256 : List UInt8 → Bytes 32) {h : ℕ} (hh : 1 ≤ h)
    (contractAddress : Str) {w : World}
    (hw : w.db.findOne (docId contractAddress 0) = some (trackedDoc contractAddress h))
    {logs : List Log} (ho : InOrder logs) (hsize : logs.length ≤ 2 ^ h)
    (hb : ∀ log ∈ logs, leafIndexToNodeIndex h log.event.leafIndex < BUCKET_SIZE)
    {events : List TreeEvent} (hA : Along (advance contractAddress sha256)
      (TreeApart contractAddress h logs) (quiet w, logs) events) :
    let w' := (events.foldl (advance contractAddress sha256) (quiet w, logs)).1.state
    ∃ d, w'.db.findOne (docId contractAddress 0) = some d ∧
      ∀ k, d.latestRecalculation.leafIndex = some k → k < logs.length ∧
        d.latestRecalculation.root
          = some (hexlify ((treeScheme sha256).root (values (logs.take (k + 1))) h)) ∧
        FrontierOf (treeScheme sha256) h (values (logs.take (k + 1)))
          d.latestRecalculation.frontier := by
  intro w'
  have hstart : InTraffic sha256 contractAddress h logs (quiet w, logs) :=
    ⟨⟨⟨_, hw, current_tracked contractAddress h⟩, fun i p hp => by cases hp⟩, 0, rfl⟩
  have hend := hA.run (inTraffic_advance hh ho (length_le_fit ho hb) hsize) hstart
  obtain ⟨d, hd, hc⟩ := hend.kept.inv
  refine ⟨d, hd, fun k hk => ?_⟩
  have hrec : recorded d.latestRecalculation = k + 1 := by rw [recorded, hk, Option.elim_some]
  have hle := hc.record.le
  have hfrontier := hc.record.frontier
  have hroot := hc.record.root (by omega)
  rw [hrec] at hle hfrontier hroot
  exact ⟨hle, hroot, hfrontier⟩

/-- A leaf, and an update after it. -/
theorem updates_recorded_one :
    let logs : List Log := [⟨⟨[], ⟨0, Bytes.fill 32 1, Bytes.zeros 32⟩, []⟩, 1⟩]
    let events : List TreeEvent :=
      .arrive :: List.replicate 4 (.serve 0) ++ .updateTree :: List.replicate 7 (.serve 1)
    ∃ d, (events.foldl (advance [] Sha256.digest)
        (quiet (trackedWorld [] 1), logs)).1.state.db.findOne (docId [] 0) = some d ∧
      d.latestRecalculation.leafIndex = some 0 ∧
      d.latestRecalculation.root
        = some (hexlify ((treeScheme Sha256.digest).root [Bytes.fill 27 1] 1)) := by
  intro logs events
  have hw := trackedWorld_doc [] 1
  have hA : Along (advance [] Sha256.digest) (TreeApart [] 1 logs) (quiet (trackedWorld [] 1), logs)
      events := by decide +kernel
  obtain ⟨d, h1, h2⟩ :=
    updates_recorded Sha256.digest le_rfl [] hw (by decide) (by decide) (by decide) hA
  have hk : ((events.foldl (advance [] Sha256.digest)
      (quiet (trackedWorld [] 1), logs)).1.state.db.findOne (docId [] 0)).map
        (fun d => d.latestRecalculation.leafIndex) = some (some 0) := by decide +kernel
  have h0 : d.latestRecalculation.leafIndex = some 0 := by
    rw [h1] at hk
    exact Option.some.inj hk
  exact ⟨d, h1, h0, (h2 0 h0).2.1⟩

/-- Leaf `1` arrives between the two reads of an update that hashes leaf `0` only. -/
theorem updates_recorded_wrong :
    let logs : List Log := [⟨⟨[], ⟨0, Bytes.fill 32 1, Bytes.zeros 32⟩, []⟩, 1⟩,
      ⟨⟨[], ⟨1, Bytes.fill 32 2, Bytes.zeros 32⟩, []⟩, 1⟩]
    let events : List TreeEvent :=
      .arrive :: List.replicate 4 (.serve 0) ++ .updateTree :: List.replicate 3 (.serve 1) ++
        .arrive :: List.replicate 4 (.serve 2) ++ List.replicate 4 (.serve 1)
    let P := (events.foldl (advance [] Sha256.digest) (quiet (trackedWorld [] 1), logs)).1
    P.Ended ∧ ((P.state.db.findOne (docId [] 0)).map fun d =>
        (d.latestRecalculation.leafIndex, d.latestRecalculation.root))
      = some (some 1, some (hexlify ((treeScheme Sha256.digest).root (values (logs.take 1)) 1))) ∧
      (treeScheme Sha256.digest).root (values (logs.take 1)) 1
        ≠ (treeScheme Sha256.digest).root (values logs) 1 := by
  decide +kernel

end CommitMgr

end Baseline
