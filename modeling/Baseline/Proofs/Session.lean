import Baseline.Proofs.MerkleTreeSHA256
import Baseline.Proofs.Nodes
import Baseline.Session

/-!
# Off chain follows on chain

Between runs a tree's document is `Consistent`: its leaves are the contract's, its record is the
root and frontier of the leaves up to some point, and its inner nodes are those of the tree over
these leaves. A leaf extends the row (`consistent_withLeaf`), an update moves the record to the
last leaf (`updateTree_run`), and since the contract keeps the same tree, `updateTree` returns the
contract's root (`updateTree_latestRoot`).
-/

namespace Baseline

open Await HashTree

namespace CommitMgr

/-! ## The record -/

/-- The number of leaves a recalculation covers. -/
def recorded (r : LatestRecalculation) : ℕ := r.leafIndex.elim 0 (· + 1)

/-- The record is the root and the frontier of the leaves it covers. -/
structure Recorded (sha256 : List UInt8 → Bytes 32) (h : ℕ) (logs : List Log)
    (r : LatestRecalculation) : Prop where
  le : recorded r ≤ logs.length
  frontier : FrontierOf (treeScheme sha256) h (values (logs.take (recorded r))) r.frontier
  root : recorded r ≠ 0 →
    r.root = some (hexlify ((treeScheme sha256).root (values (logs.take (recorded r))) h))

theorem Recorded.append {sha256 : List UInt8 → Bytes 32} {h : ℕ} {logs : List Log}
    {r : LatestRecalculation} (hr : Recorded sha256 h logs r) (more : List Log) :
    Recorded sha256 h (logs ++ more) r := by
  have htake : (logs ++ more).take (recorded r) = logs.take (recorded r) :=
    List.take_append_of_le_length hr.le
  refine ⟨hr.le.trans (by simp), ?_, fun h0 => ?_⟩
  · rw [htake]
    exact hr.frontier
  · rw [htake]
    exact hr.root h0

/-! ## Consistency -/

/-- The pointer to the last leaf. -/
def latestLeafOf (logs : List Log) : LatestLeaf where
  blockNumber := logs.getLast?.map fun log => log.blockNumber
  leafIndex := logs.getLast?.map fun log => log.event.leafIndex

structure Consistent (sha256 : List UInt8 → Bytes 32) (h : ℕ) (logs : List Log) (d : TreeDoc) :
    Prop extends LeafRow h logs d where
  inOrder : InOrder logs
  blocks : ∀ log ∈ logs, 1 ≤ log.blockNumber
  size : logs.length ≤ 2 ^ h
  stored : ∀ p log, logs[p]? = some log → Stored h d p log
  latestLeaf : d.latestLeaf = latestLeafOf logs
  record : Recorded sha256 h logs d.latestRecalculation
  hashed : Hashed sha256 h (values (logs.take (recorded d.latestRecalculation))) d

section Consistent

variable {sha256 : List UInt8 → Bytes 32} {a : Str} {h : ℕ} {logs : List Log} {d : TreeDoc}

theorem consistent_tracked (a : Str) (h : ℕ) : Consistent sha256 h [] (trackedDoc a h) where
  treeHeight := rfl
  inner j node _ hj := by cases hj
  leaf p node hp := by cases hp
  inOrder p log hp := by cases hp
  blocks log hlog := by cases hlog
  size := Nat.zero_le _
  stored p log hp := by cases hp
  latestLeaf := rfl
  record := ⟨le_rfl, frontierOf_nil _ _, fun h0 => absurd rfl h0⟩
  hashed := by
    refine ⟨fun l p _ _ _ => ?_, rfl⟩
    simp [trackedDoc, TreeUpdate.apply, TreeDoc.default, entry, values]

/-! A leaf that is added at the end of a row. -/

section WithLeaf

variable {log : Log} (hd : LeafRow h logs d) (hi : log.event.leafIndex = logs.length)
include hd hi

theorem withLeaf_nodes :
    (withLeaf d log.leaf).nodes = setEntry d.nodes (index h 0 logs.length) log.leaf.toNode := by
  simp only [withLeaf, hd.treeHeight, leafIndexToNodeIndex_eq, Log.leaf, hi]

theorem inner_withLeaf {j : ℕ} (hj : j < 2 ^ h - 1) :
    entry (withLeaf d log.leaf).nodes j = entry d.nodes j := by
  rw [withLeaf_nodes hd hi, entry_setEntry_ne _ _ (by rw [index_leaf]; omega)]

theorem leafRow_withLeaf : LeafRow h (logs ++ [log]) (withLeaf d log.leaf) := by
  have hset := (hd.append [log]).setLeaf hd.inner (fun _ => rfl) (List.getElem?_concat_length)
  have hnodes := withLeaf_nodes hd hi
  exact ⟨hset.treeHeight, hnodes ▸ hset.inner, hnodes ▸ hset.leaf⟩

theorem stored_withLeaf (hs : ∀ p log', logs[p]? = some log' → Stored h d p log') {p : ℕ}
    {log' : Log} (hp : (logs ++ [log])[p]? = some log') :
    Stored h (withLeaf d log.leaf) p log' := by
  rw [Stored, withLeaf_nodes hd hi, entry_setEntry_leaf]
  rcases lt_trichotomy p logs.length with hlt | rfl | hgt
  · rw [List.getElem?_append_left hlt] at hp
    rw [if_neg hlt.ne]
    exact hs p log' hp
  · rw [List.getElem?_concat_length] at hp
    rw [if_pos rfl, Option.some.inj hp]
  · rw [List.getElem?_eq_none (by simp; omega)] at hp
    cases hp

end WithLeaf

/-! Nodes that are written above a row. -/

section Written

variable {d' : TreeDoc} {us : List (ℕ × Str)} (hd : LeafRow h logs d)
  (hn : d'.nodes = written d.nodes us) (hus : ∀ x ∈ us, x.1 < 2 ^ h - 1)
include hn hus

theorem leaf_written (p : ℕ) : entry d'.nodes (index h 0 p) = entry d.nodes (index h 0 p) := by
  rw [hn, entry_written_of_ge (by rw [index_leaf]; omega) _ _ hus]

include hd in
theorem leafRow_written (ht : d'.treeHeight = h) : LeafRow h logs d' where
  treeHeight := ht
  inner j node hj hnode := by
    rw [hn] at hnode
    rcases entry_written_cases _ _ hnode with ⟨hash, rfl⟩ | hold
    · rfl
    · exact hd.inner j node hj hold
  leaf p node hnode := by
    rw [leaf_written hn hus] at hnode
    exact hd.leaf p node hnode

end Written

theorem latestLeaf_withLeaf (d : TreeDoc) (logs : List Log) (log : Log) :
    (withLeaf d log.leaf).latestLeaf = latestLeafOf (logs ++ [log]) := by
  simp [withLeaf, latestLeafOf, Log.leaf]

theorem consistent_withLeaf (hh : 1 ≤ h) (hd : Consistent sha256 h logs d) {log : Log}
    (hi : log.event.leafIndex = logs.length) (hb : 1 ≤ log.blockNumber)
    (hn : logs.length < 2 ^ h) :
    Consistent sha256 h (logs ++ [log]) (withLeaf d log.leaf) := by
  have hpow : 2 ≤ 2 ^ h := by
    calc 2 = 2 ^ 1 := rfl
      _ ≤ 2 ^ h := Nat.pow_le_pow_right (by norm_num) hh
  have hlow := fun j => inner_withLeaf hd.toLeafRow hi (j := j)
  have htake : (logs ++ [log]).take (recorded d.latestRecalculation)
      = logs.take (recorded d.latestRecalculation) :=
    List.take_append_of_le_length hd.record.le
  refine ⟨leafRow_withLeaf hd.toLeafRow hi, hd.inOrder.concat hi, ?_, by simp; omega,
    fun p log' => stored_withLeaf hd.toLeafRow hi hd.stored, latestLeaf_withLeaf d logs log,
    hd.record.append [log], ?_, ?_⟩
  · intro log' hlog'
    rcases List.mem_append.1 hlog' with hmem | hmem
    · exact hd.blocks log' hmem
    · rw [List.mem_singleton.1 hmem]
      exact hb
  · intro l p hl hlh hp
    rw [hlow _ (index_le_of_le hl hlh.le hp)]
    rw [show (withLeaf d log.leaf).latestRecalculation = d.latestRecalculation from rfl, htake]
    exact hd.hashed.node l p hl hlh hp
  · rw [hlow 0 (by omega)]
    rw [show (withLeaf d log.leaf).latestRecalculation = d.latestRecalculation from rfl, htake]
    exact hd.hashed.root

end Consistent

/-! ## Runs -/

section Runs

variable {sha256 : List UInt8 → Bytes 32} {a : Str} {h : ℕ} {logs : List Log} {d : TreeDoc}
  {w : World}

theorem storeNode_run (hw : w.db.findOne (docId a 0) = some d) {j : ℕ} (hj : j < BUCKET_SIZE)
    (hash : Str) : ∃ w', (storeNode a j hash).run w = (.ok (), w') ∧
      Evolves a { d with nodes := setEntry d.nodes j (hashNode hash) } w w' := by
  refine ⟨_, ?_, Evolves.updateOne hw { nodes := some (setEntry d.nodes j (hashNode hash)) }⟩
  have hrun := storeNode_run_bucket (by rwa [calculateBucket_eq hj]) hash
  rwa [calculateBucket_eq hj, Nat.mod_eq_of_lt hj] at hrun

theorem storeNodes_run : ∀ (ws : List (ℕ × Str)) {d : TreeDoc} {w : World},
    w.db.findOne (docId a 0) = some d → (∀ x ∈ ws, x.1 < BUCKET_SIZE) →
      ∃ w', (storeNodes a ws).run w = (.ok (), w') ∧
        Evolves a { d with nodes := written d.nodes ws } w w'
  | [], d, w, hw, _ => ⟨w, rfl, Evolves.refl hw⟩
  | (j, hash) :: ws, d, w, hw, hlt => by
    obtain ⟨w₁, h1, he₁⟩ := storeNode_run hw (hlt (j, hash) List.mem_cons_self) hash
    obtain ⟨w₂, h2, he₂⟩ :=
      storeNodes_run ws he₁.doc fun x hx => hlt x (List.mem_cons_of_mem _ hx)
    refine ⟨w₂, ?_, he₁.trans he₂⟩
    rw [storeNodes, Proc.run_bind_ok h1]
    exact h2

theorem height_le (hfit : 0 < fit h) : h ≤ 30 := by
  by_contra hlt
  have h1 : 2 ^ 31 ≤ 2 ^ h := Nat.pow_le_pow_right (by norm_num) (by omega)
  unfold fit BUCKET_SIZE at hfit
  omega

theorem index_lt_bucket_iff {p : ℕ} : index h 0 p < BUCKET_SIZE ↔ p < fit h := by
  have hpos : 0 < 2 ^ h := by positivity
  rw [index_leaf, fit]
  omega

/-- Where a leaf is in the first bucket, all inner nodes are. -/
theorem inner_lt_bucket (hfit : 0 < fit h) : 2 ^ h - 1 < BUCKET_SIZE := by
  have h0 := index_lt_bucket_iff.2 hfit
  rwa [index_leaf, Nat.add_zero] at h0

/-- In a tree whose nodes are all in the first bucket, every leaf is. -/
theorem le_fit (hb : 2 ^ (h + 1) - 1 ≤ BUCKET_SIZE) : 2 ^ h ≤ fit h := by
  rw [pow_succ] at hb
  unfold fit
  omega

theorem latestLeafOf_ne_nil (ho : InOrder logs) (hne : logs ≠ []) :
    ∃ log ∈ logs, latestLeafOf logs = ⟨some log.blockNumber, some (logs.length - 1)⟩ := by
  obtain ⟨init, log, rfl⟩ := (List.eq_nil_or_concat logs).resolve_left hne
  refine ⟨log, by simp, ?_⟩
  have := ho init.length log (by simp)
  simp [latestLeafOf, this]

/-- The root of a tree as text, all zeros without a leaf. -/
def rootText (sha256 : List UInt8 → Bytes 32) (h : ℕ) (ls : List (Bytes 27)) : Str :=
  if ls = [] then zeroRoot else hexlify ((treeScheme sha256).root ls h)

theorem values_eq_nil : values logs = [] ↔ logs = [] := List.map_eq_nil_iff

theorem values_take_append_drop (logs : List Log) (n : ℕ) :
    values (logs.take n) ++ values (logs.drop n) = values logs := by
  rw [values, values, values, ← List.map_append, List.take_append_drop]

/-- The frontier once the leaves from the `n`-th to the last are in. -/
def nextFrontier (sha256 : List UInt8 → Bytes 32) (h : ℕ) (logs : List Log) (n : ℕ)
    (frontier : List (Option Str)) : List (Option Str) :=
  frontierAfter (treeScheme sha256) (sizedFrontier h frontier) (values (logs.take n))
    (values (logs.drop n))

theorem frontierOf_next {n : ℕ} {frontier : List (Option Str)}
    (hf : FrontierOf (treeScheme sha256) h (values (logs.take n)) frontier) :
    FrontierOf (treeScheme sha256) h (values logs) (nextFrontier sha256 h logs n frontier) := by
  have hnext := hf.sized.after (values (logs.drop n))
  rwa [values_take_append_drop] at hnext

/-- `updateNodes` on the leaves from the `n`-th to the last. -/
theorem updateNodesFrom_logs (a : Str) (hh : 1 ≤ h) (h30 : h ≤ 30) (hd : d.treeHeight = h) {n : ℕ}
    (hn : n < logs.length) (hsize : logs.length ≤ 2 ^ h) {frontier : List (Option Str)}
    (hf : FrontierOf (treeScheme sha256) h (values (logs.take n)) frontier) :
    updateNodesFrom sha256 d a frontier
        (((logs.drop n).map fun log => log.leaf.toNode).map Node.hash) n
      = storeNodes a (allWrites sha256 h (values logs) n (logs.length - n)) >>= fun _ =>
        Js.updateOne .updateNodes_latestRecalculation (docId a 0)
          { latestRecalculation := some ⟨d.latestLeaf.blockNumber, d.latestLeaf.leafIndex,
              some (hexlify ((treeScheme sha256).root (values logs) h)),
              nextFrontier sha256 h logs n frontier⟩ } >>= fun _ =>
        .ret (some (hexlify ((treeScheme sha256).root (values logs) h))) := by
  have hvs : ((logs.drop n).map fun log => log.leaf.toNode).map Node.hash
      = ((logs.drop n).map fun log => log.event.leafValue).map fun v => some (hexlify v) := by
    rw [List.map_map, List.map_map]
    rfl
  have hlow : ((logs.drop n).map fun log => log.event.leafValue).map Bytes.low27
      = values (logs.drop n) := by
    rw [List.map_map]
    rfl
  have hlen : (values (logs.take n)).length = n := by
    rw [length_values, List.length_take, Nat.min_eq_left hn.le]
  have hlen' : ((logs.drop n).map fun log => log.event.leafValue).length = logs.length - n := by
    rw [List.length_map, List.length_drop]
  have heq := updateNodesFrom_eq a hh h30 hd
    ((logs.drop n).map fun log => log.event.leafValue)
    (by
      rw [← List.length_pos_iff, hlen']
      omega)
    (by rw [hlen, hlen']; omega) hf
  rw [hlow, values_take_append_drop, hlen, hlen'] at heq
  rw [hvs]
  exact heq

/-- The document an update leaves: `updateNodes` on the leaves from the record to the last. -/
theorem consistent_update (hh : 1 ≤ h) (hd : Consistent sha256 h logs d) (hne : logs ≠ [])
    (hlt : recorded d.latestRecalculation < logs.length) {frontier : List (Option Str)}
    (hf : FrontierOf (treeScheme sha256) h (values logs) frontier) :
    Consistent sha256 h logs { d with
      nodes := written d.nodes (allWrites sha256 h (values logs) (recorded d.latestRecalculation)
        (logs.length - recorded d.latestRecalculation))
      latestRecalculation := ⟨d.latestLeaf.blockNumber, d.latestLeaf.leafIndex,
        some (hexlify ((treeScheme sha256).root (values logs) h)), frontier⟩ } := by
  obtain ⟨last, -, hlast⟩ := latestLeafOf_ne_nil hd.inOrder hne
  have hpos := List.length_pos_iff.2 hne
  have hrec : ∀ b r f, recorded ⟨b, d.latestLeaf.leafIndex, r, f⟩ = logs.length := by
    intro b r f
    rw [hd.latestLeaf, hlast, recorded, Option.elim_some, Nat.sub_add_cancel hpos]
  have hall := hd.record.le
  have hwrites : ∀ x ∈ allWrites sha256 h (values logs) (recorded d.latestRecalculation)
      (logs.length - recorded d.latestRecalculation), x.1 < 2 ^ h - 1 := fun x hx =>
    allWrites_lt (by have := hd.size; omega) (by omega) hx
  refine ⟨leafRow_written hd.toLeafRow rfl hwrites hd.treeHeight, hd.inOrder, hd.blocks,
    hd.size, fun p log hp => ?_, hd.latestLeaf, ⟨?_, ?_, fun _ => ?_⟩, ?_⟩
  · rw [Stored, leaf_written rfl hwrites]
    exact hd.stored p log hp
  · exact (hrec _ _ _).le
  · rw [hrec, List.take_length]
    exact hf
  · rw [hrec, List.take_length]
  · rw [hrec, List.take_length]
    have hsplit := values_take_append_drop logs (recorded d.latestRecalculation)
    have hlen : (values (logs.take (recorded d.latestRecalculation))).length
        = recorded d.latestRecalculation := by
      rw [length_values, List.length_take, Nat.min_eq_left hall]
    have hlen' : (values (logs.drop (recorded d.latestRecalculation))).length
        = logs.length - recorded d.latestRecalculation := by rw [length_values, List.length_drop]
    have hsize := hd.size
    have hne' : values (logs.drop (recorded d.latestRecalculation)) ≠ [] := by
      rw [← List.length_pos_iff, hlen']
      omega
    rw [← hsplit]
    exact (hd.hashed.settled (Nat.le_add_right _ _)).hashed hh hne' (by omega)
      (by rw [hsplit, hlen, hlen'])

theorem rootText_of_ne_nil (hne : logs ≠ []) :
    rootText sha256 h (values logs) = hexlify ((treeScheme sha256).root (values logs) h) := by
  rw [rootText, if_neg (by rwa [values_eq_nil])]

/-- `updateNodes` on the leaves the record does not cover yet. -/
theorem updateNodes_run (hh : 1 ≤ h) (hfit : logs.length ≤ fit h)
    (hw : w.db.findOne (docId a 0) = some d) (hd : Consistent sha256 h logs d) {n : ℕ}
    (hn : recorded d.latestRecalculation = n) (hlt : n < logs.length) :
    ∃ w' d', (updateNodes sha256 a d.latestRecalculation.frontier
        (((logs.drop n).map fun log => log.leaf.toNode).map Node.hash) n).run w
          = (.ok (some (rootText sha256 h (values logs))), w') ∧
      Evolves a d' w w' ∧ Consistent sha256 h logs d' ∧
      recorded d'.latestRecalculation = logs.length := by
  have hne : logs ≠ [] := List.ne_nil_of_length_pos (by omega)
  have hsize := hd.size
  obtain ⟨last, -, hlast⟩ := latestLeafOf_ne_nil hd.inOrder hne
  have hf₀ : FrontierOf (treeScheme sha256) h (values (logs.take n))
      d.latestRecalculation.frontier := hn ▸ hd.record.frontier
  have heq := updateNodesFrom_logs a hh (height_le (by omega)) hd.treeHeight hlt hsize hf₀
  have hf := frontierOf_next hf₀
  obtain ⟨w₁, h1, he₁⟩ := storeNodes_run (allWrites sha256 h (values logs) n (logs.length - n)) hw
    fun x hx => (allWrites_lt (by omega) (by omega) hx).trans (inner_lt_bucket (by omega))
  have he₂ := Evolves.updateOne he₁.doc { latestRecalculation := some (LatestRecalculation.mk
    d.latestLeaf.blockNumber d.latestLeaf.leafIndex
    (some (hexlify ((treeScheme sha256).root (values logs) h)))
    (nextFrontier sha256 h logs n d.latestRecalculation.frontier)) }
  have hcons := consistent_update hh hd hne (hn ▸ hlt) hf
  rw [hn] at hcons
  refine ⟨_, _, ?_, he₁.trans he₂, hcons, ?_⟩
  · rw [updateNodes, run_findOne_deref, hw]
    simp only [heq]
    rw [Proc.run_bind_ok h1, run_updateOne, rootText_of_ne_nil hne]
    rfl
  · simp only [TreeUpdate.apply, Option.getD_some, recorded, hd.latestLeaf, hlast,
      Option.elim_some]
    omega

theorem updateTree_run (hh : 1 ≤ h) (hfit : logs.length ≤ fit h)
    (hw : w.db.findOne (docId a 0) = some d) (hd : Consistent sha256 h logs d) :
    ∃ w' d', (updateTree sha256 a).run w = (.ok (some (rootText sha256 h (values logs))), w') ∧
      Evolves a d' w w' ∧ Consistent sha256 h logs d' ∧
      recorded d'.latestRecalculation = logs.length := by
  unfold updateTree
  rw [run_findOne_deref, hw]
  by_cases hne : logs = []
  · subst hne
    have h0 : d.latestLeaf.blockNumber.getD 0 = 0 := by rw [hd.latestLeaf]; rfl
    have hr := hd.record.le
    refine ⟨w, d, ?_, Evolves.refl hw, hd, by simpa using hr⟩
    simp only [h0, if_true]
    rfl
  obtain ⟨last, hmem, hlast⟩ := latestLeafOf_ne_nil hd.inOrder hne
  have hpos := List.length_pos_iff.2 hne
  have hblock := hd.blocks last hmem
  have hfalsy : ¬ d.latestLeaf.blockNumber.getD 0 = 0 := by
    rw [hd.latestLeaf, hlast, Option.getD_some]
    omega
  have hto : d.latestLeaf.leafIndex.getD 0 = logs.length - 1 := by
    rw [hd.latestLeaf, hlast, Option.getD_some]
  have hfrom : d.latestRecalculation.leafIndex.elim 0 (· + 1) = recorded d.latestRecalculation :=
    rfl
  obtain ⟨n, hn⟩ : ∃ n, recorded d.latestRecalculation = n := ⟨_, rfl⟩
  have hall : n ≤ logs.length := hn ▸ hd.record.le
  simp only [if_neg hfalsy, hto, hfrom, hn]
  by_cases hlt : n < logs.length
  · have hrange := getLeavesByLeafIndexRange_run hw hd.toLeafRow hd.inOrder n
      (logs.length - 1) (index_lt_bucket_iff.2 (by omega)) fun p log _ hp => hd.stored p log hp
    rw [Nat.sub_add_cancel hpos, List.take_length] at hrange
    rw [if_pos (by omega), Proc.run_bind_ok hrange]
    exact updateNodes_run hh hfit hw hd hn hlt
  · have hall' : recorded d.latestRecalculation = logs.length := by omega
    refine ⟨w, d, ?_, Evolves.refl hw, hd, hall'⟩
    have hroot := hd.record.root (by omega)
    rw [hall', List.take_length] at hroot
    rw [if_neg (by omega), rootText_of_ne_nil hne, hroot]
    rfl

end Runs

/-! ## Sessions -/

section Session

variable {sha256 : List UInt8 → Bytes 32} {a : Str} {h : ℕ}

/-- The contract holds the leaves of the logs, and the service those of the first bucket. -/
structure Follows (sha256 : List UInt8 → Bytes 32) (a : Str) (h : ℕ) (logs : List Log)
    (s : Session) : Prop where
  contract : MerkleTreeSHA256.Represents (precompile sha256) h (values logs) s.contract
  world : ∃ d, s.world.db.findOne (docId a 0) = some d ∧
    Consistent sha256 h (logs.take (fit h)) d
  bucket : fit h < 2 ^ h → ∀ b, b ≠ 0 → s.world.db.findOne (docId a b) = none

/-- The leaf values of some logs. -/
def emittedValues (logs : List Log) : List (Bytes 32) := logs.map fun log => log.event.leafValue

theorem length_emittedValues (logs : List Log) : (emittedValues logs).length = logs.length :=
  List.length_map _

theorem Follows.size {logs : List Log} {s : Session} (hs : Follows sha256 a h logs s) :
    logs.length ≤ 2 ^ h := by
  rw [← length_values, ← hs.contract.count]
  exact hs.contract.leafCount

/-- The handler of the next leaf, whose node is in the first bucket or not. -/
theorem Follows.onNewLeaf (hh : 1 ≤ h) {logs : List Log} {s : Session}
    (hs : Follows sha256 a h logs s) (hlt : logs.length < 2 ^ h) (log : Log)
    (hi : log.event.leafIndex = logs.length) (hpos : 1 ≤ log.blockNumber) :
    ∃ w' d, ((onNewLeaf a log).run s.world).2 = w' ∧ w'.db.findOne (docId a 0) = some d ∧
      Consistent sha256 h ((logs ++ [log]).take (fit h)) d ∧
      (fit h < 2 ^ h → ∀ b, b ≠ 0 → w'.db.findOne (docId a b) = none) := by
  obtain ⟨d, hw, hd⟩ := hs.world
  have hnode : leafIndexToNodeIndex d.treeHeight log.leaf.leafIndex = index h 0 logs.length := by
    rw [hd.treeHeight, leafIndexToNodeIndex_eq, Log.leaf, hi]
  rcases Nat.lt_or_ge logs.length (fit h) with hin | hout
  · obtain ⟨w', h1, he⟩ := insertLeaf_run hw log.leaf
      (by rw [hnode]; exact index_lt_bucket_iff.2 hin)
    rw [List.take_of_length_le hin.le] at hd
    refine ⟨w', _, congrArg Prod.snd h1, he.doc, ?_, fun hb b hb0 => ?_⟩
    · rw [List.take_of_length_le (by simp; omega)]
      exact consistent_withLeaf hh hd hi hpos hlt
    · rw [he.others _ fun hid => hb0 (docId_inj hid)]
      exact hs.bucket hb b hb0
  · have hbucket : calculateBucket (index h 0 logs.length) ≠ 0 :=
      calculateBucket_ne_zero (not_lt.1 (mt index_lt_bucket_iff.1 (not_lt.2 hout)))
    have hnone := hs.bucket (by omega) _ hbucket
    rw [← hnode] at hnone
    refine ⟨s.world, d, congrArg Prod.snd (insertLeaf_run_none hw hnone), hw, ?_, hs.bucket⟩
    rwa [List.take_append_of_le_length hout]

theorem Follows.leaf (hh : 1 ≤ h) (h32 : h ≤ 32) {logs : List Log} {s : Session}
    (hs : Follows sha256 a h logs s) (v : Bytes 32) {b : ℕ} (hpos : 1 ≤ b) (t : Str) :
    ∃ logs', Follows sha256 a h logs' (s.step sha256 a (.leaf v b t)) ∧
      emittedValues logs' = (emittedValues logs ++ [v]).take (2 ^ h) := by
  rcases hs.size.lt_or_eq with hlt | heq
  · obtain ⟨contract, h1, hc⟩ := MerkleTreeSHA256.insertLeaf_represents hh (by omega) hs.contract
      (by rwa [length_values]) v
    rw [length_values] at h1
    let log : Log :=
      { address := a, event := ⟨logs.length, v, contract.latestRoot⟩, transactionHash := t,
        blockNumber := b }
    obtain ⟨w', d, h2, hw', hd', hbucket⟩ := hs.onNewLeaf hh hlt log rfl hpos
    have hstep : s.step sha256 a (.leaf v b t) = ⟨contract, w'⟩ := by
      simp only [Session.step, h1]
      exact congrArg _ h2
    refine ⟨logs ++ [log], ?_, ?_⟩
    · rw [hstep]
      refine ⟨?_, ⟨d, hw', hd'⟩, hbucket⟩
      rw [values, List.map_append]
      exact hc
    · rw [List.take_of_length_le (by
        rw [List.length_append, List.length_singleton, length_emittedValues]
        omega), emittedValues, List.map_append]
      rfl
  · have hfull : s.contract.insertLeaf (precompile sha256) v = none :=
      MerkleTreeSHA256.insertLeaf_full
        (by rw [hs.contract.treeWidth, hs.contract.count, length_values, heq]) v
    refine ⟨logs, by rwa [Session.step, hfull], ?_⟩
    rw [List.take_append_of_le_length (by rw [length_emittedValues, heq]),
      List.take_of_length_le (by rw [length_emittedValues, heq])]

theorem Follows.updateTree (hh : 1 ≤ h) {logs : List Log} {s : Session}
    (hs : Follows sha256 a h logs s) :
    Follows sha256 a h logs (s.step sha256 a .updateTree) := by
  obtain ⟨d, hw, hd⟩ := hs.world
  obtain ⟨w', d', h1, he, hd', -⟩ :=
    updateTree_run hh (by rw [List.length_take]; omega) hw hd
  have hstep : s.step sha256 a .updateTree = ⟨s.contract, w'⟩ := by
    simp only [Session.step, h1]
  rw [hstep]
  refine ⟨hs.contract, ⟨d', he.doc, hd'⟩, fun hb b hb0 => ?_⟩
  rw [he.others _ fun hid => hb0 (docId_inj hid)]
  exact hs.bucket hb b hb0

theorem take_take_append {α : Type} (n : ℕ) (xs ys : List α) :
    (xs.take n ++ ys).take n = (xs ++ ys).take n := by
  rcases Nat.le_total n xs.length with hle | hle
  · rw [List.take_append_of_le_length (by simp [hle]), List.take_append_of_le_length hle,
      List.take_take, Nat.min_self]
  · rw [List.take_of_length_le hle]

theorem Follows.runs (hh : 1 ≤ h) (h32 : h ≤ 32) :
    ∀ (actions : List Action) {logs : List Log} {s : Session}, BlocksPositive actions →
      Follows sha256 a h logs s →
      ∃ logs', Follows sha256 a h logs' (s.runs sha256 a actions) ∧
        emittedValues logs' = (emittedValues logs ++ leafValues actions).take (2 ^ h)
  | [], logs, s, _, hs => by
    refine ⟨logs, hs, ?_⟩
    rw [leafValues, List.filterMap_nil, List.append_nil,
      List.take_of_length_le (by rw [length_emittedValues]; exact hs.size)]
  | .leaf v b t :: actions, logs, s, hpos, hs => by
    obtain ⟨logs₁, hs₁, h1⟩ := hs.leaf hh h32 v (hpos b List.mem_cons_self) t
    obtain ⟨logs₂, hs₂, h2⟩ := Follows.runs hh h32 actions
      (fun b hb => hpos b (List.mem_cons_of_mem _ hb)) hs₁
    refine ⟨logs₂, hs₂, ?_⟩
    have hcons : leafValues (.leaf v b t :: actions) = v :: leafValues actions := rfl
    rw [h2, h1, hcons, take_take_append, List.append_assoc, List.singleton_append]
  | .updateTree :: actions, logs, s, hpos, hs =>
    Follows.runs hh h32 actions hpos (hs.updateTree hh)

theorem follows_start (h32 : h ≤ 32) {w : World}
    (hw : w.db.findOne (docId a 0) = some (trackedDoc a h))
    (hbucket : fit h < 2 ^ h → ∀ b, b ≠ 0 → w.db.findOne (docId a b) = none) :
    Follows sha256 a h [] ⟨MerkleTreeSHA256.new h, w⟩ where
  contract := MerkleTreeSHA256.new_represents (by omega)
  world := ⟨_, hw, by rw [List.take_nil]; exact consistent_tracked a h⟩
  bucket := hbucket

/-- What a session that starts with a new tree has come to. -/
theorem follows_session (sha256 : List UInt8 → Bytes 32) (hh : 1 ≤ h) (h32 : h ≤ 32) {w : World}
    (hw : w.db.findOne (docId a 0) = some (trackedDoc a h))
    (hbucket : fit h < 2 ^ h → ∀ b, b ≠ 0 → w.db.findOne (docId a b) = none)
    {actions : List Action} (hpos : BlocksPositive actions) :
    ∃ logs, Follows sha256 a h logs
        (Session.runs sha256 a ⟨MerkleTreeSHA256.new h, w⟩ actions) ∧
      emittedValues logs = (leafValues actions).take (2 ^ h) :=
  Follows.runs hh h32 actions hpos (follows_start h32 hw hbucket)

/-- Whatever came before, `updateTree` returns the contract's root. -/
theorem updateTree_latestRoot (sha256 : List UInt8 → Bytes 32) {h : ℕ} (hh : 1 ≤ h)
    (hb : 2 ^ (h + 1) - 1 ≤ BUCKET_SIZE) (contractAddress : Str) {w : World}
    (hw : w.db.findOne (docId contractAddress 0) = some (trackedDoc contractAddress h))
    (actions : List Action) (hpos : BlocksPositive actions) :
    let s := Session.runs sha256 contractAddress ⟨MerkleTreeSHA256.new h, w⟩ actions
    ((updateTree sha256 contractAddress).run s.world).1
      = .ok (some (hexlify s.contract.latestRoot)) := by
  intro s
  have hall := le_fit hb
  have h30 := height_le (lt_of_lt_of_le (by positivity) hall)
  obtain ⟨logs, hs, -⟩ := follows_session sha256 hh (h30.trans (by norm_num)) hw
    (fun hlt => absurd hlt (by omega)) hpos
  obtain ⟨d, hw', hd⟩ := hs.world
  rw [List.take_of_length_le (hs.size.trans hall)] at hd
  obtain ⟨w', d', h1, -, -, -⟩ := updateTree_run hh (hs.size.trans hall) hw' hd
  have hroot : rootText sha256 h (values logs) = hexlify s.contract.latestRoot := by
    rw [rootText, hs.contract.root]
    split_ifs
    · exact zeroRoot_eq_hexlify
    · rfl
  rw [h1, hroot]

theorem updateTree_latestRoot_one :
    let s := Session.runs Sha256.digest [] ⟨MerkleTreeSHA256.new 1, trackedWorld [] 1⟩
      [.leaf (Bytes.fill 32 1) 1 [], .updateTree]
    ((updateTree Sha256.digest []).run s.world).1 = .ok (some (hexlify s.contract.latestRoot)) :=
  updateTree_latestRoot Sha256.digest le_rfl (by decide) [] (w := trackedWorld [] 1) (by decide) _
    (by decide)

end Session

end CommitMgr

end Baseline
