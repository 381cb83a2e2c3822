import Baseline.Proofs.Leaves
import Baseline.RpcServer

/-!
# Leaves stored one after another

What a run of handlers, each to its end, makes of a tree's document (`insertLogs_run`), and what is
then at the nodes of its leaves (`entry_withLeaves`). The service addresses the document of a leaf
by the leaf's bucket and creates the first one only, so such a run fails at the first leaf whose
node is past it (`insertLogs_run_error`).
-/

namespace Baseline

open Await HashTree

namespace CommitMgr

/-! ## Several leaves -/

/-- The node of a log's leaf. -/
def leafNode (h : ℕ) (log : Log) : ℕ := leafIndexToNodeIndex h log.event.leafIndex

/-- The leaves of the logs have increasing indices. -/
def Increasing (logs : List Log) : Prop :=
  logs.Pairwise fun log log' => log.event.leafIndex < log'.event.leafIndex

instance (logs : List Log) : Decidable (Increasing logs) :=
  inferInstanceAs (Decidable (List.Pairwise _ _))

/-- The document with the leaves of some logs added in turn. -/
def withLeaves (d : TreeDoc) (logs : List Log) : TreeDoc :=
  logs.foldl (fun d log => withLeaf d log.leaf) d

section WithLeaves

variable {h : ℕ} {d : TreeDoc} {logs : List Log}

theorem leafNode_eq (h : ℕ) (log : Log) : leafNode h log = index h 0 log.event.leafIndex := rfl

theorem withLeaves_append (d : TreeDoc) (logs more : List Log) :
    withLeaves d (logs ++ more) = withLeaves (withLeaves d logs) more := List.foldl_append

theorem withLeaves_treeHeight : ∀ (logs : List Log) (d : TreeDoc),
    (withLeaves d logs).treeHeight = d.treeHeight
  | [], _ => rfl
  | log :: logs, d => withLeaves_treeHeight logs (withLeaf d log.leaf)

theorem entry_withLeaf (d : TreeDoc) (log : Log) (j : ℕ) : entry (withLeaf d log.leaf).nodes j
    = if j = leafNode d.treeHeight log then some log.leaf.toNode else entry d.nodes j :=
  entry_setEntry _ _ _ _

theorem entry_withLeaves_of_ne {j : ℕ} : ∀ (logs : List Log) (d : TreeDoc),
    (∀ log ∈ logs, j ≠ leafNode d.treeHeight log) →
      entry (withLeaves d logs).nodes j = entry d.nodes j
  | [], _, _ => rfl
  | log :: logs, d, hj => by
    have ih := entry_withLeaves_of_ne logs (withLeaf d log.leaf)
      fun log' hmem => hj log' (List.mem_cons_of_mem _ hmem)
    refine ih.trans ?_
    rw [entry_withLeaf, if_neg (hj log List.mem_cons_self)]

theorem leafNode_injective {log log' : Log} (hn : leafNode h log = leafNode h log') :
    log.event.leafIndex = log'.event.leafIndex := by
  rw [leafNode_eq, leafNode_eq, index_leaf, index_leaf] at hn
  omega

/-- Each leaf is at its node. -/
theorem entry_withLeaves : ∀ (logs : List Log) (d : TreeDoc), Increasing logs → ∀ log ∈ logs,
    entry (withLeaves d logs).nodes (leafNode d.treeHeight log) = some log.leaf.toNode
  | log :: logs, d, hi, log', hmem => by
    obtain ⟨hlt, hi'⟩ := List.pairwise_cons.1 hi
    rcases List.mem_cons.1 hmem with rfl | hmem
    · have hrest := entry_withLeaves_of_ne (j := leafNode d.treeHeight log') logs
        (withLeaf d log'.leaf) fun log hlog heq => (hlt log hlog).ne (leafNode_injective heq)
      refine hrest.trans ?_
      rw [entry_withLeaf, if_pos rfl]
    · exact entry_withLeaves logs (withLeaf d log.leaf) hi' log' hmem

/-- What else is there was there before. -/
theorem entry_withLeaves_cases {j : ℕ} {node : Node} : ∀ (logs : List Log) (d : TreeDoc),
    entry (withLeaves d logs).nodes j = some node →
      (∃ log ∈ logs, j = leafNode d.treeHeight log ∧ node = log.leaf.toNode)
        ∨ entry d.nodes j = some node
  | [], _, hj => .inr hj
  | log :: logs, d, hj => by
    rcases entry_withLeaves_cases logs (withLeaf d log.leaf) hj with ⟨log', hmem, h1⟩ | h1
    · exact .inl ⟨log', List.mem_cons_of_mem _ hmem, h1⟩
    · rw [entry_withLeaf] at h1
      split_ifs at h1 with heq
      · exact .inl ⟨log, List.mem_cons_self, heq, (Option.some.inj h1).symm⟩
      · exact .inr h1

end WithLeaves

/-! ## The runs -/

section Runs

variable {a : Str}

/-- `insertLeaf` on each leaf in order. -/
def insertEach (contractAddress : Str) : List Leaf → Js Unit
  | [] => return ()
  | leaf :: leaves => do
    insertLeaf contractAddress leaf
    insertEach contractAddress leaves

theorem insertEach_run : ∀ (leaves : List Leaf) {d : TreeDoc} {w : World},
    w.db.findOne (docId a 0) = some d →
    (∀ leaf ∈ leaves, leafIndexToNodeIndex d.treeHeight leaf.leafIndex < BUCKET_SIZE) →
      ∃ w', (insertEach a leaves).run w = (.ok (), w') ∧ Evolves a (leaves.foldl withLeaf d) w w'
  | [], d, w, hd, _ => ⟨w, rfl, Evolves.refl hd⟩
  | leaf :: leaves, d, w, hd, hb => by
    obtain ⟨w₁, h1, he₁⟩ := insertLeaf_run hd leaf (hb leaf List.mem_cons_self)
    obtain ⟨w₂, h2, he₂⟩ := insertEach_run leaves he₁.doc
      fun leaf' hmem => hb leaf' (List.mem_cons_of_mem _ hmem)
    refine ⟨w₂, ?_, he₁.trans he₂⟩
    rw [insertEach, Proc.run_bind_ok h1]
    exact h2

theorem insertLogs_eq : ∀ logs : List Log, insertLogs a logs = insertEach a (logs.map Log.leaf)
  | [] => rfl
  | log :: logs => by rw [insertLogs, insertLogs_eq logs, List.map_cons, insertEach]

theorem insertLogs_run (logs : List Log) {d : TreeDoc} {w : World}
    (hd : w.db.findOne (docId a 0) = some d)
    (hb : ∀ log ∈ logs, leafNode d.treeHeight log < BUCKET_SIZE) :
    ∃ w', (insertLogs a logs).run w = (.ok (), w') ∧ Evolves a (withLeaves d logs) w w' := by
  obtain ⟨w', hrun, he⟩ := insertEach_run (logs.map Log.leaf) hd (List.forall_mem_map.2 hb)
  rw [List.foldl_map] at he
  exact ⟨w', by rw [insertLogs_eq, hrun], he⟩

theorem insertLogs_run_error : ∀ (logs : List Log) {d : TreeDoc} {w : World},
    w.db.findOne (docId a 0) = some d → (∀ b, b ≠ 0 → w.db.findOne (docId a b) = none) →
    (∃ log ∈ logs, BUCKET_SIZE ≤ leafNode d.treeHeight log) →
      ((insertLogs a logs).run w).1 = .error .typeError
  | [], _, _, _, _, hpast => by simp at hpast
  | log :: logs, d, w, hd, hnone, hpast => by
    obtain ⟨log', hmem, hge⟩ := hpast
    rw [insertLogs]
    rcases Nat.lt_or_ge (leafNode d.treeHeight log) BUCKET_SIZE with hlt | hge'
    · have hmem' : log' ∈ logs := by
        rcases List.mem_cons.1 hmem with rfl | hmem'
        · omega
        · exact hmem'
      obtain ⟨w₁, h1, he₁⟩ := insertLeaf_run hd log.leaf hlt
      rw [Proc.run_bind_ok h1]
      refine insertLogs_run_error logs he₁.doc (fun b hb => ?_) ⟨log', hmem', hge⟩
      rw [he₁.others _ fun hid => hb (docId_inj hid)]
      exact hnone b hb
    · have hmissing : w.db.findOne (docId a (calculateBucket
          (leafIndexToNodeIndex d.treeHeight log.leaf.leafIndex))) = none :=
        hnone _ (calculateBucket_ne_zero hge')
      rw [Proc.run_bind_error (insertLeaf_run_none hd hmissing)]

/-- A query the node answers. -/
theorem run_jsonrpc {α β : Type} (l : AwaitPoint) (query : World → α) (f : Response α → Js β)
    {w : World} (hw : w.rpc = .ok) :
    (jsonrpc l query >>= f).run w = (f (.result (query w))).run w := by
  simp only [jsonrpc, attempt, Proc.await_bind, Proc.run_await, hw, Proc.ret_bind]

theorem run_subscribeMerkleEvents {w : World} {listeners : List Str}
    (hw : w.get_ws_provider.ws_provider = some listeners) :
    (subscribeMerkleEvents a).run w
      = (.ok (), { w.get_ws_provider with ws_provider := some (listeners ++ [a]) }) := by
  simp only [subscribeMerkleEvents, attempt, Proc.run_await, hw, Proc.run_ret]

theorem run_checkChainLogs {w : World} (hw : w.rpc = .ok) (fromBlock : Option ℕ) :
    (checkChainLogs a fromBlock).run w = (insertLogs a (World.getLogs a
      (if fromBlock.getD 0 = 0 then 0 else fromBlock.getD 0 + 1) w)).run w := by
  unfold checkChainLogs
  rw [run_jsonrpc _ _ _ hw]

/-- The world once a contract's document is there and active. -/
def withTree (a : Str) (w : World) : World :=
  { w with db := w.db.upsert (docId a 0) { treeHeight := some (w.heights a), active := some true } }

theorem withTree_doc {w : World} (hnew : w.db.findOne (docId a 0) = none) :
    (withTree a w).db.findOne (docId a 0) = some (trackedDoc a (w.heights a)) :=
  Collection.findOne_upsert_none hnew

theorem withTree_others {w : World} {b : ℕ} (hb : b ≠ 0) :
    (withTree a w).db.findOne (docId a b) = w.db.findOne (docId a b) :=
  Collection.findOne_upsert_ne fun hid => hb (docId_inj hid)

theorem trackedWorld_doc (a : Str) (h : ℕ) :
    (trackedWorld a h).db.findOne (docId a 0) = some (trackedDoc a h) :=
  Collection.findOne_eq_some_iff.2 ⟨List.mem_singleton_self _, rfl⟩

theorem trackedWorld_others (a : Str) (h : ℕ) {b : ℕ} (hb : b ≠ 0) :
    (trackedWorld a h).db.findOne (docId a b) = none := by
  have hid : (trackedDoc a h)._id ≠ docId a b := fun hid => hb (docId_inj hid).symm
  simp [trackedWorld, Collection.findOne, hid]

/-- A tree that is not active is tracked from its first leaf on. -/
theorem run_baseline_track {w : World}
    (hnew : ¬ (w.db.findOne (docId a 0)).any fun d => d.active = some true)
    (hw : w.rpc = .ok) (hh : w.heights a ≠ 0) :
    (baseline_track a).run w
      = (insertLogs a (World.getLogs a 0 w) >>= fun _ => subscribeMerkleEvents a >>= fun _ =>
          Proc.ret ⟨none, some true⟩).run (withTree a w) := by
  simp only [baseline_track, Js.findOne, Proc.await_bind, Proc.run_await, Proc.ret_bind]
  rw [if_neg hnew, run_jsonrpc _ _ _ hw]
  simp only [if_neg hh, Proc.run_await]
  rw [Proc.run_bind, run_checkChainLogs (by exact hw), Proc.run_bind]
  rfl

/-- Otherwise the request does nothing. -/
theorem run_baseline_track_refused {w : World}
    (h : ((w.db.findOne (docId a 0)).any fun d => d.active = some true) ∨ w.rpc ≠ .ok ∨
      w.heights a = 0) :
    ∃ r, (baseline_track a).run w = (r, w) ∧ r ≠ .ok ⟨none, some true⟩ := by
  simp only [baseline_track, jsonrpc, attempt, Js.findOne, Proc.await_bind, Proc.run_await,
    Proc.ret_bind]
  split_ifs with hactive
  · exact ⟨_, rfl, by rintro ⟨⟩⟩
  · simp only [Proc.run_await]
    rcases hrpc : w.rpc with _ | e | _
    · have hzero := (h.resolve_left hactive).resolve_left fun hne => hne hrpc
      simp only [Proc.ret_bind, if_pos hzero]
      exact ⟨_, rfl, by rintro ⟨⟩⟩
    · exact ⟨_, rfl, by rintro ⟨⟩⟩
    · exact ⟨_, rfl, by rintro ⟨⟩⟩

end Runs

end CommitMgr

end Baseline
