import Baseline.Proofs.Handoff
import Baseline.Proofs.OtherTrees
import Baseline.Proofs.Recovery

/-!
# Tracking again

Whatever is stored of a tree is a prefix of what its contract emitted (`Traced`): leaves that are
missed are missed from some point on, since a tree nobody listens to only grows again by a scan
from the start. That scan stores the first leaves a second time, which changes nothing
(`Torn.rewritten`), and then the missing ones, so it ends where a tracker ends that never stopped
(`Torn.replayed`).
-/

namespace Baseline

open Await

namespace CommitMgr

/-! ## A scan over what is stored -/

section Replay

variable {sha256 : List UInt8 → Bytes 32} {h k m n : ℕ} {flag : Option Bool} {logs : List Log}
  {d : TreeDoc}

/-- Leaves that are stored are stored again. -/
theorem Torn.rewritten (hd : Torn sha256 h flag logs k d) (n : ℕ) :
    withLeaves d (logs.drop n) = d := by
  refine ((Filling.refl d _).eq_withLeaves ?_ (fun log hmem => ?_) fun log hlast => ?_).symm
  · exact hd.inOrder.increasing.sublist (List.drop_sublist n logs)
  · obtain ⟨p, hp⟩ := List.mem_iff_getElem?.1 (List.mem_of_mem_drop hmem)
    rw [leafNode_eq, hd.treeHeight, hd.inOrder p log hp]
    exact hd.stored p log hp
  · have hlast' : logs.getLast? = some log := by
      obtain ⟨init, hinit⟩ := List.getLast?_eq_some_iff.1 hlast
      rw [← List.take_append_drop n logs, hinit, ← List.append_assoc, List.getLast?_concat]
    rw [hd.latestLeaf, latestLeafOf, hlast', Option.map_some, Option.map_some]

theorem torn_withLeaves : ∀ (more : List Log) {logs : List Log} {d : TreeDoc},
    Torn sha256 h flag logs k d → InOrder (logs ++ more) → (logs ++ more).length ≤ 2 ^ h →
      Torn sha256 h flag (logs ++ more) k (withLeaves d more)
  | [], logs, d, hd, _, _ => by
    rw [List.append_nil]
    exact hd
  | log :: more, logs, d, hd, ho, hsize => by
    have hi : log.event.leafIndex = logs.length := ho logs.length log (by simp)
    have happ : logs ++ log :: more = logs ++ [log] ++ more := by simp
    rw [happ] at ho hsize ⊢
    refine torn_withLeaves more (torn_withLeaf hd hi ?_) ho hsize
    rw [List.length_append, List.length_append, List.length_singleton] at hsize
    omega

/-- A scan from a leaf that is stored on ends with all leaves. -/
theorem Torn.replayed (hd : Torn sha256 h flag (logs.take m) k d) (ho : InOrder logs)
    (hsize : logs.length ≤ 2 ^ h) (hm : m ≤ logs.length) (hn : n ≤ m) :
    Torn sha256 h flag logs k (withLeaves d (logs.drop n)) := by
  have hsplit : logs.drop n = (logs.take m).drop n ++ logs.drop m := by
    conv_lhs => rw [← List.take_append_drop m logs]
    exact List.drop_append_of_le_length (by rw [List.length_take]; omega)
  have hlogs : logs.take m ++ logs.drop m = logs := List.take_append_drop m logs
  rw [hsplit, withLeaves_append, hd.rewritten n]
  have hall := torn_withLeaves (logs.drop m) hd (hlogs.symm ▸ ho) (hlogs.symm ▸ hsize)
  rwa [hlogs] at hall

end Replay

/-! ## What a history keeps -/

/-- A document without leaves, whatever height it has. -/
structure Bare (d : TreeDoc) : Prop where
  nodes : d.nodes = []
  latestLeaf : d.latestLeaf = ⟨none, none⟩
  latestRecalculation : d.latestRecalculation = ⟨none, none, none, List.replicate 33 none⟩

/-- The document has the leaves up to some point, at least `n` of them if there is a listener. -/
inductive Held (sha256 : List UInt8 → Bytes 32) (h : ℕ) (logs : List Log) (listening : Prop) (n : ℕ)
    (d : TreeDoc) : Prop
  | bare (hbare : Bare d) (hnone : ¬ listening)
  | upTo {flag : Option Bool} {m k : ℕ} (hm : m ≤ logs.length)
      (hd : Torn sha256 h flag (logs.take m) k d) (hn : listening → n ≤ m)

/-- The contract's leaves are those of the logs, and the tree's document holds them up to some
point, all of them if there is a listener. -/
structure Traced (sha256 : List UInt8 → Bytes 32) (a : Str) (h : ℕ) (logs : List Log)
    (s : Session) : Prop where
  contract : MerkleTreeSHA256.Represents (precompile sha256) h (values logs) s.contract
  emitted : logsFrom a 0 s.world.chain = logs
  inOrder : InOrder logs
  blocks : ∀ log ∈ logs, 1 ≤ log.blockNumber
  height : s.world.heights a = h
  started : 1 ≤ s.world.chain.length
  doc : ∀ d, s.world.db.findOne (docId a 0) = some d →
    Held sha256 h logs (a ∈ s.world.ws_provider.getD []) logs.length d

section Traced

variable {sha256 : List UInt8 → Bytes 32} {a : Str} {h k : ℕ} {flag : Option Bool}
  {logs : List Log} {d : TreeDoc} {s : Session} {w w' : World}

theorem Held.mono {listening listening' : Prop} {n : ℕ} (hd : Held sha256 h logs listening n d)
    (hl : listening' → listening) : Held sha256 h logs listening' n d := by
  cases hd with
  | bare hbare hnone => exact .bare hbare fun hyes => hnone (hl hyes)
  | upTo hm hd hn => exact .upTo hm hd fun hyes => hn (hl hyes)

theorem Torn.held (hd : Torn sha256 h flag logs k d) {listening : Prop} {n : ℕ}
    (hn : n ≤ logs.length) : Held sha256 h logs listening n d := by
  rw [← List.take_length (l := logs)] at hd
  exact .upTo le_rfl hd fun _ => hn

theorem Traced.size (hs : Traced sha256 a h logs s) : logs.length ≤ 2 ^ h := by
  rw [← length_values, ← hs.contract.count]
  exact hs.contract.leafCount

theorem Traced.getLogs (hs : Traced sha256 a h logs s) : World.getLogs a 0 s.world = logs :=
  hs.emitted

/-- Something happens that is of no concern to the tree, or deletes it. -/
theorem Traced.spared (hs : Traced sha256 a h logs s) (hw : Spares a s.world w') :
    Traced sha256 a h logs { s with world := w' } where
  contract := hs.contract
  emitted := by rw [hw.chain, hs.emitted]
  inOrder := hs.inOrder
  blocks := hs.blocks
  height := by rw [hw.heights, hs.height]
  started := by
    rw [hw.chain]
    exact hs.started
  doc d hd := by
    rcases hw.doc with hsame | hgone
    · exact (hs.doc d (hsame ▸ hd)).mono hw.listening
    · rw [hgone] at hd
      cases hd

theorem Torn.reflagged (hd : Torn sha256 h flag logs k d) {x : Option ℕ}
    (hx : x = none ∨ x = some h) (f : Bool) :
    Torn sha256 h (some f) logs k (TreeUpdate.apply { treeHeight := x, active := some f } d) := by
  have heq : TreeUpdate.apply { treeHeight := x, active := some f } d
      = { d with active := some f } := by
    rcases hx with rfl | rfl
    · rfl
    · obtain rfl : d.treeHeight = h := hd.treeHeight
      rfl
  rw [heq]
  exact { hd with
    active := rfl
    hashed := fun hk => ⟨(hd.hashed hk).node, (hd.hashed hk).root⟩ }

theorem Bare.tracked (hd : Bare d) (hid : d._id = docId a 0) :
    Torn sha256 h (some true) [] 0
      (TreeUpdate.apply { treeHeight := some h, active := some true } d) := by
  have heq : TreeUpdate.apply { treeHeight := some h, active := some true } d = trackedDoc a h := by
    obtain ⟨id, height, latest, active, record, nodes⟩ := d
    obtain ⟨rfl, rfl, rfl⟩ := hd
    obtain rfl : id = docId a 0 := hid
    rfl
  rw [heq]
  exact torn_tracked a h

/-- Once the tree has been made active, it holds the leaves up to some point. -/
theorem Traced.reactivated (hs : Traced sha256 a h logs s) :
    ∃ d m k, (withTree a s.world).db.findOne (docId a 0) = some d ∧ m ≤ logs.length ∧
      Torn sha256 h (some true) (logs.take m) k d := by
  unfold withTree
  rw [hs.height]
  rcases hd : s.world.db.findOne (docId a 0) with _ | d
  · exact ⟨_, 0, 0, Collection.findOne_upsert_none hd, Nat.zero_le _, torn_tracked a h⟩
  · have hdoc :=
      Collection.findOne_upsert_some (u := { treeHeight := some h, active := some true }) hd
    cases hs.doc d hd with
    | bare hbare hnone =>
      exact ⟨_, 0, 0, hdoc, Nat.zero_le _, hbare.tracked (Collection.findOne_id hd)⟩
    | upTo hm htorn hn => exact ⟨_, _, _, hdoc, hm, htorn.reflagged (.inr rfl) true⟩

/-! ### Calls for the tree -/

section Calls

variable (hfit : 2 ^ h ≤ fit h)
include hfit

/-- The scan from the start, once the tree is active. -/
theorem Traced.scan (hs : Traced sha256 a h logs s) :
    ∃ w' d k, (insertLogs a logs).run (withTree a s.world) = (.ok (), w') ∧
      Evolves a d (withTree a s.world) w' ∧ Torn sha256 h (some true) logs k d := by
  obtain ⟨d, m, k, hd, hm, htorn⟩ := hs.reactivated
  obtain ⟨w', h1, he⟩ := insertLogs_run logs hd fun log hlog => by
    obtain ⟨p, hp⟩ := List.mem_iff_getElem?.1 hlog
    have hlt := (List.getElem?_eq_some_iff.1 hp).1
    have hsize := hs.size
    rw [leafNode_eq, htorn.treeHeight, hs.inOrder p log hp, index_lt_bucket_iff]
    omega
  have hall := htorn.replayed hs.inOrder hs.size hm (Nat.zero_le m)
  exact ⟨w', _, k, h1, he, hall⟩

/-- A request that tracks the tree either does nothing or ends its scan. -/
theorem Traced.run_track (hs : Traced sha256 a h logs s) :
    (∃ r, (baseline_track a).run s.world = (r, s.world) ∧ r ≠ .ok ⟨none, some true⟩) ∨
      ∃ r w' d k, (baseline_track a).run s.world = (r, w') ∧ w'.chain = s.world.chain ∧
        w'.heights = s.world.heights ∧ w'.db.findOne (docId a 0) = some d ∧
        Torn sha256 h (some true) logs k d := by
  by_cases hrefused : ((s.world.db.findOne (docId a 0)).any fun d => d.active = some true) ∨
      s.world.rpc ≠ .ok ∨ s.world.heights a = 0
  · exact .inl (run_baseline_track_refused hrefused)
  · obtain ⟨hnew, hrpc, hheight⟩ : ¬ ((s.world.db.findOne (docId a 0)).any fun d =>
        d.active = some true) ∧ s.world.rpc = .ok ∧ s.world.heights a ≠ 0 := by
      simpa only [not_or, ne_eq, not_not] using hrefused
    obtain ⟨w₁, d, k, h1, he, htorn⟩ := hs.scan hfit
    right
    rw [run_baseline_track hnew hrpc hheight, hs.getLogs, Proc.run_bind_ok h1]
    obtain ⟨hdb, hchain, -, hheights⟩ := subscribeMerkleEvents_db a w₁
    rcases hsub : (subscribeMerkleEvents a).run w₁ with ⟨r, w₂⟩
    rw [hsub] at hdb hchain hheights
    rcases r with e | u
    · exact ⟨_, w₂, d, k, Proc.run_bind_error hsub, hchain.trans he.chain,
        hheights.trans he.heights, by rw [hdb]; exact he.doc, htorn⟩
    · exact ⟨_, w₂, d, k, Proc.run_bind_ok hsub, hchain.trans he.chain,
        hheights.trans he.heights, by rw [hdb]; exact he.doc, htorn⟩

theorem Traced.track (hs : Traced sha256 a h logs s) :
    Traced sha256 a h logs { s with world := ((baseline_track a).run s.world).2 } := by
  rcases hs.run_track hfit with ⟨r, hrun, -⟩ | ⟨r, w', d, k, hrun, hchain, hheights, hd, htorn⟩
  · rw [hrun]
    exact hs
  · rw [hrun]
    refine { hs with
      emitted := by rw [hchain, hs.emitted]
      height := by rw [hheights, hs.height]
      started := by rw [hchain]; exact hs.started
      doc := fun d' hd' => ?_ }
    obtain rfl : d = d' := Option.some.inj (hd.symm.trans hd')
    exact htorn.held le_rfl

theorem Traced.updateTree (hh : 1 ≤ h) (hs : Traced sha256 a h logs s) :
    Traced sha256 a h logs { s with world := ((CommitMgr.updateTree sha256 a).run s.world).2 } := by
  rcases hd : s.world.db.findOne (docId a 0) with _ | d
  · have hrun : (CommitMgr.updateTree sha256 a).run s.world = (.error .typeError, s.world) := by
      rw [CommitMgr.updateTree, run_findOne_deref, hd]
    rw [hrun]
    exact hs
  · cases hs.doc d hd with
    | bare hbare hnone =>
      have hrun : (CommitMgr.updateTree sha256 a).run s.world
          = (.ok (some zeroRoot), s.world) := by
        rw [CommitMgr.updateTree, run_findOne_deref, hd]
        simp only [hbare.latestLeaf]
        rfl
      rw [hrun]
      exact hs
    | upTo hm htorn hn =>
      have hsize := hs.size
      obtain ⟨w', d', hrun, he, htorn'⟩ := updateTree_torn_run hh
        (by rw [List.length_take]; omega) htorn hd fun log hlog =>
          hs.blocks log (List.mem_of_mem_take (List.mem_of_mem_getLast? hlog))
      rw [hrun]
      refine { hs with
        emitted := by rw [he.chain, hs.emitted]
        height := by rw [he.heights, hs.height]
        started := by rw [he.chain]; exact hs.started
        doc := fun e hd' => ?_ }
      obtain rfl : d' = e := Option.some.inj (he.doc.symm.trans hd')
      refine .upTo hm htorn' ?_
      rw [he.ws_provider]
      exact hn

end Calls

/-- The tree is made inactive once nobody listens. -/
theorem Traced.deactivated (hs : Traced sha256 a h logs s)
    (hnone : a ∉ s.world.ws_provider.getD []) : Traced sha256 a h logs { s with
      world := { s.world with
        db := s.world.db.upsert (docId a 0) { active := some false } } } := by
  refine { hs with doc := fun d' hd' => ?_ }
  rcases hd : s.world.db.findOne (docId a 0) with _ | d
  · rw [Collection.findOne_upsert_none hd] at hd'
    obtain rfl := Option.some.inj hd'
    exact .bare ⟨rfl, rfl, rfl⟩ hnone
  · rw [Collection.findOne_upsert_some hd] at hd'
    obtain rfl := Option.some.inj hd'
    cases hs.doc d hd with
    | bare hbare _ =>
      exact .bare ⟨hbare.nodes, hbare.latestLeaf, hbare.latestRecalculation⟩ hnone
    | upTo hm htorn hn => exact .upTo hm (htorn.reflagged (.inl rfl) false) hn

theorem run_unsubscribeMerkleEvents {u : Unit}
    (hrun : (unsubscribeMerkleEvents a).run w = (.ok u, w')) : w' = w.unlisten a := by
  simp only [unsubscribeMerkleEvents, attempt, Proc.run_await] at hrun
  rw [World.unlisten]
  rcases hp : w.get_ws_provider.ws_provider with _ | listeners
  · simp only [hp] at hrun
    cases hrun
  · simp only [hp] at hrun
    cases hrun
    rfl

theorem Traced.untrack (regExp : Str → Str → Bool) (prune : Bool)
    (hs : Traced sha256 a h logs s) : Traced sha256 a h logs
      { s with world := ((baseline_untrack regExp a prune).run s.world).2 } := by
  unfold baseline_untrack
  simp only [Proc.await_bind, Proc.ret_bind, Proc.run_await]
  split_ifs with hfound hprune
  · exact hs
  all_goals
    have hunsub := (unsubscribeMerkleEvents_within a a).run (Spares.refl a) Spares.trans s.world
    rw [Proc.run_bind]
    rcases hrun : (unsubscribeMerkleEvents a).run s.world with ⟨r, w'⟩
    rw [hrun] at hunsub
    have hs' := hs.spared hunsub
    rcases r with e | u
    · exact hs'
  · exact hs'.spared (spares_deleteMany a _ w')
  · refine Traced.deactivated hs' ?_
    rw [run_unsubscribeMerkleEvents hrun]
    simp [World.unlisten]

/-! ### A block -/

theorem blockLogs_cons_own (a : Str) (n : ℕ) (event : NewLeaf) (t : Str) (b : Block) :
    blockLogs a n (⟨a, event, t⟩ :: b) = ⟨⟨a, event, t⟩, n⟩ :: blockLogs a n b := by
  simp [blockLogs]

/-- A block's leaves follow those that are there. -/
theorem transact_represents (hh : 1 ≤ h) (h32 : h ≤ 32) (n : ℕ) :
    ∀ (transactions : List Transaction) {logs : List Log} {contract : MerkleTreeSHA256},
      MerkleTreeSHA256.Represents (precompile sha256) h (values logs) contract → InOrder logs →
        MerkleTreeSHA256.Represents (precompile sha256) h
          (values (logs ++ blockLogs a n (transact sha256 a transactions contract).2))
          (transact sha256 a transactions contract).1 ∧
        InOrder (logs ++ blockLogs a n (transact sha256 a transactions contract).2)
  | [], logs, contract, hc, ho => by
    have hnil : logs ++ blockLogs a n (transact sha256 a [] contract).2 = logs :=
      List.append_nil logs
    rw [hnil]
    exact ⟨hc, ho⟩
  | .leaf v t :: transactions, logs, contract, hc, ho => by
    have hsize : logs.length ≤ 2 ^ h := by
      rw [← length_values, ← hc.count]
      exact hc.leafCount
    rcases hsize.lt_or_eq with hlt | heq
    · obtain ⟨contract', h1, hc'⟩ := MerkleTreeSHA256.insertLeaf_represents hh (by omega) hc
        (by rwa [length_values]) v
      rw [length_values] at h1
      let log : Log := ⟨⟨a, ⟨logs.length, v, contract'.latestRoot⟩, t⟩, n⟩
      have hvalues : values logs ++ [v.low27] = values (logs ++ [log]) := by
        rw [values, values, List.map_append]
        rfl
      rw [hvalues] at hc'
      have ho' : InOrder (logs ++ [log]) := ho.concat rfl
      have ih := transact_represents hh h32 n transactions hc' ho'
      rw [List.append_assoc, List.singleton_append] at ih
      simp only [transact, h1, blockLogs_cons_own]
      exact ih
    · have hfull : contract.insertLeaf (precompile sha256) v = none :=
        MerkleTreeSHA256.insertLeaf_full
          (by rw [hc.treeWidth, hc.count, length_values, heq]) v
      simp only [transact, hfull]
      exact transact_represents hh h32 n transactions hc ho
  | .other e :: transactions, logs, contract, hc, ho => by
    have ih := transact_represents hh h32 n transactions hc ho
    simp only [transact]
    split_ifs with he
    · exact ih
    · have hskip : ∀ b, blockLogs a n (e :: b) = blockLogs a n b := fun b => by
        simp [blockLogs, he]
      rw [hskip]
      exact ih

/-- The handlers of a listener. -/
theorem handle_logs : ∀ (more : List Log) {d : TreeDoc} {w : World},
    w.db.findOne (docId a 0) = some d →
    (∀ log ∈ more, leafNode d.treeHeight log < BUCKET_SIZE) →
      Evolves a (withLeaves d more) w ((more.map (a, ·)).foldl handle w)
  | [], d, w, hd, _ => Evolves.refl hd
  | log :: more, d, w, hd, hb => by
    obtain ⟨w₁, h1, he₁⟩ := insertLeaf_run hd log.leaf (hb log List.mem_cons_self)
    have hhandle : handle w (a, log) = w₁ := congrArg Prod.snd h1
    rw [List.map_cons, List.foldl_cons, hhandle]
    exact he₁.trans
      (handle_logs more he₁.doc fun log' hmem => hb log' (List.mem_cons_of_mem _ hmem))

theorem handle_logs_none (hd : w.db.findOne (docId a 0) = none) :
    ∀ more : List Log, (more.map (a, ·)).foldl handle w = w
  | [] => rfl
  | log :: more => by
    have hhandle : handle w (a, log) = w := by
      rw [handle, onNewLeaf, insertLeaf, run_findOne_deref, hd]
    rw [List.map_cons, List.foldl_cons, hhandle]
    exact handle_logs_none hd more

theorem handle_logs_spares {x : Str} (hx : a ≠ x) : ∀ (more : List Log) (w : World),
    Spares a w ((more.map (x, ·)).foldl handle w)
  | [], w => Spares.refl a w
  | log :: more, w => by
    have htouch := (insertLeaf_within x log.leaf).run (Touches.refl x) Touches.trans w
    exact (spares_of_touches hx htouch).trans (handle_logs_spares hx more _)

/-- While the handlers of a block run: the document holds the old leaves, and the new ones too
once those of one of the tree's listeners are through. -/
structure Delivering (sha256 : List UInt8 → Bytes 32) (a : Str) (h : ℕ) (logs : List Log) (n : ℕ)
    (listeners todo : List Str) (w₀ w : World) : Prop where
  chain : w.chain = w₀.chain
  heights : w.heights = w₀.heights
  listening : a ∈ w.ws_provider.getD [] → a ∈ listeners
  doc : ∀ d, w.db.findOne (docId a 0) = some d →
    Held sha256 h logs (a ∈ listeners) (if a ∈ todo then n else logs.length) d

theorem Delivering.run (hfit : 2 ^ h ≤ fit h) (ho : InOrder logs) (hsize : logs.length ≤ 2 ^ h)
    {n : ℕ} (hn : n ≤ logs.length) {listeners : List Str} (logsOf : Str → List Log)
    (hown : logsOf a = logs.drop n) {w₀ : World} : ∀ (todo : List Str) {w : World},
      (∀ x ∈ todo, x ∈ listeners) → Delivering sha256 a h logs n listeners todo w₀ w →
        Delivering sha256 a h logs n listeners [] w₀
          ((todo.flatMap fun x => (logsOf x).map (x, ·)).foldl handle w)
  | [], _, _, hdel => hdel
  | x :: todo, w, hsub, hdel => by
    rw [List.flatMap_cons, List.foldl_append]
    refine Delivering.run hfit ho hsize hn logsOf hown todo
      (fun y hy => hsub y (List.mem_cons_of_mem _ hy)) ?_
    by_cases hx : a = x
    · subst hx
      rw [hown]
      rcases hd : w.db.findOne (docId a 0) with _ | d
      · rw [handle_logs_none hd]
        refine ⟨hdel.chain, hdel.heights, hdel.listening, fun d hd' => ?_⟩
        rw [hd] at hd'
        cases hd'
      · have hheld := hdel.doc d hd
        rw [if_pos List.mem_cons_self] at hheld
        cases hheld with
        | bare hbare hnone => exact absurd (hsub a List.mem_cons_self) hnone
        | upTo hm htorn hle =>
          have he := handle_logs (logs.drop n) hd fun log hlog => by
            obtain ⟨p, hp⟩ := List.mem_iff_getElem?.1 (List.mem_of_mem_drop hlog)
            have hlt := (List.getElem?_eq_some_iff.1 hp).1
            rw [leafNode_eq, htorn.treeHeight, ho p log hp, index_lt_bucket_iff]
            omega
          have hall := htorn.replayed ho hsize hm (hle (hsub a List.mem_cons_self))
          refine ⟨he.chain.trans hdel.chain, he.heights.trans hdel.heights, ?_, fun d' hd' => ?_⟩
          · rw [he.ws_provider]
            exact hdel.listening
          · obtain rfl := Option.some.inj (he.doc.symm.trans hd')
            refine hall.held ?_
            split_ifs
            · exact hn
            · exact le_rfl
    · have hspares := handle_logs_spares hx (logsOf x) w
      refine ⟨hspares.chain.trans hdel.chain, hspares.heights.trans hdel.heights,
        fun hmem => hdel.listening (hspares.listening hmem), fun d hd => ?_⟩
      rcases hspares.doc with hsame | hgone
      · have hheld := hdel.doc d (hsame ▸ hd)
        have hiff : a ∈ x :: todo ↔ a ∈ todo := by simp [hx]
        simpa only [hiff] using hheld
      · rw [hgone] at hd
        cases hd

theorem Held.append {listening : Prop} [Decidable listening]
    (hd : Held sha256 h logs listening logs.length d) (more : List Log) :
    Held sha256 h (logs ++ more) listening
      (if listening then logs.length else (logs ++ more).length) d := by
  cases hd with
  | bare hbare hnone => exact .bare hbare hnone
  | upTo hm htorn hn =>
    have htake : (logs ++ more).take _ = logs.take _ := List.take_append_of_le_length hm
    rw [← htake] at htorn
    refine .upTo (hm.trans (by simp)) htorn fun hyes => ?_
    rw [if_pos hyes]
    exact hn hyes

theorem Traced.mine (regExp : Str → Str → Bool) (hh : 1 ≤ h) (h32 : h ≤ 32) (hfit : 2 ^ h ≤ fit h)
    (hs : Traced sha256 a h logs s) (transactions : List Transaction) :
    ∃ logs', Traced sha256 a h logs' (s.occur sha256 regExp a (.mine transactions)) := by
  obtain ⟨hc, ho⟩ := transact_represents hh h32 s.world.chain.length transactions hs.contract
    hs.inOrder
  rcases hb : transact sha256 a transactions s.contract with ⟨contract, b⟩
  rw [hb] at hc ho
  have hsize : (logs ++ blockLogs a s.world.chain.length b).length ≤ 2 ^ h := by
    rw [← length_values, ← hc.count]
    exact hc.leafCount
  have hstart : Delivering sha256 a h (logs ++ blockLogs a s.world.chain.length b) logs.length
      (s.world.ws_provider.getD []) (s.world.ws_provider.getD []) (s.world.mine b)
      (s.world.mine b) :=
    ⟨rfl, rfl, id, fun d hd => (hs.doc d hd).append _⟩
  have hdel := Delivering.run hfit ho hsize (by simp)
    (fun x => blockLogs x s.world.chain.length b) (by simp) (s.world.ws_provider.getD [])
    (fun _ hx => hx) hstart
  have hoccur : s.occur sha256 regExp a (.mine transactions)
      = ⟨contract, (s.world.deliveries b).foldl handle (s.world.mine b)⟩ := by
    simp only [Session.occur, hb]
  refine ⟨logs ++ blockLogs a s.world.chain.length b, ?_⟩
  rw [hoccur]
  refine ⟨hc, ?_, ho, fun log hlog => ?_, hdel.heights ▸ hs.height, ?_, fun d hd => ?_⟩
  · have hemitted := logsFrom_append (a := a) s.world.chain 0 b
    rw [hs.emitted, Nat.zero_add] at hemitted
    exact (congrArg (logsFrom a 0) hdel.chain).trans hemitted
  · rcases List.mem_append.1 hlog with hmem | hmem
    · exact hs.blocks log hmem
    · rw [mem_blockLogs hmem]
      exact hs.started
  · have hlen : (s.world.mine b).chain.length = s.world.chain.length + 1 := by simp [World.mine]
    exact (congrArg List.length hdel.chain).trans hlen ▸ Nat.le_add_left 1 _
  · have hheld := hdel.doc d hd
    rw [if_neg (List.not_mem_nil)] at hheld
    exact hheld.mono hdel.listening

theorem Traced.occur (regExp : Str → Str → Bool) (hh : 1 ≤ h) (h32 : h ≤ 32)
    (hfit : 2 ^ h ≤ fit h) (hs : Traced sha256 a h logs s) (o : Occurrence) :
    ∃ logs', Traced sha256 a h logs' (s.occur sha256 regExp a o) := by
  cases o with
  | mine transactions => exact hs.mine regExp hh h32 hfit transactions
  | track x =>
    by_cases hx : a = x
    · exact ⟨logs, hx ▸ hs.track hfit⟩
    · exact ⟨logs, hs.spared ((baseline_track_within hx).run (Spares.refl a) Spares.trans _)⟩
  | untrack x prune =>
    by_cases hx : a = x
    · exact ⟨logs, hx ▸ hs.untrack regExp prune⟩
    · exact ⟨logs, hs.spared
        ((baseline_untrack_within regExp hx prune).run (Spares.refl a) Spares.trans _)⟩
  | updateTree x =>
    by_cases hx : a = x
    · exact ⟨logs, hx ▸ hs.updateTree hfit hh⟩
    · exact ⟨logs, hs.spared
        (spares_of_touches hx ((updateTree_within x).run (Touches.refl x) Touches.trans _))⟩
  | client rpc => exact ⟨logs, hs.spared ⟨.inl rfl, rfl, rfl, id⟩⟩
  | connection wsUp => exact ⟨logs, hs.spared ⟨.inl rfl, rfl, rfl, id⟩⟩
  | drop => exact ⟨logs, hs.spared ⟨.inl rfl, rfl, rfl, fun hmem => by cases hmem⟩⟩

theorem Traced.occurs (regExp : Str → Str → Bool) (hh : 1 ≤ h) (h32 : h ≤ 32)
    (hfit : 2 ^ h ≤ fit h) {logs : List Log} {s : Session} (hs : Traced sha256 a h logs s) :
    ∀ history : List Occurrence,
      ∃ logs', Traced sha256 a h logs' (s.occurs sha256 regExp a history)
  | [] => ⟨logs, hs⟩
  | o :: history => by
    obtain ⟨logs', hs'⟩ := hs.occur regExp hh h32 hfit o
    exact hs'.occurs regExp hh h32 hfit history

theorem traced_start (h32 : h ≤ 32) (hheight : w.heights a = h)
    (hnew : w.db.findOne (docId a 0) = none) (hchain : 1 ≤ w.chain.length)
    (hquiet : logsFrom a 0 w.chain = []) : Traced sha256 a h [] ⟨MerkleTreeSHA256.new h, w⟩ where
  contract := MerkleTreeSHA256.new_represents (by omega)
  emitted := hquiet
  inOrder p log hp := by cases hp
  blocks log hlog := by cases hlog
  height := hheight
  started := hchain
  doc d hd := by
    rw [hnew] at hd
    cases hd

/-! ## What a tracked tree has -/

theorem storedLeaves_eq (hw : w.db.findOne (docId a 0) = some d) (hd : LeafRow h logs d)
    (ho : InOrder logs) (hs : ∀ p log, logs[p]? = some log → Stored h d p log) :
    storedLeaves a w = logs.map fun log => log.leaf.toNode := by
  have hall : leavesBetween d.nodes 0 logs.length = _ :=
    leavesBetween_eq hd ho fun p log _ _ => hs p log
  rw [List.take_of_length_le (by omega), List.drop_zero] at hall
  rw [storedLeaves, nodesAt_eq hw, Option.getD_some, ← hall, leavesBetween]
  refine List.filterMap_congr fun node hmem => ?_
  obtain ⟨j, hj⟩ := List.mem_iff_getElem?.1 hmem
  have hentry := entry_of_getElem? hj
  rcases node with _ | node
  · rfl
  rw [Option.filter_some, Option.filter_some]
  rcases Nat.lt_or_ge j (2 ^ h - 1) with hlt | hge
  · rw [hd.inner j node hlt hentry]
    rfl
  · obtain ⟨p, rfl⟩ := Nat.exists_eq_add_of_le hge
    rw [← index_leaf] at hentry
    obtain ⟨log, hlog, rfl⟩ := hd.leaf p node hentry
    have hlt := (List.getElem?_eq_some_iff.1 hlog).1
    have hidx : log.leaf.toNode.leafIndex = some p := congrArg some (ho p log hlog)
    rw [hidx]
    simp [hlt.le]

end Traced

/-- Whatever happened before, and whichever leaves were missed, after a `baseline_track` that comes
to its end the tree has all leaves, and an update returns the contract's root. -/
theorem baseline_track_converges (sha256 : List UInt8 → Bytes 32) (regExp : Str → Str → Bool)
    {h : ℕ} (hh : 1 ≤ h) (hb : 2 ^ (h + 1) - 1 ≤ BUCKET_SIZE) (contractAddress : Str) {w : World}
    (hheight : w.heights contractAddress = h)
    (hnew : w.db.findOne (docId contractAddress 0) = none) (hchain : 1 ≤ w.chain.length)
    (hquiet : logsFrom contractAddress 0 w.chain = []) (history : List Occurrence) :
    let s := Session.occurs sha256 regExp contractAddress ⟨MerkleTreeSHA256.new h, w⟩ history
    let logs := logsFrom contractAddress 0 s.world.chain
    let r := (baseline_track contractAddress).run s.world
    r.1 = .ok ⟨none, some true⟩ →
      storedLeaves contractAddress r.2 = logs.map (fun log => log.leaf.toNode) ∧
      latestLeafAt contractAddress r.2 = some (latestLeafOf logs) ∧
      ((updateTree sha256 contractAddress).run r.2).1
        = .ok (some (hexlify s.contract.latestRoot)) := by
  intro s logs r hr
  have hfit := le_fit hb
  have h30 : h ≤ 30 := height_le (lt_of_lt_of_le (by positivity) hfit)
  have h32 := h30.trans (show 30 ≤ 32 by norm_num)
  have hstart : Traced sha256 contractAddress h [] ⟨MerkleTreeSHA256.new h, w⟩ :=
    traced_start h32 hheight hnew hchain hquiet
  obtain ⟨logs', hs⟩ := hstart.occurs regExp hh h32 hfit history
  obtain rfl : logs = logs' := hs.emitted
  rcases hs.run_track hfit with ⟨e, hrun, hne⟩ | ⟨e, w', d, k, hrun, -, -, hd, htorn⟩
  · rw [show r = (e, s.world) from hrun] at hr
    exact absurd hr hne
  · rw [show r = (e, w') from hrun]
    obtain ⟨w'', d', hup, -, -⟩ := updateTree_torn_run hh (hs.size.trans hfit) htorn hd
      fun log hlog => hs.blocks log (List.mem_of_mem_getLast? hlog)
    refine ⟨storedLeaves_eq hd htorn.toLeafRow hs.inOrder htorn.stored, ?_, ?_⟩
    · rw [latestLeafAt_eq hd, htorn.latestLeaf]
    · rw [hup, rootText, hs.contract.root]
      split_ifs
      · rw [zeroRoot_eq_hexlify]
      · rfl

/-- The second leaf comes while the tree is not tracked. -/
theorem baseline_track_converges_missed :
    let a := contractOf 'a'
    let start : Session := ⟨MerkleTreeSHA256.new 1, { newWorld 1 with chain := [[]] }⟩
    let s := start.occurs Sha256.digest matchesText a
      [.track a, .mine [.leaf (Bytes.fill 32 1) []], .updateTree a, .untrack a false,
        .mine [.leaf (Bytes.fill 32 2) []]]
    let r := (baseline_track a).run s.world
    storedLeaves a r.2 = (logsFrom a 0 s.world.chain).map (fun log => log.leaf.toNode) ∧
      latestLeafAt a r.2 = some (latestLeafOf (logsFrom a 0 s.world.chain)) ∧
      ((updateTree Sha256.digest a).run r.2).1 = .ok (some (hexlify s.contract.latestRoot)) :=
  baseline_track_converges Sha256.digest matchesText le_rfl (by decide) (contractOf 'a')
    (w := { newWorld 1 with chain := [[]] }) rfl (by decide) (by decide) rfl _ rfl

end CommitMgr

end Baseline
