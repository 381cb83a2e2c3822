import Baseline.Proofs.Handlers
import Baseline.Proofs.Restart

/-!
# From the scan to the listener

`baseline_track` runs alone until its listener is there (`Before`), and the leaves of the old logs
are in when it has got so far (`trackScan_safe`); from then on every new leaf has a handler
(`After`). A leaf mined between the scan and the listener is in neither, so no leaf is lost if none
is mined there and the handlers do not overwrite each other's nodes (`handoff_stored`).
-/

namespace Baseline

open Await HashTree

namespace CommitMgr

/-! ## The scan -/

/-- `baseline_track` up to its listener: what it answers early, or nothing yet. -/
def trackScan (a : Str) : Js (Reply Bool ⊕ Unit) := do
  let merkleTree ← Js.findOne .track_tree (docId a 0)
  if merkleTree.any fun merkleTree => merkleTree.active = some true then
    return .inl ⟨some (internalError ("Already tracking MerkleTree at address ".toList ++ a)), none⟩
  else
    match ← jsonrpc .track_treeHeight fun w => w.heights a with
    | .error e => return .inl ⟨some e, none⟩
    | .result treeHeight =>
      if treeHeight = 0 then
        return .inl
          ⟨some (internalError "Could not retreive treeHeight from blockchain".toList), none⟩
      else do
        .await .track_upsert (fun w => ((), { w with
          db := w.db.upsert (docId a 0)
            { treeHeight := some treeHeight, active := some true } })) .ret
        checkChainLogs a (some 0)
        return .inr ()

def trackEnd (a : Str) : Reply Bool ⊕ Unit → Js Unit
  | .inl _ => .ret ()
  | .inr () => subscribeMerkleEvents a >>= fun _ => .ret ()

theorem track_eq (a : Str) :
    (baseline_track a >>= fun _ => .ret ()) = trackScan a >>= trackEnd a := by
  unfold baseline_track trackScan
  simp only [Js.findOne, Proc.await_bind, Proc.ret_bind]
  refine congrArg _ (funext fun merkleTree => ?_)
  split_ifs
  · rfl
  simp only [Proc.bind_assoc]
  refine congrArg _ (funext fun response => ?_)
  rcases response with treeHeight | e
  · simp only []
    split_ifs
    · rfl
    · simp only [Proc.await_bind, Proc.bind_assoc]
      rfl
  · rfl

/-- What holds as long as the listener is not there. -/
structure Scanning (a : Str) (h : ℕ) (all : List Log) (w : World) : Prop where
  rpc : w.rpc = .ok
  heights : w.heights a = h
  provider : w.get_ws_provider.ws_provider = some []
  logs : World.getLogs a 0 w <+: all

/-- Only the chain changes while `baseline_track` waits, and once it has the old logs there are no
new ones. -/
def scanDiscipline (a : Str) (h : ℕ) (all : List Log) : Discipline AwaitPoint World where
  inv := Scanning a h all
  pre _ _ := True
  fits _ _ := False
  rely l w w' := w'.db = w.db ∧ (l.isAfterScan → World.getLogs a 0 w' = World.getLogs a 0 w)
  guar _ w w' := w'.chain = w.chain
  rely_refl _ _ := ⟨rfl, fun _ => rfl⟩
  rely_trans h₁ h₂ := ⟨h₂.1.trans h₁.1, fun hl => (h₂.2 hl).trans (h₁.2 hl)⟩
  rely_of_guar hfits := hfits.elim

/-- The old logs are in. -/
def Scanned (a : Str) (h : ℕ) (r : Except JsError (Reply Bool ⊕ Unit)) (w : World) : Prop :=
  r = .ok (.inr ()) ∧ ∃ d, w.db.findOne (docId a 0) = some d ∧ d.treeHeight = h ∧
    ∀ log ∈ World.getLogs a 0 w, entry d.nodes (leafNode h log) = some log.leaf.toNode

section Scan

variable {a : Str} {h : ℕ} {all : List Log} {d : TreeDoc} {w : World}

theorem insertLeaf_scan_safe (hd : w.db.findOne (docId a 0) = some d) {log : Log}
    (hb : leafNode d.treeHeight log < BUCKET_SIZE) :
    (scanDiscipline a h all).Safe (fun r w' => r = .ok () ∧
      w'.db.findOne (docId a 0) = some (withLeaf d log.leaf) ∧
      World.getLogs a 0 w' = World.getLogs a 0 w) (insertLeaf a log.leaf) w := by
  unfold insertLeaf
  refine safe_findOne_deref fun w₁ hr₁ _ _ => ⟨rfl, d, hr₁.1 ▸ hd, ?_⟩
  simp only []
  rw [calculateBucket_eq (by exact hb)]
  refine safe_findOne_deref fun w₂ hr₂ _ _ => ⟨rfl, d, ?_, ?_⟩
  · rw [hr₂.1, hr₁.1]
    exact hd
  refine safe_updateOne fun w₃ hr₃ hi₃ _ =>
    ⟨⟨hi₃.rpc, hi₃.heights, hi₃.provider, hi₃.logs⟩, rfl, ?_⟩
  have hd₃ : w₃.db.findOne (docId a 0) = some d := by
    rw [hr₃.1, hr₂.1, hr₁.1]
    exact hd
  intro w₄ hr₄ hi₄ _
  refine ⟨⟨hi₄.rpc, hi₄.heights, hi₄.provider, hi₄.logs⟩, rfl, rfl, ?_, ?_⟩
  · have hd₄ := findOne_updated hd₃ { nodes := some (setEntry d.nodes
      (leafIndexToNodeIndex d.treeHeight log.leaf.leafIndex) log.leaf.toNode) }
    exact findOne_updated (hr₄.1 ▸ hd₄) _
  · have h4 : World.getLogs a 0 w₄ = World.getLogs a 0 w₃ := hr₄.2 rfl
    have h3 : World.getLogs a 0 w₃ = World.getLogs a 0 w₂ := hr₃.2 rfl
    exact h4.trans (h3.trans ((hr₂.2 rfl).trans (hr₁.2 rfl)))

theorem insertLogs_scan_safe : ∀ (logs : List Log) {d : TreeDoc} {w : World},
    w.db.findOne (docId a 0) = some d → (∀ log ∈ logs, leafNode d.treeHeight log < BUCKET_SIZE) →
      (scanDiscipline a h all).Safe (fun r w' => r = .ok () ∧
        w'.db.findOne (docId a 0) = some (withLeaves d logs) ∧
        World.getLogs a 0 w' = World.getLogs a 0 w) (insertLogs a logs) w
  | [], d, w, hd, _ => ⟨rfl, hd, rfl⟩
  | log :: logs, d, w, hd, hb => by
    refine Discipline.Safe.bind (fun _ v hv => ?_) (fun _ _ hv => by cases hv.1)
      (insertLeaf_scan_safe hd (hb log List.mem_cons_self))
    refine (insertLogs_scan_safe logs hv.2.1
      fun log' hmem => hb log' (List.mem_cons_of_mem _ hmem)).mono fun r v' hv' => ?_
    exact ⟨hv'.1, hv'.2.1, hv'.2.2.trans hv.2.2⟩

theorem trackScan_safe (hh : h ≠ 0) (hinc : Increasing all)
    (hb : ∀ log ∈ all, leafNode h log < BUCKET_SIZE)
    (hinactive : ∀ d, w.db.findOne (docId a 0) = some d → d.active ≠ some true) :
    (scanDiscipline a h all).Safe (Scanned a h) (trackScan a) w := by
  intro w₁ hr₁ hi₁ _
  refine ⟨hi₁, rfl, ?_⟩
  have hnot :
      ¬ (w₁.db.findOne (docId a 0)).any fun merkleTree => merkleTree.active = some true := by
    rw [hr₁.1]
    rcases hf : w.db.findOne (docId a 0) with _ | d
    · simp
    · simpa using hinactive d hf
  change (scanDiscipline a h all).Safe (Scanned a h) (ite _ _ _) w₁
  rw [if_neg hnot]
  refine safe_jsonrpc fun w₂ _ hi₂ _ => ⟨hi₂.rpc, rfl, ?_⟩
  simp only [hi₂.heights, if_neg hh]
  intro w₃ _ hi₃ _
  refine ⟨⟨hi₃.rpc, hi₃.heights, hi₃.provider, hi₃.logs⟩, rfl, ?_⟩
  obtain ⟨d, hd, hheight⟩ : ∃ d, (w₃.db.upsert (docId a 0)
      { treeHeight := some h, active := some true }).findOne (docId a 0) = some d ∧
      d.treeHeight = h := by
    obtain ⟨e, he⟩ := Collection.exists_upsert w₃.db (docId a 0)
      { treeHeight := some h, active := some true }
    exact ⟨_, he, rfl⟩
  change (scanDiscipline a h all).Safe (Scanned a h)
    (checkChainLogs a (some 0) >>= fun _ => Proc.ret (.inr ())) _
  unfold checkChainLogs
  rw [Proc.bind_assoc]
  refine safe_jsonrpc fun w₄ hr₄ hi₄ _ => ⟨hi₄.rpc, rfl, ?_⟩
  have hd₄ : w₄.db.findOne (docId a 0) = some d := by
    rw [hr₄.1]
    exact hd
  have hfit : ∀ log ∈ World.getLogs a 0 w₄,
      leafNode d.treeHeight log < BUCKET_SIZE := fun log hlog =>
    hheight ▸ hb log (hi₄.logs.subset hlog)
  refine Discipline.Safe.bind (fun _ v hv => ?_) (fun _ _ hv => by cases hv.1)
    (insertLogs_scan_safe (World.getLogs a 0 w₄) hd₄ hfit)
  refine ⟨rfl, _, hv.2.1, by rw [withLeaves_treeHeight, hheight], fun log hlog => ?_⟩
  rw [hv.2.2] at hlog
  have hinc' : Increasing (World.getLogs a 0 w₄) := hinc.sublist hi₄.logs.sublist
  rw [← hheight]
  exact entry_withLeaves _ d hinc' log hlog

end Scan

/-! ## Before the listener -/

/-- `baseline_track` is under way, alone. -/
structure Before (a : Str) (h : ℕ) (all : List Log) (P : Calls) : Prop where
  inv : Scanning a h all P.state
  track : ∃ q, P.procs = [q >>= trackEnd a] ∧
    (scanDiscipline a h all).Safe (Scanned a h) q P.state

/-- The leaf a handler is there for, the first one that of leaf `m`, is in when it has ended. -/
def Later (a : Str) (h : ℕ) (all : List Log) (m : ℕ) :
    ℕ → Except JsError Unit → World → Prop
  | 0, _, _ => True
  | j + 1, _, w => ∀ log, all[m + j]? = some log →
      entryAt a w (leafNode h log) = some log.leaf.toNode

/-- The listener is there: the first `m` leaves were found in the scan, and every later one has a
handler. -/
structure After (a : Str) (h : ℕ) (all : List Log) (d : TreeDoc) (m : ℕ) (P : Calls) : Prop where
  treeHeight : d.treeHeight = h
  provider : P.state.ws_provider = some [a]
  scanned : ∀ p log, p < m → all[p]? = some log →
    entry d.nodes (leafNode h log) = some log.leaf.toNode
  pos : 0 < P.procs.length
  count : P.procs.length + m = (World.getLogs a 0 P.state).length + 1
  kept : (leafDiscipline a d all).Kept (Later a h all m) P

section Phases

variable {a : Str} {h : ℕ} {all : List Log} {d : TreeDoc} {m : ℕ} {P : Calls}

theorem logsFrom_append : ∀ (blocks : List Block) (n : ℕ) (b : Block),
    logsFrom a n (blocks ++ [b]) = logsFrom a n blocks ++ blockLogs a (n + blocks.length) b
  | [], n, b => by simp [logsFrom]
  | c :: blocks, n, b => by
    rw [List.cons_append, logsFrom, logsFrom, logsFrom_append blocks (n + 1) b, List.append_assoc,
      List.length_cons, show n + 1 + blocks.length = n + (blocks.length + 1) by omega]

theorem getLogs_mine (a : Str) (w : World) (b : Block) : World.getLogs a 0 (w.mine b)
    = World.getLogs a 0 w ++ blockLogs a w.chain.length b := by
  have h := logsFrom_append (a := a) w.chain 0 b
  rw [Nat.zero_add] at h
  exact h

theorem blockLogs_eq_nil {n : ℕ} {b : Block} (hb : ∀ e ∈ b, e.address ≠ a) :
    blockLogs a n b = [] := by
  rw [blockLogs, List.map_eq_nil_iff, List.filter_eq_nil_iff]
  simpa using hb

theorem getD_eq_nil_of_provider {w : World} (hw : w.get_ws_provider.ws_provider = some []) :
    w.ws_provider.getD [] = [] := by
  rcases hp : w.ws_provider with _ | listeners
  · rfl
  · rw [World.get_ws_provider, hp] at hw
    exact Option.some.inj hw

theorem Before.mine (hP : Before a h all P) {b : Block}
    (hb : (P.pointOf 0).any AwaitPoint.isAfterScan → ∀ e ∈ b, e.address ≠ a)
    (hall : World.getLogs a 0 (P.state.mine b) <+: all) : Before a h all (mined P b) := by
  obtain ⟨q, hq, hsafe⟩ := hP.track
  have hpoint : P.pointOf 0 = (q >>= trackEnd a).point := by rw [Pool.pointOf, hq]; rfl
  have hnew : (P.pointOf 0).any AwaitPoint.isAfterScan →
      World.getLogs a 0 (P.state.mine b) = World.getLogs a 0 P.state := fun hafter => by
    rw [getLogs_mine, blockLogs_eq_nil (hb hafter), List.append_nil]
  have hprocs : (mined P b).procs = [q >>= trackEnd a] := by
    have hnone : P.state.deliveries b = [] := by
      rw [World.deliveries, getD_eq_nil_of_provider hP.inv.provider]
      rfl
    simp only [mined, Pool.spawn, Pool.setState, hnone, List.map_nil, List.append_nil, hq]
  refine ⟨⟨hP.inv.rpc, hP.inv.heights, hP.inv.provider, hall⟩, q, hprocs, ?_⟩
  cases q with
  | throw e => cases hsafe.1
  | ret r =>
    obtain ⟨hr, d, hd, hheight, hin⟩ := hsafe
    obtain rfl : r = .inr () := Except.ok.inj hr
    refine ⟨rfl, d, hd, hheight, fun log hlog => hin log ?_⟩
    rwa [show World.getLogs a 0 (mined P b).state = World.getLogs a 0 P.state from
      hnew (by rw [hpoint]; rfl)] at hlog
  | await l op k =>
    refine Discipline.Safe.of_rely hsafe rfl ⟨rfl, fun hl => hnew ?_⟩
    rw [hpoint]
    exact hl

/-- The listener is registered once the old logs are in. -/
theorem Before.subscribe (hinv : Scanning a h all P.state)
    (hq : P.procs = [trackEnd a (.inr ())]) (hs : Scanned a h (.ok (.inr ())) P.state) :
    ∃ d m, After a h all d m (P.step 0) ∧ (P.step 0).state.chain = P.state.chain := by
  obtain ⟨-, d, hd, hheight, hin⟩ := hs
  have hstep : P.step 0
      = ⟨{ P.state.get_ws_provider with ws_provider := some [a] }, [Proc.ret ()]⟩ := by
    simp only [Pool.step, hq, List.getElem?_cons_zero, trackEnd, subscribeMerkleEvents, attempt,
      Proc.await_bind, Proc.serve, hinv.provider, List.nil_append, List.set_cons_zero,
      Proc.ret_bind]
  refine ⟨d, (World.getLogs a 0 P.state).length, ?_, by rw [hstep]; rfl⟩
  rw [hstep]
  refine ⟨hheight, rfl, fun p log hp hlog => hin log ?_, Nat.one_pos, ?_,
    ⟨d, hd, Filling.refl d all⟩, fun i p hp => ?_⟩
  · obtain ⟨more, hmore⟩ := hinv.logs
    rw [← hmore, List.getElem?_append_left hp] at hlog
    exact List.mem_of_getElem? hlog
  · rw [List.length_singleton, Nat.add_comm]
    rfl
  · rcases i with _ | i
    · cases hp
      trivial
    · cases hp

theorem Before.serve (hP : Before a h all P) (i : ℕ) :
    (Before a h all (P.step i) ∨ ∃ d m, After a h all d m (P.step i)) ∧
      (P.step i).state.chain = P.state.chain := by
  obtain ⟨q, hq, hsafe⟩ := hP.track
  rcases i with _ | i
  · cases q with
    | throw e => cases hsafe.1
    | ret r =>
      obtain rfl : r = .inr () := Except.ok.inj hsafe.1
      obtain ⟨d, m, h1, h2⟩ := Before.subscribe hP.inv hq hsafe
      exact ⟨.inr ⟨d, m, h1⟩, h2⟩
    | await l op k =>
      obtain ⟨hinv, hguar, hsafe'⟩ := Discipline.Safe.serve hsafe rfl hP.inv trivial
      have hstep : P.step 0 = ⟨(op P.state).2, [k (op P.state).1 >>= trackEnd a]⟩ := by
        rw [Pool.step, hq]
        rfl
      rw [hstep]
      exact ⟨.inl ⟨hinv, _, rfl, hsafe'⟩, hguar⟩
  · have hstep : P.step (i + 1) = P := by
      rw [Pool.step, hq]
      rfl
    rw [hstep]
    exact ⟨.inl hP, rfl⟩

/-! ## After it -/

theorem After.mine (hP : After a h all d m P) (hinc : Increasing all)
    (hb : ∀ log ∈ all, leafNode h log < BUCKET_SIZE) {b : Block}
    (hall : World.getLogs a 0 (P.state.mine b) <+: all) : After a h all d m (mined P b) := by
  have hdel : P.state.deliveries b
      = (blockLogs a P.state.chain.length b).map fun log => (a, log) := by
    rw [World.deliveries, hP.provider, Option.getD_some, List.flatMap_singleton]
  have hprocs : (mined P b).procs
      = P.procs ++ (blockLogs a P.state.chain.length b).map (onNewLeaf a) := by
    simp only [mined, Pool.spawn, Pool.setState, hdel, List.map_map]
    rfl
  have hcount := hP.count
  have hpos := hP.pos
  refine ⟨hP.treeHeight, hP.provider, hP.scanned, ?_, ?_, ?_⟩
  · rw [hprocs, List.length_append]
    omega
  · rw [hprocs, List.length_append, List.length_map,
      show World.getLogs a 0 (mined P b).state = _ from getLogs_mine a P.state b,
      List.length_append]
    omega
  · have hkept := hP.kept.setState (s := P.state.mine b) hP.kept.inv
      (fun l => ⟨fun _ _ hlog => hlog, fun _ => rfl⟩) (fun j r hr => by cases j <;> exact hr)
    refine hkept.spawn fun k p hp => ?_
    rw [hdel, List.map_map, List.getElem?_map, Option.map_eq_some_iff] at hp
    obtain ⟨log, hlog, rfl⟩ := hp
    have hnext : all[(World.getLogs a 0 P.state).length + k]? = some log := by
      obtain ⟨more, hmore⟩ := hall
      have hk := (List.getElem?_eq_some_iff.1 hlog).1
      rw [← hmore, getLogs_mine, List.append_assoc, List.getElem?_append_right (by omega),
        Nat.add_sub_cancel_left, List.getElem?_append_left hk]
      exact hlog
    have hmem := List.mem_of_getElem? hnext
    refine (onNewLeaf_safe hinc hmem (by rw [hP.treeHeight]; exact hb log hmem) _).mono
      fun r v hv => ?_
    obtain ⟨j, hj⟩ : ∃ j, P.procs.length + k = j + 1 := ⟨P.procs.length + k - 1, by omega⟩
    change Later a h all m (P.procs.length + k) r v
    rw [hj]
    intro log' hlog'
    rw [show m + j = (World.getLogs a 0 P.state).length + k by omega, hnext,
      Option.some.injEq] at hlog'
    rw [← hlog', ← hP.treeHeight]
    exact hv.2.1

theorem later_of_guar (j : ℕ) (r : Except JsError Unit) (l : AwaitPoint) (w w' : World)
    (hg : (leafDiscipline a d all).guar l w w') (hd : d.treeHeight = h)
    (hQ : Later a h all m j r w) : Later a h all m j r w' := by
  subst hd
  cases j with
  | zero => trivial
  | succ j => exact fun log hlog => hg.1 log (List.mem_of_getElem? hlog) (hQ log hlog)

theorem After.serve (hP : After a h all d m P) {i : ℕ} (hi : NodesApart P i) :
    After a h all d m (P.step i) ∧ (P.step i).state.chain = P.state.chain := by
  have hA : (leafDiscipline a d all).Allows (fun _ _ => True) P i :=
    allows_of_apart hi fun _ _ _ _ _ => trivial
  have hsame : (P.step i).state.chain = P.state.chain ∧
      (P.step i).state.ws_provider = P.state.ws_provider := by
    rcases hl : P.pointOf i with _ | l
    · rw [Discipline.step_of_none hl]
      exact ⟨rfl, rfl⟩
    · exact (hP.kept.guar hA hl).2.2.2
  refine ⟨⟨hP.treeHeight, hsame.2.trans hP.provider, hP.scanned, ?_, ?_, ?_⟩, hsame.1⟩
  · rw [Discipline.length_step]
    exact hP.pos
  · rw [Discipline.length_step, getLogs_congr hsame.1]
    exact hP.count
  · exact hP.kept.step (fun j r l w w' _ hg hQ => later_of_guar j r l w w' hg hP.treeHeight hQ) hA

/-! ## The whole run -/

theorem prefix_of_chain {w : World} {blocks : List Block}
    (hall : logsFrom a 0 (w.chain ++ blocks) = all) : World.getLogs a 0 w <+: all := by
  subst hall
  have happend : ∀ (cs bs : List Block) (n : ℕ), logsFrom a n cs <+: logsFrom a n (cs ++ bs) := by
    intro cs bs
    induction cs with
    | nil => exact fun n => List.nil_prefix
    | cons c cs ih => exact fun n => (List.prefix_append_right_inj _).2 (ih (n + 1))
  exact happend w.chain blocks 0

theorem happen_run (hinc : Increasing all) (hb : ∀ log ∈ all, leafNode h log < BUCKET_SIZE) :
    ∀ (events : List Event) {P : Calls}, (Before a h all P ∨ ∃ d m, After a h all d m P) →
      logsFrom a 0 (P.state.chain ++ minedBlocks events) = all →
      Along happen (HandoffApart a) P events →
      (Before a h all (events.foldl happen P) ∨
        ∃ d m, After a h all d m (events.foldl happen P)) ∧
        World.getLogs a 0 (events.foldl happen P).state = all
  | [], P, hP, hall, _ => by
    refine ⟨hP, ?_⟩
    rw [minedBlocks, List.filterMap_nil, List.append_nil] at hall
    exact hall
  | .mine b :: events, P, hP, hall, ⟨hA, hrest⟩ => by
    have hall' : logsFrom a 0 ((mined P b).state.chain ++ minedBlocks events) = all := by
      change logsFrom a 0 (P.state.chain ++ [b] ++ minedBlocks events) = all
      rw [List.append_assoc]
      exact hall
    refine happen_run hinc hb events ?_ hall' hrest
    rcases hP with hP | ⟨d, m, hP⟩
    · exact .inl (hP.mine hA (prefix_of_chain hall'))
    · exact .inr ⟨d, m, hP.mine hinc hb (prefix_of_chain hall')⟩
  | .serve i :: events, P, hP, hall, ⟨hA, hrest⟩ => by
    rcases hP with hP | ⟨d, m, hP⟩
    · obtain ⟨hnext, hchain⟩ := hP.serve i
      exact happen_run hinc hb events hnext (by rw [happen, hchain]; exact hall) hrest
    · obtain ⟨hnext, hchain⟩ := hP.serve hA
      exact happen_run hinc hb events (.inr ⟨d, m, hnext⟩) (by rw [happen, hchain]; exact hall)
        hrest

theorem Before.not_ended (hP : Before a h all P) : ¬ P.Ended := by
  intro hend
  obtain ⟨q, hq, hsafe⟩ := hP.track
  have hpoint := hend _ (by rw [hq]; exact List.mem_singleton_self _)
  cases q with
  | throw e => cases hsafe.1
  | ret r =>
    obtain rfl : r = .inr () := Except.ok.inj hsafe.1
    cases hpoint
  | await l op k => cases hpoint

/-- With every handler through, all leaves are in. -/
theorem After.all_stored (hP : After a h all d m P) (hend : P.Ended) (ho : InOrder all)
    (hall : World.getLogs a 0 P.state = all) :
    ∃ d', P.state.db.findOne (docId a 0) = some d' ∧
      ∀ p log, all[p]? = some log → Stored h d' p log := by
  obtain ⟨d', hd', hf⟩ := hP.kept.inv
  have hcount := hP.count
  rw [hall] at hcount
  refine ⟨d', hd', fun p log hlog => ?_⟩
  have hnode : leafNode h log = index h 0 p := by rw [leafNode_eq, ho p log hlog]
  rw [Stored, ← hnode]
  have hp := (List.getElem?_eq_some_iff.1 hlog).1
  rcases Nat.lt_or_ge p m with hlt | hge
  · have hfirst := hP.scanned p log hlt hlog
    have hlast := entry_withLeaves all d ho.increasing log (List.mem_of_getElem? hlog)
    rw [hP.treeHeight] at hlast
    rcases hf.entry (leafNode h log) with h1 | h1
    · rw [h1, hfirst]
    · rw [h1, hlast]
  · obtain ⟨r, hr⟩ := hP.kept.ended hend (i := p - m + 1) (by omega)
    have hin := hr log (by rw [Nat.add_sub_cancel' hge]; exact hlog)
    rwa [entryAt_eq hd'] at hin

end Phases

/-- Whatever is mined while `baseline_track` runs and after it, all leaves are stored once the
handlers are through, if none is mined between the answer to `eth_getLogs` and the registration of
the listener and the handlers' writes of `nodes` stay apart. -/
theorem handoff_stored (contractAddress : Str) {w : World} (hrpc : w.rpc = .ok)
    (hws : w.get_ws_provider.ws_provider = some []) (hh : 1 ≤ w.heights contractAddress)
    (hinactive : ∀ d, w.db.findOne (docId contractAddress 0) = some d → d.active ≠ some true)
    {events : List Event} {logs : List Log}
    (hlogs : logsFrom contractAddress 0 (w.chain ++ minedBlocks events) = logs)
    (ho : InOrder logs) (hb : ∀ log ∈ logs,
      leafIndexToNodeIndex (w.heights contractAddress) log.event.leafIndex < BUCKET_SIZE)
    (hA : Along happen (HandoffApart contractAddress) (tracking contractAddress w) events)
    (hend : (events.foldl happen (tracking contractAddress w)).Ended) :
    ∃ d, (events.foldl happen (tracking contractAddress w)).state.db.findOne
        (docId contractAddress 0) = some d ∧
      ∀ p log, logs[p]? = some log → Stored (w.heights contractAddress) d p log := by
  have hbefore : Before contractAddress (w.heights contractAddress) logs
      (tracking contractAddress w) := by
    refine ⟨⟨hrpc, rfl, hws, prefix_of_chain hlogs⟩, trackScan contractAddress, ?_, ?_⟩
    · rw [tracking, track_eq]
    · exact trackScan_safe (by omega) ho.increasing hb hinactive
  obtain ⟨hP, hall⟩ := happen_run ho.increasing hb events (.inl hbefore) hlogs hA
  rcases hP with hP | ⟨d, m, hP⟩
  · exact absurd hend hP.not_ended
  · exact hP.all_stored hend ho hall

/-- A leaf that is there before the call and one that is mined after it. -/
theorem handoff_stored_two :
    let event (i : ℕ) : Emitted := ⟨[], ⟨i, Bytes.fill 32 7, Bytes.zeros 32⟩, []⟩
    let events : List Event :=
      List.replicate 9 (.serve 0) ++ .mine [event 1] :: List.replicate 4 (.serve 1)
    ∃ d, (events.foldl happen
        (tracking [] { newWorld 1 with chain := [[], [event 0]] })).state.db.findOne (docId [] 0)
        = some d ∧
      Stored 1 d 1 ⟨event 1, 2⟩ := by
  intro event events
  have hlogs : logsFrom [] 0 ([[], [event 0]] ++ minedBlocks events)
      = [⟨event 0, 1⟩, ⟨event 1, 2⟩] := by decide +kernel
  have hA : Along happen (HandoffApart [])
      (tracking [] { newWorld 1 with chain := [[], [event 0]] }) events := by decide +kernel
  obtain ⟨d, h1, h2⟩ := handoff_stored [] rfl rfl le_rfl (fun d hd => by cases hd) hlogs (by decide)
    (by decide) hA (by decide +kernel)
  exact ⟨d, h1, h2 1 _ rfl⟩

/-- A leaf is mined after the old logs have been read and before the listener is there. -/
theorem handoff_stored_gap :
    let event (i : ℕ) : Emitted := ⟨[], ⟨i, Bytes.fill 32 7, Bytes.zeros 32⟩, []⟩
    let events : List Event :=
      List.replicate 4 (.serve 0) ++ .mine [event 1] :: List.replicate 5 (.serve 0)
    let P := events.foldl happen (tracking [] { newWorld 1 with chain := [[], [event 0]] })
    P.Ended ∧ (World.getLogs [] 0 P.state).length = 2 ∧
      entryAt [] P.state (leafIndexToNodeIndex 1 1) = none := by
  decide +kernel

end CommitMgr

end Baseline
