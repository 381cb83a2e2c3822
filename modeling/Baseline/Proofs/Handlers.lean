import Baseline.Proofs.Scan
import Baseline.Service

/-!
# Handlers of several events at once

A handler reads the whole array of nodes and writes it back with its leaf (`onNewLeaf_safe`). If no
other handler writes the array in between, every entry of the document is at any time as before all
handlers or as after them (`Filling`), and once they are through, and the last of them wrote
`latestLeaf` last, the document is that of the handlers run one after another
(`handlers_sequential`).
-/

namespace Baseline

open Await HashTree

namespace CommitMgr

/-! ## Safe accesses -/

section Accesses

variable {D : Discipline AwaitPoint World} {β : Type} {Q : Except JsError β → World → Prop}

theorem safe_findOne_deref {l : AwaitPoint} {id : Str} {f : TreeDoc → Js β} {w : World}
    (h : ∀ w', D.rely l w w' → D.inv w' → D.pre l w' → D.guar l w' w' ∧
      ∃ d, w'.db.findOne id = some d ∧ D.Safe Q (f d) w') :
    D.Safe Q (Js.findOne l id >>= fun d => Js.deref d >>= f) w := by
  intro w' hr hi hp
  obtain ⟨hg, d, hd, hsafe⟩ := h w' hr hi hp
  refine ⟨hi, hg, ?_⟩
  change D.Safe Q (Js.deref (w'.db.findOne id) >>= f) w'
  rw [hd]
  exact hsafe

theorem safe_updateOne {l : AwaitPoint} {id : Str} {u : TreeUpdate} {f : Unit → Js β} {w : World}
    (h : ∀ w', D.rely l w w' → D.inv w' → D.pre l w' →
      D.inv (w'.updated id u) ∧ D.guar l w' (w'.updated id u) ∧
      D.Safe Q (f ()) (w'.updated id u)) :
    D.Safe Q (Js.updateOne l id u >>= f) w :=
  h

theorem safe_jsonrpc {α : Type} {l : AwaitPoint} {query : World → α} {f : Response α → Js β}
    {w : World} (h : ∀ w', D.rely l w w' → D.inv w' → D.pre l w' →
      w'.rpc = .ok ∧ D.guar l w' w' ∧ D.Safe Q (f (.result (query w'))) w') :
    D.Safe Q (jsonrpc l query >>= f) w := by
  intro w' hr hi hp
  obtain ⟨hrpc, hg, hsafe⟩ := h w' hr hi hp
  simp only [hrpc]
  exact ⟨hi, hg, hsafe⟩

end Accesses

/-! ## What handlers do to a document -/

/-- Of the leaves of some logs, some are in already, at their nodes. -/
structure Filling (d : TreeDoc) (logs : List Log) (d' : TreeDoc) : Prop where
  id : d'._id = d._id
  treeHeight : d'.treeHeight = d.treeHeight
  active : d'.active = d.active
  latestRecalculation : d'.latestRecalculation = d.latestRecalculation
  latestLeaf : d'.latestLeaf = d.latestLeaf ∨
    ∃ log ∈ logs, d'.latestLeaf = ⟨some log.blockNumber, some log.event.leafIndex⟩
  length_le : d.nodes.length ≤ d'.nodes.length
  le_length : d'.nodes.length ≤ (withLeaves d logs).nodes.length
  entry : ∀ j, entry d'.nodes j = entry d.nodes j ∨
    entry d'.nodes j = entry (withLeaves d logs).nodes j

section Filling

variable {d d' : TreeDoc} {logs : List Log}

theorem length_withLeaves_le {n : ℕ} : ∀ (logs : List Log) {d : TreeDoc},
    d.nodes.length ≤ n → (∀ log ∈ logs, leafNode d.treeHeight log < n) →
      (withLeaves d logs).nodes.length ≤ n
  | [], _, hn, _ => hn
  | log :: logs, d, hn, hlt => by
    refine length_withLeaves_le logs (d := withLeaf d log.leaf) ?_
      fun log' hmem => hlt log' (List.mem_cons_of_mem _ hmem)
    have hlog := hlt log List.mem_cons_self
    exact (length_setEntry _ _ _).trans_le (max_le hn hlog)

theorem le_length_withLeaves : ∀ (logs : List Log) (d : TreeDoc),
    d.nodes.length ≤ (withLeaves d logs).nodes.length
  | [], _ => le_rfl
  | log :: logs, d =>
    ((le_max_left _ _).trans_eq (length_setEntry _ _ _).symm).trans
      (le_length_withLeaves logs (withLeaf d log.leaf))

theorem lt_length_of_entry {α : Type} {a : List (Option α)} {i : ℕ} {x : α}
    (h : CommitMgr.entry a i = some x) : i < a.length :=
  (List.getElem?_eq_some_iff.1 (getElem?_of_entry h)).1

theorem withLeaves_same : ∀ (logs : List Log) (d : TreeDoc), (withLeaves d logs)._id = d._id ∧
    (withLeaves d logs).active = d.active ∧
    (withLeaves d logs).latestRecalculation = d.latestRecalculation
  | [], _ => ⟨rfl, rfl, rfl⟩
  | log :: logs, d => withLeaves_same logs (withLeaf d log.leaf)

theorem withLeaves_latestLeaf {log : Log} (hlast : logs.getLast? = some log) :
    (withLeaves d logs).latestLeaf = ⟨some log.blockNumber, some log.event.leafIndex⟩ := by
  obtain ⟨init, rfl⟩ := List.getLast?_eq_some_iff.1 hlast
  rw [withLeaves_append]
  rfl

theorem Filling.refl (d : TreeDoc) (logs : List Log) : Filling d logs d where
  id := rfl
  treeHeight := rfl
  active := rfl
  latestRecalculation := rfl
  latestLeaf := .inl rfl
  length_le := le_rfl
  le_length := le_length_withLeaves logs d
  entry _ := .inl rfl

/-- One more leaf is in. -/
theorem Filling.leaf (hf : Filling d logs d') (hinc : Increasing logs) {log : Log}
    (hmem : log ∈ logs) {nodes : List (Option Node)} (hn : nodes = d'.nodes) :
    Filling d logs
      { d' with nodes := setEntry nodes (leafNode d.treeHeight log) log.leaf.toNode } := by
  have hstored := entry_withLeaves logs d hinc log hmem
  subst hn
  refine ⟨hf.id, hf.treeHeight, hf.active, hf.latestRecalculation, hf.latestLeaf, ?_, ?_,
    fun j => ?_⟩
  · rw [length_setEntry]
    exact hf.length_le.trans (le_max_left _ _)
  · rw [length_setEntry]
    exact max_le hf.le_length (lt_length_of_entry hstored)
  · rw [entry_setEntry]
    split_ifs with heq
    · exact .inr (heq ▸ hstored.symm)
    · exact hf.entry j

/-- With all leaves in, it is the document of a run without overlaps. -/
theorem Filling.eq_withLeaves (hf : Filling d logs d') (hinc : Increasing logs)
    (hall : ∀ log ∈ logs,
      CommitMgr.entry d'.nodes (leafNode d.treeHeight log) = some log.leaf.toNode)
    (hlast : ∀ log, logs.getLast? = some log →
      d'.latestLeaf = ⟨some log.blockNumber, some log.event.leafIndex⟩) :
    d' = withLeaves d logs := by
  obtain ⟨hid, hactive, hrec⟩ := withLeaves_same logs d
  have hnodes : d'.nodes = (withLeaves d logs).nodes := by
    refine entry_ext _ (le_antisymm hf.le_length ?_) fun j => ?_
    · exact length_withLeaves_le logs hf.length_le fun log hmem =>
        lt_length_of_entry (hall log hmem)
    · by_cases hj : ∃ log ∈ logs, j = leafNode d.treeHeight log
      · obtain ⟨log, hmem, rfl⟩ := hj
        rw [hall log hmem, entry_withLeaves logs d hinc log hmem]
      · have hsame := entry_withLeaves_of_ne (j := j) logs d fun log hmem heq =>
          hj ⟨log, hmem, heq⟩
        rcases hf.entry j with h1 | h1
        · rw [h1, hsame]
        · exact h1
  have hlatest : d'.latestLeaf = (withLeaves d logs).latestLeaf := by
    rcases hl : logs.getLast? with _ | log
    · obtain rfl := List.getLast?_eq_none_iff.1 hl
      rcases hf.latestLeaf with h1 | ⟨log, hmem, -⟩
      · exact h1
      · cases hmem
    · rw [hlast log hl, withLeaves_latestLeaf hl]
  have hheight := withLeaves_treeHeight logs d
  cases d'
  cases hw : withLeaves d logs
  simp only [TreeDoc.mk.injEq]
  rw [hw] at hid hactive hrec hnodes hlatest hheight
  exact ⟨hf.id.trans hid.symm, hf.treeHeight.trans hheight.symm, hlatest,
    hf.active.trans hactive.symm, hf.latestRecalculation.trans hrec.symm, hnodes⟩

end Filling

/-! ## The discipline -/

section Discipline

variable {a : Str} {d : TreeDoc} {logs : List Log}

/-- Leaves that are stored at their nodes stay so. -/
def Keeps (a : Str) (h : ℕ) (logs : List Log) (w w' : World) : Prop :=
  ∀ log ∈ logs, entryAt a w (leafNode h log) = some log.leaf.toNode →
    entryAt a w' (leafNode h log) = some log.leaf.toNode

theorem keeps_of_nodesAt {h : ℕ} {w w' : World} (hn : nodesAt a w' = nodesAt a w) :
    Keeps a h logs w w' := by
  intro log _ hlog
  have hentry : ∀ v j, entryAt a v j = (nodesAt a v).bind fun nodes => entry nodes j := by
    intro v j
    rcases hv : v.db.findOne (docId a 0) with _ | d
    · rw [entryAt, nodesAt, hv]
      rfl
    · rw [entryAt_eq hv, nodesAt_eq hv, Option.bind_some]
  rw [hentry] at hlog ⊢
  rw [hn]
  exact hlog

/-- Handlers count on the nodes they have read, and on stored leaves. -/
def leafDiscipline (a : Str) (d : TreeDoc) (logs : List Log) : Discipline AwaitPoint World where
  inv w := ∃ d', w.db.findOne (docId a 0) = some d' ∧ Filling d logs d'
  pre _ _ := True
  fits l m := ¬ (l.isLeafNodes ∧ m.isLeafNodes)
  rely l w w' := Keeps a d.treeHeight logs w w' ∧ (l.isLeafNodes → nodesAt a w' = nodesAt a w)
  guar l w w' := Keeps a d.treeHeight logs w w' ∧
    (¬ l.isLeafNodes → nodesAt a w' = nodesAt a w) ∧
    (¬ l.isLatestLeaf → latestLeafAt a w' = latestLeafAt a w) ∧
    w'.chain = w.chain ∧ w'.ws_provider = w.ws_provider
  rely_refl _ _ := ⟨fun _ _ h => h, fun _ => rfl⟩
  rely_trans h₁ h₂ := ⟨fun log hmem h => h₂.1 log hmem (h₁.1 log hmem h),
    fun hl => (h₂.2 hl).trans (h₁.2 hl)⟩
  rely_of_guar hfits hg := ⟨hg.1, fun hm => hg.2.1 fun hl => hfits ⟨hl, hm⟩⟩

theorem leafDiscipline_guar_refl (l : AwaitPoint) (w : World) :
    (leafDiscipline a d logs).guar l w w := ⟨fun _ _ h => h, fun _ => rfl, fun _ => rfl, rfl, rfl⟩

/-- The handler's leaf is in and marked as the latest. -/
def Handled (a : Str) (h : ℕ) (log : Log) (r : Except JsError Unit) (w : World) : Prop :=
  r = .ok () ∧ entryAt a w (leafNode h log) = some log.leaf.toNode ∧
    latestLeafAt a w = some ⟨some log.blockNumber, some log.event.leafIndex⟩

section Writes

variable {log : Log} {w : World} {d' : TreeDoc}

/-- The write of the nodes as they still are, with one more leaf. -/
theorem leafNodes_written (hinc : Increasing logs) (hmem : log ∈ logs)
    (hd : w.db.findOne (docId a 0) = some d') (hf : Filling d logs d') (i : ℕ)
    {nodes : List (Option Node)} (hn : nodes = d'.nodes) :
    let w' := w.updated (docId a 0)
      { nodes := some (setEntry nodes (leafNode d.treeHeight log) log.leaf.toNode) }
    (leafDiscipline a d logs).inv w' ∧
      (leafDiscipline a d logs).guar (.insertLeaf_nodes i) w w' ∧
      entryAt a w' (leafNode d.treeHeight log) = some log.leaf.toNode := by
  intro w'
  have hd' : w'.db.findOne (docId a 0) = some _ := findOne_updated hd _
  have hown : entryAt a w' (leafNode d.treeHeight log) = some log.leaf.toNode := by
    rw [entryAt_eq hd']
    exact entry_setEntry_self _ _ _
  refine ⟨⟨_, hd', hf.leaf hinc hmem hn⟩, ⟨fun log' hmem' hlog' => ?_,
    fun h => absurd rfl h, fun _ => ?_, rfl, rfl⟩, hown⟩
  · by_cases heq : leafNode d.treeHeight log' = leafNode d.treeHeight log
    · have h1 := entry_withLeaves logs d hinc log hmem
      have h2 := entry_withLeaves logs d hinc log' hmem'
      rw [heq, h1] at h2
      rw [heq, hown, h2]
    · rw [entryAt_eq hd] at hlog'
      rw [entryAt_eq hd']
      refine (entry_setEntry_ne _ _ heq).trans ?_
      rw [hn]
      exact hlog'
  · rw [latestLeafAt_eq hd', latestLeafAt_eq hd]
    rfl

/-- The write of the latest leaf. -/
theorem latestLeaf_written (hmem : log ∈ logs) (hd : w.db.findOne (docId a 0) = some d')
    (hf : Filling d logs d') (i : ℕ)
    (hown : entryAt a w (leafNode d.treeHeight log) = some log.leaf.toNode) :
    let w' := w.updated (docId a 0)
      { latestLeaf := some ⟨some log.blockNumber, some log.event.leafIndex⟩ }
    (leafDiscipline a d logs).inv w' ∧
      (leafDiscipline a d logs).guar (.insertLeaf_latestLeaf i) w w' ∧
      Handled a d.treeHeight log (.ok ()) w' := by
  intro w'
  have hd' : w'.db.findOne (docId a 0) = some _ := findOne_updated hd _
  have hnodes : nodesAt a w' = nodesAt a w := by
    rw [nodesAt_eq hd', nodesAt_eq hd]
    rfl
  refine ⟨⟨_, hd', ?_⟩, ⟨keeps_of_nodesAt hnodes, fun _ => hnodes, fun h => absurd rfl h, rfl, rfl⟩,
    rfl,
    keeps_of_nodesAt hnodes log hmem hown, ?_⟩
  · exact { hf with latestLeaf := .inr ⟨log, hmem, rfl⟩ }
  · rw [latestLeafAt_eq hd']
    rfl

end Writes

theorem onNewLeaf_safe (hinc : Increasing logs) {log : Log} (hmem : log ∈ logs)
    (hb : leafNode d.treeHeight log < BUCKET_SIZE) (w : World) :
    (leafDiscipline a d logs).Safe (Handled a d.treeHeight log) (onNewLeaf a log) w := by
  unfold onNewLeaf insertLeaf
  refine safe_findOne_deref fun w₁ _ hi₁ _ => ⟨leafDiscipline_guar_refl _ _, ?_⟩
  obtain ⟨d₁, hd₁, hf₁⟩ := hi₁
  refine ⟨d₁, hd₁, ?_⟩
  simp only [hf₁.treeHeight]
  rw [calculateBucket_eq (by exact hb)]
  refine safe_findOne_deref fun w₂ _ hi₂ _ => ⟨leafDiscipline_guar_refl _ _, ?_⟩
  obtain ⟨d₂, hd₂, -⟩ := hi₂
  refine ⟨d₂, hd₂, ?_⟩
  refine safe_updateOne fun w₃ hr₃ hi₃ _ => ?_
  obtain ⟨d₃, hd₃, hf₃⟩ := hi₃
  -- nobody wrote the nodes since they were read
  have hnodes : d₂.nodes = d₃.nodes := by
    have hsame := hr₃.2 rfl
    rw [nodesAt_eq hd₂, nodesAt_eq hd₃] at hsame
    exact (Option.some.inj hsame).symm
  obtain ⟨hinv, hguar, hown⟩ := leafNodes_written hinc hmem hd₃ hf₃ log.leaf.leafIndex hnodes
  refine ⟨hinv, hguar, fun w₄ hr₄ hi₄ _ => ?_⟩
  obtain ⟨d₄, hd₄, hf₄⟩ := hi₄
  exact latestLeaf_written hmem hd₄ hf₄ _ (hr₄.1 log hmem hown)

end Discipline

/-! ## Any schedule -/

section Schedule

variable {a : Str} {d : TreeDoc} {logs : List Log}

/-- What handler `j` has seen to, and the last one last. -/
def HandledAll (a : Str) (h : ℕ) (logs : List Log) (j : ℕ) (r : Except JsError Unit) (w : World) :
    Prop :=
  r = .ok () ∧ ∀ log, logs[j]? = some log → entryAt a w (leafNode h log) = some log.leaf.toNode ∧
    (j = logs.length - 1 →
      latestLeafAt a w = some ⟨some log.blockNumber, some log.event.leafIndex⟩)

theorem handlers_kept (hinc : Increasing logs)
    (hb : ∀ log ∈ logs, leafNode d.treeHeight log < BUCKET_SIZE) {w : World}
    (hw : w.db.findOne (docId a 0) = some d) :
    (leafDiscipline a d logs).Kept (HandledAll a d.treeHeight logs) (handlers a logs w) := by
  refine ⟨⟨d, hw, Filling.refl d logs⟩, fun i p hp => ?_⟩
  simp only [handlers, List.getElem?_map, Option.map_eq_some_iff] at hp
  obtain ⟨log, hlog, rfl⟩ := hp
  have hmem := List.mem_of_getElem? hlog
  refine (onNewLeaf_safe hinc hmem (hb log hmem) _).mono fun r v hv => ⟨hv.1, fun log' hlog' => ?_⟩
  rw [hlog, Option.some.injEq] at hlog'
  exact hlog' ▸ ⟨hv.2.1, fun _ => hv.2.2⟩

theorem allows_of_apart {after : AwaitPoint → ℕ → Prop} {P : Calls} {i : ℕ} (hP : NodesApart P i)
    (hafter : ∀ l j, P.pointOf i = some l → j ≠ i → P.pointOf j = none → after l j) :
    (leafDiscipline a d logs).Allows after P i := by
  intro l hl
  refine ⟨trivial, fun j p hj hp => ⟨fun m hm ⟨h1, h2⟩ => ?_, fun hp0 => ?_⟩⟩
  · have hjm : P.pointOf j = some m := by rw [Pool.pointOf, hp, Option.bind_some, hm]
    exact hP (by rw [hl]; exact h1) j (List.getElem?_eq_some_iff.1 hp).1 hj
      (by rw [hjm]; exact h2)
  · exact hafter l j hl hj (by rw [Pool.pointOf, hp, Option.bind_some, hp0])

theorem latest_after {P : Calls} {i last : ℕ} (hP : LatestBefore last P i) (l : AwaitPoint) (j : ℕ)
    (hl : P.pointOf i = some l) (hj : j ≠ i) (hj0 : P.pointOf j = none) (h1 : l.isLatestLeaf) :
    j ≠ last := by
  rintro rfl
  exact hP (by rw [hl]; exact h1) (Ne.symm hj) hj0

theorem handledAll_of_guar (last : ℕ) (hlast : last = logs.length - 1) (j : ℕ)
    (r : Except JsError Unit) (l : AwaitPoint) (w w' : World)
    (hafter : l.isLatestLeaf → j ≠ last) (hg : (leafDiscipline a d logs).guar l w w')
    (hQ : HandledAll a d.treeHeight logs j r w) : HandledAll a d.treeHeight logs j r w' := by
  refine ⟨hQ.1, fun log hlog => ?_⟩
  obtain ⟨h1, h2⟩ := hQ.2 log hlog
  refine ⟨hg.1 log (List.mem_of_getElem? hlog) h1, fun hj => ?_⟩
  rw [hg.2.2.1 fun hl => hafter hl (hj.trans hlast.symm)]
  exact h2 hj

end Schedule

/-- Handlers of several events, in any order of their accesses: if none writes `nodes` between
another's read and write of it, and the one of the highest index is the last to write
`latestLeaf`, the document is the one they leave when run one after another. -/
theorem handlers_sequential (contractAddress : Str) {w : World} {d : TreeDoc}
    (hw : w.db.findOne (docId contractAddress 0) = some d) {logs : List Log}
    (hinc : Increasing logs)
    (hb : ∀ log ∈ logs, leafIndexToNodeIndex d.treeHeight log.event.leafIndex < BUCKET_SIZE)
    {is : List ℕ}
    (hA : Along Pool.step (fun P i => NodesApart P i ∧ LatestBefore (logs.length - 1) P i)
      (handlers contractAddress logs w) is)
    (hend : ((handlers contractAddress logs w).runs is).Ended) :
    let w' := ((handlers contractAddress logs w).runs is).state
    ∃ d', w'.db.findOne (docId contractAddress 0) = some d' ∧
      ((insertLogs contractAddress logs).run w).2.db.findOne (docId contractAddress 0) = some d' ∧
      (∀ log ∈ logs, entry d'.nodes (leafIndexToNodeIndex d.treeHeight log.event.leafIndex)
        = some log.leaf.toNode) ∧
      ∀ log, logs.getLast? = some log →
        d'.latestLeaf = ⟨some log.blockNumber, some log.event.leafIndex⟩ := by
  intro w'
  have hkept := Discipline.Kept.runs (handledAll_of_guar _ rfl) (handlers_kept hinc hb hw)
    (hA.mono fun P i hP => allows_of_apart hP.1 (latest_after hP.2))
  obtain ⟨d', hd', hf⟩ := hkept.inv
  have hdone : ∀ j log, logs[j]? = some log →
      entry d'.nodes (leafNode d.treeHeight log) = some log.leaf.toNode ∧
      (j = logs.length - 1 →
        d'.latestLeaf = ⟨some log.blockNumber, some log.event.leafIndex⟩) := by
    intro j log hlog
    obtain ⟨hj, -⟩ := List.getElem?_eq_some_iff.1 hlog
    obtain ⟨r, -, hr⟩ := hkept.ended hend (i := j)
      (by rw [Discipline.length_runs, handlers, List.length_map]; exact hj)
    obtain ⟨h1, h2⟩ := hr log hlog
    rw [entryAt_eq hd'] at h1
    refine ⟨h1, fun hlast => ?_⟩
    have := h2 hlast
    rw [latestLeafAt_eq hd'] at this
    exact Option.some.inj this
  have hall : ∀ log ∈ logs,
      entry d'.nodes (leafNode d.treeHeight log) = some log.leaf.toNode := by
    intro log hmem
    obtain ⟨j, hj⟩ := List.mem_iff_getElem?.1 hmem
    exact (hdone j log hj).1
  have hlast : ∀ log, logs.getLast? = some log →
      d'.latestLeaf = ⟨some log.blockNumber, some log.event.leafIndex⟩ := by
    intro log hl
    rw [List.getLast?_eq_getElem?] at hl
    exact (hdone _ log hl).2 rfl
  obtain ⟨v, h1, he⟩ := insertLogs_run logs hw hb
  refine ⟨d', hd', ?_, hall, hlast⟩
  rw [h1, hf.eq_withLeaves hinc hall hlast]
  exact he.doc

/-- The first two leaves of a tree, one after the other. -/
theorem handlers_sequential_two :
    let logs : List Log := [⟨⟨[], ⟨0, Bytes.fill 32 1, Bytes.zeros 32⟩, []⟩, 1⟩,
      ⟨⟨[], ⟨1, Bytes.fill 32 2, Bytes.zeros 32⟩, []⟩, 1⟩]
    ((handlers [] logs (trackedWorld [] 1)).runs [0, 0, 1, 0, 1, 0, 1, 1]).state.db.findOne
        (docId [] 0)
      = ((insertLogs [] logs).run (trackedWorld [] 1)).2.db.findOne (docId [] 0) := by
  intro logs
  have hA : Along Pool.step (fun P i => NodesApart P i ∧ LatestBefore (logs.length - 1) P i)
      (handlers [] logs (trackedWorld [] 1)) [0, 0, 1, 0, 1, 0, 1, 1] := by decide +kernel
  have hw := trackedWorld_doc [] 1
  obtain ⟨d', h1, h2, -⟩ :=
    handlers_sequential [] hw (by decide) (by decide) hA (by decide +kernel)
  exact h1.trans h2.symm

/-- Both handlers read the nodes before either writes them, and the first leaf is lost. -/
theorem handlers_sequential_lost :
    let logs : List Log := [⟨⟨[], ⟨0, Bytes.fill 32 1, Bytes.zeros 32⟩, []⟩, 1⟩,
      ⟨⟨[], ⟨1, Bytes.fill 32 2, Bytes.zeros 32⟩, []⟩, 1⟩]
    let P := (handlers [] logs (trackedWorld [] 1)).runs [0, 0, 1, 1, 0, 1, 0, 1]
    P.Ended ∧ entryAt [] P.state (leafIndexToNodeIndex 1 0) = none ∧
      P.state.db.findOne (docId [] 0)
        ≠ ((insertLogs [] logs).run (trackedWorld [] 1)).2.db.findOne (docId [] 0) := by
  decide +kernel

end CommitMgr

end Baseline
