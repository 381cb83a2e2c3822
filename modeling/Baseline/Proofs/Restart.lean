import Baseline.Proofs.Scan

/-!
# Catching up after a restart

The scan of a restart begins at the block after that of the latest leaf (`getLogs_eq_filter`), so
it finds every leaf that is not stored yet (`scanned`) unless the service stopped between two
leaves of one block. What the restart does for other trees does not matter (`Apart`).
-/

namespace Baseline

open Await HashTree

/-! ## Logs by block -/

theorem mem_blockLogs {a : Str} {n : ℕ} {b : Block} {log : Log} (h : log ∈ blockLogs a n b) :
    log.blockNumber = n := by
  simp only [blockLogs, List.mem_map] at h
  obtain ⟨e, -, rfl⟩ := h
  rfl

theorem le_blockNumber {a : Str} : ∀ {blocks : List Block} {n : ℕ} {log : Log},
    log ∈ logsFrom a n blocks → n ≤ log.blockNumber
  | [], _, _, h => by cases h
  | b :: blocks, n, log, h => by
    rcases List.mem_append.1 h with h | h
    · exact (mem_blockLogs h).ge
    · exact (Nat.le_succ n).trans (le_blockNumber h)

/-- Logs come in the order of their blocks. -/
theorem logsFrom_sorted {a : Str} : ∀ (blocks : List Block) (n : ℕ),
    (logsFrom a n blocks).Pairwise fun log log' => log.blockNumber ≤ log'.blockNumber
  | [], _ => List.Pairwise.nil
  | b :: blocks, n => by
    refine List.pairwise_append.2 ⟨?_, logsFrom_sorted blocks (n + 1), fun log h log' h' => ?_⟩
    · exact List.Pairwise.imp_mem.2 (List.pairwise_of_forall fun log log' h h' => by
        rw [mem_blockLogs h, mem_blockLogs h'])
    · rw [mem_blockLogs h]
      exact (Nat.le_succ n).trans (le_blockNumber h')

theorem logsFrom_drop {a : Str} : ∀ (blocks : List Block) (n k : ℕ),
    logsFrom a (n + k) (blocks.drop k)
      = (logsFrom a n blocks).filter fun log => n + k ≤ log.blockNumber
  | [], _, _ => by rw [List.drop_nil]; rfl
  | b :: blocks, n, 0 => by
    rw [List.drop_zero]
    exact (List.filter_eq_self.2 fun log h => by simpa using le_blockNumber h).symm
  | b :: blocks, n, k + 1 => by
    have hb : (blockLogs a n b).filter (fun log => n + (k + 1) ≤ log.blockNumber) = [] :=
      List.filter_eq_nil_iff.2 fun log h => by
        rw [mem_blockLogs h]
        simp
    have ih := logsFrom_drop (a := a) blocks (n + 1) k
    rw [List.drop_succ_cons, logsFrom, List.filter_append, hb, List.nil_append,
      show n + (k + 1) = n + 1 + k by omega]
    exact ih

namespace CommitMgr

theorem getLogs_eq_filter (a : Str) (n : ℕ) (w : World) :
    World.getLogs a n w = (World.getLogs a 0 w).filter fun log => n ≤ log.blockNumber := by
  have h := logsFrom_drop (a := a) w.chain 0 n
  rw [Nat.zero_add] at h
  exact h

/-! ## Other trees -/

/-- No document of the contract's changed, and nothing that its scan depends on. -/
structure Apart (a : Str) (w w' : World) : Prop where
  docs : ∀ id, (∀ b, id ≠ docId a b) → w'.db.findOne id = w.db.findOne id
  chain : w'.chain = w.chain
  rpc : w'.rpc = w.rpc

namespace Apart

variable {a : Str} {w w₁ w₂ : World}

theorem refl (a : Str) (w : World) : Apart a w w := ⟨fun _ _ => rfl, rfl, rfl⟩

theorem trans (h₁ : Apart a w w₁) (h₂ : Apart a w₁ w₂) : Apart a w w₂ where
  docs id hid := (h₂.docs id hid).trans (h₁.docs id hid)
  chain := h₂.chain.trans h₁.chain
  rpc := h₂.rpc.trans h₁.rpc

theorem updateOne (w : World) (b : ℕ) (u : TreeUpdate) :
    Apart a w { w with db := w.db.updateOne (docId a b) u } where
  docs _ hid := Collection.findOne_updateOne_ne (hid b)
  chain := rfl
  rpc := rfl

end Apart

theorem apart_insertLeaf (a : Str) (leaf : Leaf) (w : World) :
    Apart a w ((insertLeaf a leaf).run w).2 := by
  unfold insertLeaf
  rw [run_findOne_deref]
  rcases w.db.findOne (docId a 0) with _ | d
  · exact Apart.refl a w
  · simp only []
    rw [run_findOne_deref]
    rcases w.db.findOne (docId a (calculateBucket _)) with _ | d'
    · exact Apart.refl a w
    · simp only []
      rw [run_updateOne, run_updateOne']
      exact (Apart.updateOne _ _ _).trans (Apart.updateOne _ _ _)

theorem apart_insertLogs (a : Str) : ∀ (logs : List Log) (w : World),
    Apart a w ((insertLogs a logs).run w).2
  | [], w => Apart.refl a w
  | log :: logs, w => by
    have h1 := apart_insertLeaf a log.leaf w
    rw [insertLogs, Proc.run_bind]
    rcases hrun : (insertLeaf a log.leaf).run w with ⟨r, w₁⟩
    rw [hrun] at h1
    rcases r with e | u
    · exact h1
    · exact h1.trans (apart_insertLogs a logs w₁)

theorem apart_checkChainLogs (a : Str) (fromBlock : Option ℕ) (w : World) :
    Apart a w ((checkChainLogs a fromBlock).run w).2 := by
  unfold checkChainLogs jsonrpc attempt
  simp only [Proc.await_bind, Proc.run_await]
  rcases w.rpc with _ | e | _
  · exact apart_insertLogs a _ w
  · exact Apart.refl a w
  · exact Apart.refl a w

/-- A subscription touches no document at all. -/
theorem subscribeMerkleEvents_db (a : Str) (w : World) :
    ((subscribeMerkleEvents a).run w).2.db = w.db ∧
      ((subscribeMerkleEvents a).run w).2.chain = w.chain ∧
      ((subscribeMerkleEvents a).run w).2.rpc = w.rpc ∧
      ((subscribeMerkleEvents a).run w).2.heights = w.heights := by
  simp only [subscribeMerkleEvents, attempt, Proc.run_await]
  rcases w.get_ws_provider.ws_provider with _ | listeners <;> exact ⟨rfl, rfl, rfl, rfl⟩

/-- The documents of different contracts have different names. -/
theorem docId_ne {a a' : Str} (ha : a ≠ a') (b b' : ℕ) : docId a b ≠ docId a' b' := by
  have hcut : ∀ (c : Str) (n : ℕ), (docId c n).reverse.dropWhile (· ≠ '_') = '_' :: c.reverse := by
    intro c n
    have hdigits : ∀ x ∈ (Nat.toDigits 10 n).reverse, decide (x ≠ '_') = true := by
      intro x hx
      have := Nat.isDigit_of_mem_toDigits (by norm_num) le_rfl (List.mem_reverse.1 hx)
      rw [decide_eq_true_iff]
      rintro rfl
      cases this
    rw [docId, List.reverse_append, List.reverse_cons, List.append_assoc,
      List.dropWhile_append_of_pos hdigits]
    rfl
  intro h
  have h2 := congrArg (fun s => s.reverse.dropWhile (· ≠ '_')) h
  simp only [hcut, List.cons.injEq, true_and, List.reverse_inj] at h2
  exact ha h2

/-! ## The restart -/

section Restart

variable {a : Str} {d : TreeDoc}

/-- The first block a scan asks for. -/
def resumeBlock (fromBlock : Option ℕ) : ℕ :=
  if fromBlock.getD 0 = 0 then 0 else fromBlock.getD 0 + 1

/-- A process that ends in a result: its first part did. -/
theorem run_bind_ok_inv {α β : Type} {p : Js α} {f : α → Js β} {w w' : World} {b : β}
    (h : (p >>= f).run w = (.ok b, w')) :
    ∃ x w₁, p.run w = (.ok x, w₁) ∧ (f x).run w₁ = (.ok b, w') := by
  rw [Proc.run_bind] at h
  rcases hp : p.run w with ⟨_ | x, w₁⟩
  · rw [hp] at h
    cases h
  · rw [hp] at h
    exact ⟨x, w₁, rfl, h⟩

theorem run_checkChainLogs_ok {w w' : World} {fromBlock : Option ℕ}
    (h : (checkChainLogs a fromBlock).run w = (.ok (), w')) :
    (insertLogs a (World.getLogs a (resumeBlock fromBlock) w)).run w = (.ok (), w') := by
  rcases hrpc : w.rpc with _ | e | _
  · rwa [run_checkChainLogs hrpc] at h
  · simp only [checkChainLogs, jsonrpc, attempt, Proc.await_bind, Proc.run_await, hrpc,
      Proc.ret_bind, Proc.run_throw, Prod.mk.injEq, reduceCtorEq, false_and] at h
  · simp only [checkChainLogs, jsonrpc, attempt, Proc.await_bind, Proc.run_await, hrpc,
      Proc.throw_bind, Proc.run_throw, Prod.mk.injEq, reduceCtorEq, false_and] at h

theorem getLogs_congr {w w' : World} (h : w'.chain = w.chain) (n : ℕ) :
    World.getLogs a n w' = World.getLogs a n w := by rw [World.getLogs, World.getLogs, h]

/-- A turn of the loop for the tree itself. -/
theorem restartTree_own {fromBlock : Option ℕ} {d : TreeDoc} {w w₁ w₂ : World}
    (hscan : (checkChainLogs a fromBlock).run w = (.ok (), w₁))
    (hsubscribe : (subscribeMerkleEvents a).run w₁ = (.ok (), w₂))
    (hd : w.db.findOne (docId a 0) = some d)
    (hb : ∀ log ∈ World.getLogs a 0 w, leafNode d.treeHeight log < BUCKET_SIZE) :
    w₂.db.findOne (docId a 0) = some (withLeaves d (World.getLogs a (resumeBlock fromBlock) w)) ∧
      w₂.chain = w.chain := by
  obtain ⟨hdb, hchain, -⟩ := subscribeMerkleEvents_db a w₁
  rw [hsubscribe] at hdb hchain
  have hfits : ∀ log ∈ World.getLogs a (resumeBlock fromBlock) w,
      leafNode d.treeHeight log < BUCKET_SIZE := by
    intro log hlog
    rw [getLogs_eq_filter] at hlog
    exact hb log (List.mem_of_mem_filter hlog)
  obtain ⟨v, hv, he⟩ := insertLogs_run _ hd hfits
  obtain rfl : v = w₁ := congrArg Prod.snd (hv.symm.trans (run_checkChainLogs_ok hscan))
  exact ⟨hdb ▸ he.doc, hchain.trans he.chain⟩

/-- And for another tree. -/
theorem restartTree_other {a' : Str} (hne : a ≠ a') {fromBlock : Option ℕ} {w w₁ w₂ : World}
    (hscan : (checkChainLogs a' fromBlock).run w = (.ok (), w₁))
    (hsubscribe : (subscribeMerkleEvents a').run w₁ = (.ok (), w₂)) :
    w₂.db.findOne (docId a 0) = w.db.findOne (docId a 0) ∧ w₂.chain = w.chain := by
  obtain ⟨hdb, hchain, -⟩ := subscribeMerkleEvents_db a' w₁
  rw [hsubscribe] at hdb hchain
  have hapart := apart_checkChainLogs a' fromBlock w
  rw [hscan] at hapart
  exact ⟨by rw [hdb, hapart.docs _ fun b => docId_ne hne 0 b], hchain.trans hapart.chain⟩

/-- After the loop over the active trees, a tree among them has what its scan found. -/
theorem restartTrees_run : ∀ (trees : List TreeDoc) {d : TreeDoc} {w w' : World},
    (restartTrees trees).run w = (.ok (), w') → (trees.map TreeDoc._id).Nodup →
    (∀ tree ∈ trees, docId tree._id.dropLast.dropLast 0 = tree._id) →
    (∀ tree ∈ trees, tree._id = docId a 0 → tree = d) →
    w.db.findOne (docId a 0) = some d →
    (∀ log ∈ World.getLogs a 0 w, leafNode d.treeHeight log < BUCKET_SIZE) →
      w'.db.findOne (docId a 0) = some (if d ∈ trees then
        withLeaves d (World.getLogs a (resumeBlock d.latestLeaf.blockNumber) w) else d)
  | [], d, w, w', hrun, _, _, _, hd, _ => by
    cases hrun
    simpa using hd
  | tree :: trees, d, w, w', hrun, hnodup, hids, huniq, hd, hb => by
    obtain ⟨_, w₁, h1, hrun₁⟩ := run_bind_ok_inv hrun
    obtain ⟨_, w₂, h2, hrun₂⟩ := run_bind_ok_inv hrun₁
    obtain ⟨hnot, hnodup'⟩ := List.nodup_cons.1 hnodup
    have hids' := fun t ht => hids t (List.mem_cons_of_mem _ ht)
    have hid := hids tree List.mem_cons_self
    by_cases htree : tree._id = docId a 0
    · obtain rfl := huniq tree List.mem_cons_self htree
      have haddr : tree._id.dropLast.dropLast = a := by
        by_contra hne
        exact docId_ne hne 0 0 (hid.trans htree)
      rw [haddr] at h1 h2
      obtain ⟨hd₂, hchain⟩ := restartTree_own h1 h2 hd hb
      have hgone : ∀ t ∈ trees, t._id ≠ docId a 0 := fun t ht h =>
        hnot (htree.trans h.symm ▸ List.mem_map_of_mem ht)
      have hrest := restartTrees_run trees hrun₂ hnodup' hids'
        (fun t ht h => absurd h (hgone t ht)) hd₂ fun log hlog => by
          rw [withLeaves_treeHeight]
          rw [getLogs_congr hchain] at hlog
          exact hb log hlog
      rw [hrest, if_neg fun hmem => hgone _ hmem (Collection.findOne_id hd₂),
        if_pos List.mem_cons_self]
    · have hne : a ≠ tree._id.dropLast.dropLast := by
        rintro rfl
        exact htree hid.symm
      obtain ⟨hd₂, hchain⟩ := restartTree_other hne h1 h2
      have hlogs := fun n => getLogs_congr (a := a) hchain n
      have hrest := restartTrees_run trees hrun₂ hnodup' hids'
        (fun t ht => huniq t (List.mem_cons_of_mem _ ht)) (hd₂.trans hd) (by rw [hlogs]; exact hb)
      have hmem : d ∈ tree :: trees ↔ d ∈ trees := by
        rw [List.mem_cons, or_iff_right]
        rintro rfl
        exact htree (Collection.findOne_id hd)
      rw [hrest, hlogs, if_congr hmem rfl rfl]

end Restart

/-! ## What is caught up -/

/-- Of the leaves emitted so far the service had stored the first `m` when it stopped, and marked
the `k`-th as the latest: `k` is `m`, or one less if it stopped between the two writes. -/
structure StoppedAt (h : ℕ) (logs : List Log) (m k : ℕ) (d : TreeDoc) : Prop where
  treeHeight : d.treeHeight = h
  active : d.active = some true
  stored : ∀ p log, p < m → logs[p]? = some log → Stored h d p log
  missing : ∀ p log, m ≤ p → logs[p]? = some log → ¬ Stored h d p log
  le : k ≤ m
  latestLeaf : d.latestLeaf.blockNumber = (logs.take k).getLast?.map fun log => log.blockNumber

section CaughtUp

variable {a : Str} {h : ℕ} {logs : List Log} {d : TreeDoc}

theorem InOrder.increasing (ho : InOrder logs) : Increasing logs := by
  refine List.pairwise_iff_getElem.2 fun i j hi hj hij => ?_
  rw [ho i _ (List.getElem?_eq_getElem hi), ho j _ (List.getElem?_eq_getElem hj)]
  exact hij

/-- The logs a scan finds, as a part of all of them. -/
def scanned (logs : List Log) (n : ℕ) : List Log := logs.filter fun log => n ≤ log.blockNumber

theorem stored_of_scanned (ho : InOrder logs) (hd : d.treeHeight = h) {n p : ℕ} {log : Log}
    (hp : logs[p]? = some log) (hn : n ≤ log.blockNumber) :
    Stored h (withLeaves d (scanned logs n)) p log := by
  have hmem : log ∈ scanned logs n :=
    List.mem_filter.2 ⟨List.mem_of_getElem? hp, by simpa using hn⟩
  have hentry := entry_withLeaves (scanned logs n) d (ho.increasing.filter _) log hmem
  rw [leafNode_eq, hd, ho p log hp] at hentry
  exact hentry

/-- A scan leaves the leaves of earlier blocks as they were. -/
theorem stored_of_not_scanned (ho : InOrder logs) (hd : d.treeHeight = h) {n p : ℕ} {log : Log}
    (hp : logs[p]? = some log) (hn : log.blockNumber < n) :
    Stored h (withLeaves d (scanned logs n)) p log ↔ Stored h d p log := by
  rw [Stored, entry_withLeaves_of_ne]
  · exact Iff.rfl
  · intro log' hmem heq
    obtain ⟨hmem', hn'⟩ := List.mem_filter.1 hmem
    obtain ⟨q, hq⟩ := List.mem_iff_getElem?.1 hmem'
    rw [leafNode_eq, hd, ho q log' hq, index_leaf, index_leaf] at heq
    obtain rfl : p = q := by omega
    rw [hp, Option.some.injEq] at hq
    subst hq
    simp only [decide_eq_true_eq] at hn'
    omega

/-- What a restart makes of a tree's document. -/
theorem restartSubscriptions_run {w : World} (hw : w.db.findOne (docId a 0) = some d)
    (hactive : d.active = some true)
    (hb : ∀ log ∈ World.getLogs a 0 w, leafNode d.treeHeight log < BUCKET_SIZE)
    (hdone : (restartSubscriptions.run w).1 = .ok ()) :
    (restartSubscriptions.run w).2.db.findOne (docId a 0)
      = some (withLeaves d (scanned (World.getLogs a 0 w)
          (resumeBlock d.latestLeaf.blockNumber))) := by
  obtain ⟨w', hrun⟩ : ∃ w', restartSubscriptions.run w = (.ok (), w') :=
    ⟨_, Prod.ext hdone rfl⟩
  rw [hrun]
  simp only [restartSubscriptions, Proc.await_bind, Proc.run_await, Proc.ret_bind] at hrun
  obtain ⟨_, w₁, h1, hrun₁⟩ := run_bind_ok_inv hrun
  obtain rfl : w₁ = w.get_ws_provider := (congrArg Prod.snd h1).symm.trans (by
    simp only [attempt, Proc.run_await]
    split_ifs <;> rfl)
  have hmem : d ∈ w.db.find fun d => (['_', '0'] <:+ d._id) ∧ d.active = some true := by
    refine List.mem_filter.2 ⟨Collection.mem_of_findOne hw, ?_⟩
    rw [decide_eq_true_iff, Collection.findOne_id hw]
    exact ⟨⟨a, rfl⟩, hactive⟩
  have hnodup : ((w.db.find fun d => (['_', '0'] <:+ d._id) ∧ d.active = some true).map
      TreeDoc._id).Nodup := w.db.nodup.sublist (List.filter_sublist.map _)
  have hresult := restartTrees_run _ hrun₁ hnodup (fun tree htree => ?_) (fun tree htree hid => ?_)
    hw hb
  · rw [if_pos hmem] at hresult
    rw [hresult, getLogs_eq_filter]
    rfl
  · have hsuffix := (List.mem_filter.1 htree).2
    rw [decide_eq_true_iff] at hsuffix
    obtain ⟨a', ha'⟩ := hsuffix.1
    rw [← ha']
    simp [docId]
  · exact List.inj_on_of_nodup_map hnodup htree hmem (hid.trans (Collection.findOne_id hw).symm)

theorem resumeBlock_some {b : ℕ} (hb : b ≠ 0) : resumeBlock (some b) = b + 1 := if_neg hb

theorem blockNumber_le (w : World) {p q : ℕ} {log log' : Log} (hpq : p ≤ q)
    (hp : (World.getLogs a 0 w)[p]? = some log) (hq : (World.getLogs a 0 w)[q]? = some log') :
    log.blockNumber ≤ log'.blockNumber := by
  obtain ⟨hlp, rfl⟩ := List.getElem?_eq_some_iff.1 hp
  obtain ⟨hlq, rfl⟩ := List.getElem?_eq_some_iff.1 hq
  rcases hpq.eq_or_lt with rfl | hlt
  · exact le_rfl
  · exact List.pairwise_iff_getElem.1 (logsFrom_sorted _ 0) p q hlp hlq hlt

end CaughtUp

/-- A log that the scan leaves out is of a stored leaf: a missing one would be after the latest one
and not in a later block. -/
theorem lt_of_not_scanned {w : World} {m k : ℕ} (hle : k ≤ m)
    (hcond : ∀ latest next, ((World.getLogs a 0 w).take k).getLast? = some latest →
      (World.getLogs a 0 w)[m]? = some next →
        latest.blockNumber = 0 ∨ next.blockNumber ≠ latest.blockNumber)
    {p : ℕ} {log : Log} (hp : (World.getLogs a 0 w)[p]? = some log)
    (hlt : log.blockNumber < resumeBlock (((World.getLogs a 0 w).take k).getLast?.map
      fun log => log.blockNumber)) : p < m := by
  by_contra hmp
  rcases hlatest : ((World.getLogs a 0 w).take k).getLast? with _ | latest
  · rw [hlatest] at hlt
    exact absurd hlt (Nat.not_lt_zero _)
  rw [hlatest, Option.map_some] at hlt
  rcases Nat.eq_zero_or_pos latest.blockNumber with h0 | hpos
  · rw [h0] at hlt
    exact absurd hlt (Nat.not_lt_zero _)
  rw [resumeBlock_some hpos.ne'] at hlt
  obtain ⟨hpl, -⟩ := List.getElem?_eq_some_iff.1 hp
  obtain ⟨next, hnext⟩ : ∃ next, (World.getLogs a 0 w)[m]? = some next :=
    ⟨_, List.getElem?_eq_getElem (by omega)⟩
  obtain ⟨q, hq, hqk⟩ : ∃ q, (World.getLogs a 0 w)[q]? = some latest ∧ q < m := by
    rw [List.getLast?_eq_getElem?, List.getElem?_take] at hlatest
    split_ifs at hlatest with hk
    exact ⟨_, hlatest, by omega⟩
  have h1 := blockNumber_le w hqk.le hq hnext
  have h2 := blockNumber_le w (not_lt.1 hmp) hnext hp
  rcases hcond latest next hlatest hnext with h0 | hne <;> omega

/-- A restart stores all leaves exactly if the first leaf that is missing is not in the block of the
leaf marked as the latest, or this block is block `0`. -/
theorem restartSubscriptions_stored_iff (contractAddress : Str) {w : World} {d : TreeDoc}
    (hw : w.db.findOne (docId contractAddress 0) = some d) {h m k : ℕ} {logs : List Log}
    (hlogs : World.getLogs contractAddress 0 w = logs) (ho : InOrder logs)
    (hb : ∀ log ∈ logs, leafIndexToNodeIndex h log.event.leafIndex < BUCKET_SIZE)
    (hs : StoppedAt h logs m k d) (hdone : (restartSubscriptions.run w).1 = .ok ()) :
    (∃ d', (restartSubscriptions.run w).2.db.findOne (docId contractAddress 0) = some d' ∧
      ∀ p log, logs[p]? = some log → Stored h d' p log)
    ↔ ∀ latest next, (logs.take k).getLast? = some latest → logs[m]? = some next →
        latest.blockNumber = 0 ∨ next.blockNumber ≠ latest.blockNumber := by
  subst hlogs
  have hrun := restartSubscriptions_run hw hs.active
    (fun log hlog => by rw [hs.treeHeight]; exact hb log hlog) hdone
  rw [hs.latestLeaf] at hrun
  constructor
  · rintro ⟨d', hd', hall⟩ latest next hlatest hnext
    by_contra hcon
    obtain ⟨h0, heq⟩ : latest.blockNumber ≠ 0 ∧ next.blockNumber = latest.blockNumber := by
      simpa only [not_or, ne_eq, not_not] using hcon
    rw [hrun, Option.some.injEq, hlatest, Option.map_some, resumeBlock_some h0] at hd'
    have hstored := hall m next hnext
    rw [← hd', stored_of_not_scanned ho hs.treeHeight hnext (by omega)] at hstored
    exact hs.missing m next le_rfl hnext hstored
  · intro hcond
    refine ⟨_, hrun, fun p log hp => ?_⟩
    rcases Nat.lt_or_ge log.blockNumber (resumeBlock ((((World.getLogs contractAddress 0 w).take
        k).getLast?).map fun log => log.blockNumber)) with hlt | hge
    · rw [stored_of_not_scanned ho hs.treeHeight hp hlt]
      exact hs.stored p log (lt_of_not_scanned hs.le hcond hp hlt) hp
    · exact stored_of_scanned ho hs.treeHeight hp hge

/-- A service that was down while the second of two leaves was mined, in the block after. -/
theorem restartSubscriptions_stored_two :
    let event (i : ℕ) : Emitted := ⟨[], ⟨i, Bytes.fill 32 7, Bytes.zeros 32⟩, []⟩
    let w := ((insertLogs [] [⟨event 0, 1⟩]).run
      { trackedWorld [] 1 with chain := [[], [event 0], [event 1]], ws_provider := none }).2
    ∃ d', (restartSubscriptions.run w).2.db.findOne (docId [] 0) = some d' ∧
      Stored 1 d' 1 ⟨event 1, 2⟩ := by
  intro event w
  have hw : w.db.findOne (docId [] 0)
      = some (withLeaf (trackedDoc [] 1) (Log.leaf ⟨event 0, 1⟩)) := by decide +kernel
  have hs : StoppedAt 1 [⟨event 0, 1⟩, ⟨event 1, 2⟩] 1 1
      (withLeaf (trackedDoc [] 1) (Log.leaf ⟨event 0, 1⟩)) := by
    refine ⟨rfl, rfl, fun p log hp hlog => ?_, fun p log hp hlog => ?_, le_rfl, rfl⟩
    · obtain rfl : p = 0 := by omega
      cases hlog
      decide +kernel
    · have hlt := (List.getElem?_eq_some_iff.1 hlog).1
      simp only [List.length_cons, List.length_nil] at hlt
      obtain rfl : p = 1 := by omega
      cases hlog
      decide +kernel
  have hlogs : World.getLogs [] 0 w = [⟨event 0, 1⟩, ⟨event 1, 2⟩] := by decide +kernel
  obtain ⟨d', h1, h2⟩ := (restartSubscriptions_stored_iff [] hw hlogs (by decide) (by decide) hs
    (by decide +kernel)).2 fun latest next hl hn => by
      cases hl
      cases hn
      decide
  exact ⟨d', h1, h2 1 _ rfl⟩

/-- The service stopped between the two leaves of a block, and the second is never stored. -/
theorem restartSubscriptions_stored_split :
    let event (i : ℕ) : Emitted := ⟨[], ⟨i, Bytes.fill 32 7, Bytes.zeros 32⟩, []⟩
    let w := ((insertLogs [] [⟨event 0, 1⟩]).run
      { trackedWorld [] 1 with chain := [[], [event 0, event 1]], ws_provider := none }).2
    let w' := restartSubscriptions.run w
    w'.1 = .ok () ∧ (World.getLogs [] 0 w'.2).length = 2 ∧
      entryAt [] w'.2 (leafIndexToNodeIndex 1 1) = none := by
  decide +kernel

end CommitMgr

end Baseline
