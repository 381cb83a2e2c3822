import Baseline.Proofs.Session

/-!
# Updates that are interrupted

The record is an update's last write, so an interrupted update leaves the old record over nodes of
which some are new (`Torn`). Those it may have written are not complete in the old record's tree,
and the next update writes all of these again. The frontier depends on the leaves alone and not on
how they were split into updates (`nextFrontier_recordOf`), so there is one document an update can
leave for some leaves (`Torn.unique`).
-/

namespace Baseline

open Await HashTree

namespace CommitMgr

/-! ## The record of some leaves -/

section Frontier

variable {S : Scheme (Bytes 27) (Bytes 32)} {h : ℕ}

theorem frontierAfter_append : ∀ (us vs : List (Bytes 27)) (frontier : List (Option Str))
    (ls : List (Bytes 27)), frontierAfter S frontier ls (us ++ vs)
      = frontierAfter S (frontierAfter S frontier ls us) (ls ++ us) vs
  | [], vs, frontier, ls => by rw [List.append_nil]; rfl
  | u :: us, vs, frontier, ls => by
    rw [List.cons_append, frontierAfter, frontierAfter_append us vs, frontierAfter,
      List.append_assoc, List.singleton_append]

theorem length_frontierAfter : ∀ (vs : List (Bytes 27)) {frontier : List (Option Str)}
    {ls : List (Bytes 27)}, frontier.length = h + 1 → ls.length + vs.length ≤ 2 ^ h →
      (frontierAfter S frontier ls vs).length = h + 1
  | [], _, _, hf, _ => hf
  | v :: vs, frontier, ls, hf, hn => by
    rw [List.length_cons] at hn
    have hs := slot_le (show ls.length < 2 ^ h by omega)
    refine length_frontierAfter vs ?_ ?_
    · rw [length_setEntry]
      omega
    · rw [List.length_append, List.length_singleton]
      omega

theorem sizedFrontier_length {frontier : List (Option Str)} (hf : frontier.length = h + 1) :
    sizedFrontier h frontier = frontier := by
  rw [sizedFrontier, if_neg fun hne => hne.1 hf]

theorem sizedFrontier_default (h30 : h ≤ 30) :
    sizedFrontier h (List.replicate 33 none) = List.replicate (h + 1) none := by
  rw [sizedFrontier, if_pos ⟨by rw [List.length_replicate]; omega, by omega⟩, setLength,
    List.take_replicate, List.length_replicate, Nat.min_eq_left (by omega),
    show h + 1 - 33 = 0 by omega, List.replicate_zero, List.append_nil]

end Frontier

section RecordOf

variable {sha256 : List UInt8 → Bytes 32} {h : ℕ} {logs : List Log}

/-- The record an update over the leaves of `logs` leaves, the schema's defaults without a leaf. -/
def recordOf (sha256 : List UInt8 → Bytes 32) (h : ℕ) (logs : List Log) : LatestRecalculation where
  blockNumber := (latestLeafOf logs).blockNumber
  leafIndex := (latestLeafOf logs).leafIndex
  root := if logs = [] then none else some (hexlify ((treeScheme sha256).root (values logs) h))
  frontier := if logs = [] then List.replicate 33 none
    else frontierAfter (treeScheme sha256) (List.replicate (h + 1) none) [] (values logs)

theorem recorded_recordOf (ho : InOrder logs) :
    recorded (recordOf sha256 h logs) = logs.length := by
  by_cases hne : logs = []
  · subst hne
    rfl
  · obtain ⟨log, -, hlast⟩ := latestLeafOf_ne_nil ho hne
    have hpos := List.length_pos_iff.2 hne
    rw [recorded, recordOf, hlast, Option.elim_some, Nat.sub_add_cancel hpos]

theorem recordOf_frontier (hne : logs ≠ []) : (recordOf sha256 h logs).frontier
    = frontierAfter (treeScheme sha256) (List.replicate (h + 1) none) [] (values logs) := if_neg hne

theorem frontierOf_recordOf :
    FrontierOf (treeScheme sha256) h (values logs) (recordOf sha256 h logs).frontier := by
  by_cases hne : logs = []
  · subst hne
    exact frontierOf_nil _ _
  · rw [recordOf_frontier hne]
    exact FrontierOf.after (values logs) (frontierOf_nil h _)

theorem sizedFrontier_recordOf (h30 : h ≤ 30) (hsize : logs.length ≤ 2 ^ h) :
    sizedFrontier h (recordOf sha256 h logs).frontier
      = frontierAfter (treeScheme sha256) (List.replicate (h + 1) none) [] (values logs) := by
  by_cases hne : logs = []
  · subst hne
    exact sizedFrontier_default h30
  · rw [recordOf_frontier hne]
    refine sizedFrontier_length (length_frontierAfter _ (List.length_replicate) ?_)
    rwa [List.length_nil, Nat.zero_add, length_values]

/-- Updated in steps or at once, the frontier is the same. -/
theorem nextFrontier_recordOf (h30 : h ≤ 30) (hsize : logs.length ≤ 2 ^ h) (hne : logs ≠ [])
    (n : ℕ) : nextFrontier sha256 h logs n (recordOf sha256 h (logs.take n)).frontier
      = (recordOf sha256 h logs).frontier := by
  have happ := frontierAfter_append (S := treeScheme sha256) (values (logs.take n))
    (values (logs.drop n)) (List.replicate (h + 1) none) []
  rw [values_take_append_drop, List.nil_append] at happ
  rw [nextFrontier, sizedFrontier_recordOf h30 (by rw [List.length_take]; omega),
    recordOf_frontier hne, happ]

end RecordOf

/-! ## Torn trees -/

/-- The leaves are all stored, the record is that of the first `k`, and the nodes are those of
these leaves but for some that updates since may have written. The tree is active or not. -/
structure Torn (sha256 : List UInt8 → Bytes 32) (h : ℕ) (flag : Option Bool) (logs : List Log)
    (k : ℕ) (d : TreeDoc) : Prop extends LeafRow h logs d where
  inOrder : InOrder logs
  size : logs.length ≤ 2 ^ h
  stored : ∀ p log, logs[p]? = some log → Stored h d p log
  length : d.nodes.length = if logs = [] then 0 else index h 0 logs.length
  active : d.active = flag
  latestLeaf : d.latestLeaf = latestLeafOf logs
  le : k ≤ logs.length
  record : d.latestRecalculation = recordOf sha256 h (logs.take k)
  settled : Settled sha256 h (values (logs.take k)) logs.length d.nodes
  /-- No update can have been interrupted since one that processed all leaves. -/
  hashed : k = logs.length → Hashed sha256 h (values logs) d

section Torn

variable {sha256 : List UInt8 → Bytes 32} {h k : ℕ} {flag : Option Bool} {logs : List Log}
  {d d' : TreeDoc}

theorem torn_tracked (a : Str) (h : ℕ) : Torn sha256 h (some true) [] 0 (trackedDoc a h) := by
  have hd : Consistent sha256 h [] (trackedDoc a h) := consistent_tracked a h
  exact {
    toLeafRow := hd.toLeafRow
    inOrder := hd.inOrder
    size := Nat.zero_le _
    stored := hd.stored
    length := rfl
    active := rfl
    latestLeaf := rfl
    le := le_rfl
    record := rfl
    settled := hd.hashed.settled (Nat.zero_le _)
    hashed := fun _ => hd.hashed }

theorem Torn.recorded_eq (hd : Torn sha256 h flag logs k d) :
    recorded d.latestRecalculation = k := by
  rw [hd.record, recorded_recordOf (hd.inOrder.take k), List.length_take, Nat.min_eq_left hd.le]

theorem Torn.length_of_ne (hd : Torn sha256 h flag logs k d) (hne : logs ≠ []) :
    d.nodes.length = index h 0 logs.length := by rw [hd.length, if_neg hne]

theorem torn_withLeaf (hd : Torn sha256 h flag logs k d) {log : Log}
    (hi : log.event.leafIndex = logs.length) (hn : logs.length < 2 ^ h) :
    Torn sha256 h flag (logs ++ [log]) k (withLeaf d log.leaf) := by
  have hinner : ∀ l p, 0 < l → l < h → p < 2 ^ (h - l) →
      entry (withLeaf d log.leaf).nodes (index h l p) = entry d.nodes (index h l p) :=
    fun l p hl hlh hp => inner_withLeaf hd.toLeafRow hi (index_le_of_le hl hlh.le hp)
  have htake : (logs ++ [log]).take k = logs.take k := List.take_append_of_le_length hd.le
  have hlen : (logs ++ [log]).length = logs.length + 1 := by simp
  refine ⟨leafRow_withLeaf hd.toLeafRow hi, hd.inOrder.concat hi, by omega,
    fun p log' => stored_withLeaf hd.toLeafRow hi hd.stored, ?_, hd.active,
    latestLeaf_withLeaf d logs log, by have := hd.le; omega, htake ▸ hd.record, ⟨?_, ?_⟩,
    fun hk => ?_⟩
  · have hne : logs ++ [log] ≠ [] := by simp
    rw [withLeaf_nodes hd.toLeafRow hi, length_setEntry, if_neg hne, hlen, hd.length, index_leaf,
      index_leaf]
    split_ifs <;> omega
  · intro l p hl hlh hp hle
    rw [htake] at hle ⊢
    rw [hinner l p hl hlh hp]
    exact hd.settled.complete l p hl hlh hp hle
  · intro l p hl hlh hp hle
    rw [hinner l p hl hlh hp]
    exact hd.settled.empty l p hl hlh hp (by omega)
  · have := hd.le
    omega

/-- Some of an update's writes. -/
theorem torn_written (hd : Torn sha256 h flag logs k d) (hk : k < logs.length) {us : List (ℕ × Str)}
    (hus : us ⊆ allWrites sha256 h (values logs) k (logs.length - k)) :
    Torn sha256 h flag logs k { d with nodes := written d.nodes us } := by
  have hne : logs ≠ [] := List.ne_nil_of_length_pos (by omega)
  have hsize := hd.size
  have hlt : ∀ x ∈ us, x.1 < 2 ^ h - 1 := fun x hx =>
    allWrites_lt (by omega) (by omega) (hus hx)
  have hkeep : ∀ l p, l ≤ h → p < 2 ^ (h - l) → (p + 1) * 2 ^ l ≤ k ∨ logs.length ≤ p * 2 ^ l →
      entry (written d.nodes us) (index h l p) = entry d.nodes (index h l p) := by
    intro l p hl hp hout
    refine entry_written_of_notMem us d.nodes fun x hx heq => ?_
    obtain ⟨l', p', hx', hl', hp', h1, h2⟩ := allWrites_cases (by omega) (by omega) (hus hx)
    obtain ⟨rfl, rfl⟩ := index_inj hl' hl hp' hp (hx'.symm.trans heq)
    rw [Nat.add_sub_cancel' hk.le] at h2
    omega
  have hlen : (values (logs.take k)).length = k := by
    rw [length_values, List.length_take, Nat.min_eq_left hd.le]
  refine ⟨leafRow_written hd.toLeafRow rfl hlt hd.treeHeight, hd.inOrder, hd.size,
    fun p log hp => ?_, ?_, hd.active, hd.latestLeaf, hd.le, hd.record, ⟨?_, ?_⟩, by omega⟩
  · rw [Stored, leaf_written rfl hlt]
    exact hd.stored p log hp
  · have hbound : ∀ x ∈ us, x.1 < d.nodes.length := by
      intro x hx
      have := hlt x hx
      rw [hd.length_of_ne hne, index_leaf]
      omega
    exact (length_written us d.nodes hbound).trans hd.length
  · intro l p hl hlh hp hle
    rw [hkeep l p hlh.le hp (.inl (hlen ▸ hle))]
    exact hd.settled.complete l p hl hlh hp hle
  · intro l p hl hlh hp hle
    rw [hkeep l p hlh.le hp (.inr hle)]
    exact hd.settled.empty l p hl hlh hp hle

/-- All of an update's writes. -/
theorem torn_updated (hh : 1 ≤ h) (hd : Torn sha256 h flag logs k d) (hk : k < logs.length) :
    Torn sha256 h flag logs logs.length { d with
      nodes := written d.nodes (allWrites sha256 h (values logs) k (logs.length - k))
      latestRecalculation := recordOf sha256 h logs } := by
  have hsize := hd.size
  have hd' := torn_written hd hk (List.Subset.refl _)
  have hsplit := values_take_append_drop logs k
  have hlen : (values (logs.take k)).length = k := by
    rw [length_values, List.length_take, Nat.min_eq_left hd.le]
  have hlen' : (values (logs.drop k)).length = logs.length - k := by
    rw [length_values, List.length_drop]
  have hhashed : Hashed sha256 h (values logs) { d with
      nodes := written d.nodes (allWrites sha256 h (values logs) k (logs.length - k))
      latestRecalculation := recordOf sha256 h logs } := by
    rw [← hsplit]
    have hsettled : Settled sha256 h (values (logs.take k))
        ((values (logs.take k)).length + (values (logs.drop k)).length) d.nodes := by
      rw [hlen, hlen', Nat.add_sub_cancel' hk.le]
      exact hd.settled
    refine hsettled.hashed hh ?_ (by omega) (by rw [hsplit, hlen, hlen'])
    rw [← List.length_pos_iff, hlen']
    omega
  refine ⟨⟨hd'.treeHeight, hd'.inner, hd'.leaf⟩, hd.inOrder, hd.size, hd'.stored, hd'.length,
    hd.active, hd.latestLeaf, le_rfl, by rw [List.take_length], ?_, fun _ => hhashed⟩
  rw [List.take_length]
  exact hhashed.settled (by rw [length_values])

end Torn

/-! ## Accesses served one by one -/

section Throughout

variable {sha256 : List UInt8 → Bytes 32} {a : Str} {h k : ℕ} {flag : Option Bool}
  {logs : List Log} {d : TreeDoc} {w : World} {P : World → Prop}

theorem throughout_findOne_deref {β : Type} {l : AwaitPoint} {id : Str} {f : TreeDoc → Js β}
    (hP : P w) (hf : ∀ d, w.db.findOne id = some d → (f d).Throughout P w) :
    (Js.findOne l id >>= fun d => Js.deref d >>= f).Throughout P w := by
  refine ⟨hP, ?_⟩
  change (Js.deref (w.db.findOne id) >>= f).Throughout P w
  rcases hw : w.db.findOne id with _ | d
  · exact hP
  · exact hf d hw

/-- Reading a range changes nothing. -/
theorem leafIndexRangeLoop_throughout {treeHeight maxIndex : ℕ} (hP : P w) :
    ∀ (fuel leafIndex : ℕ) (leaves : List Node),
      (leafIndexRangeLoop a treeHeight maxIndex fuel leafIndex leaves).Throughout P w
  | 0, _, _ => hP
  | fuel + 1, leafIndex, leaves => by
    rw [leafIndexRangeLoop]
    split_ifs
    · exact throughout_findOne_deref hP fun d _ => leafIndexRangeLoop_throughout hP fuel _ _
    · exact hP

theorem getLeavesByLeafIndexRange_throughout (hP : P w) (lo hi : ℕ) :
    (getLeavesByLeafIndexRange a lo hi).Throughout P w :=
  throughout_findOne_deref hP fun _ _ => leafIndexRangeLoop_throughout hP _ _ _

theorem storeNodes_throughout : ∀ (ws : List (ℕ × Str)) {d : TreeDoc} {w : World},
    w.db.findOne (docId a 0) = some d → (∀ x ∈ ws, x.1 < BUCKET_SIZE) →
      (∀ us, us <+: ws → ∀ w', Evolves a { d with nodes := written d.nodes us } w w' → P w') →
      (storeNodes a ws).Throughout P w
  | [], d, w, hw, _, hP => hP [] (List.nil_prefix) w (Evolves.refl hw)
  | (j, hash) :: ws, d, w, hw, hlt, hP => by
    have hP₀ : P w := hP [] List.nil_prefix w (Evolves.refl hw)
    have he := Evolves.updateOne hw { nodes := some (setEntry d.nodes j (hashNode hash)) }
    have ih := storeNodes_throughout ws he.doc (fun x hx => hlt x (List.mem_cons_of_mem _ hx))
      fun us hus w' hw' => hP ((j, hash) :: us) (List.cons_prefix_cons.2 ⟨rfl, hus⟩) w'
        (he.trans hw')
    have hj := hlt (j, hash) List.mem_cons_self
    rw [storeNodes, storeNode, calculateBucket_eq hj]
    simp only [Proc.bind_assoc]
    refine throughout_findOne_deref hP₀ fun d' hd' => ⟨hP₀, ?_⟩
    obtain rfl : d = d' := Option.some.inj (hw.symm.trans hd')
    rw [Nat.mod_eq_of_lt hj]
    exact ih

variable (hh : 1 ≤ h) (hfit : logs.length ≤ fit h) (hd : Torn sha256 h flag logs k d)
include hh hfit hd

variable (a) in
/-- `updateNodes` on the leaves that the record does not cover, as its accesses. -/
theorem updateNodes_torn (hk : k < logs.length) :
    updateNodesFrom sha256 d a d.latestRecalculation.frontier
        (((logs.drop k).map fun log => log.leaf.toNode).map Node.hash) k
      = storeNodes a (allWrites sha256 h (values logs) k (logs.length - k)) >>= fun _ =>
        Js.updateOne .updateNodes_latestRecalculation (docId a 0)
          { latestRecalculation := some (recordOf sha256 h logs) } >>= fun _ =>
        .ret (some (rootText sha256 h (values logs))) := by
  have hne : logs ≠ [] := List.ne_nil_of_length_pos (by omega)
  have h30 : h ≤ 30 := height_le (by omega)
  have hf : FrontierOf (treeScheme sha256) h (values (logs.take k))
      d.latestRecalculation.frontier := hd.record ▸ frontierOf_recordOf
  have hrecord : recordOf sha256 h logs = ⟨d.latestLeaf.blockNumber, d.latestLeaf.leafIndex,
      some (hexlify ((treeScheme sha256).root (values logs) h)),
      nextFrontier sha256 h logs k d.latestRecalculation.frontier⟩ := by
    rw [hd.record, nextFrontier_recordOf h30 hd.size hne, hd.latestLeaf, recordOf, if_neg hne]
  rw [updateNodesFrom_logs a hh h30 hd.treeHeight hk hd.size hf, hrecord, rootText_of_ne_nil hne]

theorem updateNodes_torn_run (hw : w.db.findOne (docId a 0) = some d) (hk : k < logs.length) :
    ∃ w' d', (updateNodes sha256 a d.latestRecalculation.frontier
        (((logs.drop k).map fun log => log.leaf.toNode).map Node.hash) k).run w
          = (.ok (some (rootText sha256 h (values logs))), w') ∧
      Evolves a d' w w' ∧ Torn sha256 h flag logs logs.length d' := by
  have hsize := hd.size
  obtain ⟨w₁, h1, he₁⟩ := storeNodes_run (allWrites sha256 h (values logs) k (logs.length - k)) hw
    fun x hx => (allWrites_lt (by omega) (by omega) hx).trans (inner_lt_bucket (by omega))
  have he₂ := Evolves.updateOne he₁.doc { latestRecalculation := some (recordOf sha256 h logs) }
  refine ⟨_, _, ?_, he₁.trans he₂, torn_updated hh hd hk⟩
  rw [updateNodes, run_findOne_deref, hw]
  simp only [updateNodes_torn a hh hfit hd hk]
  rw [Proc.run_bind_ok h1, run_updateOne]
  rfl

theorem updateNodes_torn_throughout (hw : w.db.findOne (docId a 0) = some d)
    (hk : k < logs.length) :
    (updateNodes sha256 a d.latestRecalculation.frontier
        (((logs.drop k).map fun log => log.leaf.toNode).map Node.hash) k).Throughout
      (fun w' => ∃ d' k', Evolves a d' w w' ∧ Torn sha256 h flag logs k' d') w := by
  have hsize := hd.size
  have hlt : ∀ x ∈ allWrites sha256 h (values logs) k (logs.length - k), x.1 < BUCKET_SIZE :=
    fun x hx => (allWrites_lt (by omega) (by omega) hx).trans (inner_lt_bucket (by omega))
  refine throughout_findOne_deref ⟨d, k, Evolves.refl hw, hd⟩ fun d' hd' => ?_
  obtain rfl : d = d' := Option.some.inj (hw.symm.trans hd')
  rw [updateNodes_torn a hh hfit hd hk]
  refine Proc.Throughout.bind (storeNodes_throughout _ hw hlt fun us hus w' he => ?_)
    fun _ w' hrun => ?_
  · exact ⟨_, k, he, torn_written hd hk hus.subset⟩
  · obtain ⟨w₁, h1, he₁⟩ := storeNodes_run _ hw hlt
    obtain rfl : w₁ = w' := congrArg Prod.snd (h1.symm.trans hrun)
    exact ⟨⟨_, k, he₁, torn_written hd hk (List.Subset.refl _)⟩, _, _,
      he₁.trans (Evolves.updateOne he₁.doc _), torn_updated hh hd hk⟩

omit hh in
/-- The leaves an update reads. -/
theorem newLeaves_run (hw : w.db.findOne (docId a 0) = some d) (hk : k < logs.length) :
    (getLeavesByLeafIndexRange a k (logs.length - 1)).run w
      = (.ok ((logs.drop k).map fun log => log.leaf.toNode), w) := by
  have hrange := getLeavesByLeafIndexRange_run hw hd.toLeafRow hd.inOrder k (logs.length - 1)
    (index_lt_bucket_iff.2 (by omega)) fun p log _ hp => hd.stored p log hp
  rwa [Nat.sub_add_cancel (by omega), List.take_length] at hrange

theorem updateTree_torn_throughout (hw : w.db.findOne (docId a 0) = some d) :
    (updateTree sha256 a).Throughout
      (fun w' => ∃ d' k', Evolves a d' w w' ∧ Torn sha256 h flag logs k' d') w := by
  refine throughout_findOne_deref ⟨d, k, Evolves.refl hw, hd⟩ fun d' hd' => ?_
  obtain rfl : d = d' := Option.some.inj (hw.symm.trans hd')
  simp only []
  split_ifs with hblock hle
  · exact ⟨d, k, Evolves.refl hw, hd⟩
  · have hne : logs ≠ [] := by
      rintro rfl
      exact hblock (by rw [hd.latestLeaf]; rfl)
    have hpos := List.length_pos_iff.2 hne
    obtain ⟨last, -, hlast⟩ := latestLeafOf_ne_nil hd.inOrder hne
    have hfrom : d.latestRecalculation.leafIndex.elim 0 (· + 1) = k := hd.recorded_eq
    rw [hfrom, hd.latestLeaf, hlast, Option.getD_some] at hle ⊢
    have hk : k < logs.length := by omega
    refine Proc.Throughout.bind (getLeavesByLeafIndexRange_throughout
      ⟨d, k, Evolves.refl hw, hd⟩ _ _) fun leaves w' hrun => ?_
    rw [newLeaves_run hfit hd hw hk] at hrun
    cases hrun
    exact updateNodes_torn_throughout hh hfit hd hw hk
  · exact ⟨d, k, Evolves.refl hw, hd⟩

/-- A complete update, whatever the earlier ones left. -/
theorem updateTree_torn_run (hw : w.db.findOne (docId a 0) = some d)
    (hblock : ∀ log ∈ logs.getLast?, 1 ≤ log.blockNumber) :
    ∃ w' d', (updateTree sha256 a).run w = (.ok (some (rootText sha256 h (values logs))), w') ∧
      Evolves a d' w w' ∧ Torn sha256 h flag logs logs.length d' := by
  unfold updateTree
  rw [run_findOne_deref, hw]
  have hfrom : d.latestRecalculation.leafIndex.elim 0 (· + 1) = k := hd.recorded_eq
  have hle := hd.le
  simp only [hfrom, hd.latestLeaf]
  rcases hlast : logs.getLast? with _ | last
  · obtain rfl := List.getLast?_eq_none_iff.1 hlast
    obtain rfl : k = 0 := Nat.le_zero.1 hd.le
    exact ⟨w, d, rfl, Evolves.refl hw, hd⟩
  · have hne : logs ≠ [] := by
      rintro rfl
      cases hlast
    obtain ⟨log, -, hlog⟩ := latestLeafOf_ne_nil hd.inOrder hne
    have hb := hblock last hlast
    have hnumber : (latestLeafOf logs).blockNumber = some last.blockNumber := by
      rw [latestLeafOf, hlast, Option.map_some]
    have hpos := List.length_pos_iff.2 hne
    rw [hnumber, Option.getD_some, if_neg (by omega), hlog, Option.getD_some]
    by_cases hk : k < logs.length
    · rw [if_pos (by omega), Proc.run_bind_ok (newLeaves_run hfit hd hw hk)]
      exact updateNodes_torn_run hh hfit hd hw hk
    · obtain rfl : k = logs.length := by omega
      have hroot : d.latestRecalculation.root = some (rootText sha256 h (values logs)) := by
        rw [hd.record, List.take_length, recordOf, if_neg hne, rootText_of_ne_nil hne]
      refine ⟨w, d, ?_, Evolves.refl hw, hd⟩
      rw [if_neg (by omega), hroot]
      rfl

end Throughout

/-! ## Sessions with interrupted updates -/

section Unique

variable {sha256 : List UInt8 → Bytes 32} {h : ℕ} {flag : Option Bool} {logs : List Log}
  {d d' : TreeDoc}

theorem entry_eq_of_hashed {ls : List (Bytes 27)} (hd : Hashed sha256 h ls d)
    (hd' : Hashed sha256 h ls d') {j : ℕ} (hj : j < 2 ^ h - 1) :
    entry d.nodes j = entry d'.nodes j := by
  by_cases h0 : j = 0
  · subst h0
    rw [hd.root, hd'.root]
  · obtain ⟨hl, hlh⟩ := levelOf_inner (Nat.pos_of_ne_zero h0) hj
    have hlt : j + 1 < 2 ^ (h + 1) := by rw [pow_succ]; omega
    have hp := positionOf_lt hlt
    rw [← index_levelOf hlt, hd.node _ _ hl hlh hp, hd'.node _ _ hl hlh hp]

theorem entry_eq_of_stored (hd : LeafRow h logs d) (hd' : LeafRow h logs d')
    (hs : ∀ p log, logs[p]? = some log → Stored h d p log)
    (hs' : ∀ p log, logs[p]? = some log → Stored h d' p log) (p : ℕ) :
    entry d.nodes (index h 0 p) = entry d'.nodes (index h 0 p) := by
  rcases hp : logs[p]? with _ | log
  · have hnone : ∀ {e : TreeDoc}, LeafRow h logs e → entry e.nodes (index h 0 p) = none := by
      intro e he
      refine Option.eq_none_iff_forall_ne_some.2 fun node hnode => ?_
      obtain ⟨log, hlog, -⟩ := he.leaf p node hnode
      rw [hp] at hlog
      cases hlog
    rw [hnone hd, hnone hd']
  · rw [hs p log hp, hs' p log hp]

/-- Once all leaves are processed, they say what the document is. -/
theorem Torn.unique (hd : Torn sha256 h flag logs logs.length d)
    (hd' : Torn sha256 h flag logs logs.length d') (hid : d._id = d'._id) : d = d' := by
  have hnodes : d.nodes = d'.nodes := by
    refine entry_ext _ (hd.length.trans hd'.length.symm) fun j => ?_
    rcases Nat.lt_or_ge j (2 ^ h - 1) with hlt | hge
    · exact entry_eq_of_hashed (hd.hashed rfl) (hd'.hashed rfl) hlt
    · obtain ⟨p, rfl⟩ := Nat.exists_eq_add_of_le hge
      rw [← index_leaf]
      exact entry_eq_of_stored hd.toLeafRow hd'.toLeafRow hd.stored hd'.stored p
  obtain ⟨id, height, latest, active, record, nodes⟩ := d
  obtain ⟨id', height', latest', active', record', nodes'⟩ := d'
  obtain rfl : id = id' := hid
  obtain rfl : nodes = nodes' := hnodes
  obtain rfl : height = height' := hd.treeHeight.trans hd'.treeHeight.symm
  obtain rfl : latest = latest' := hd.latestLeaf.trans hd'.latestLeaf.symm
  obtain rfl : active = active' := hd.active.trans hd'.active.symm
  obtain rfl : record = record' := hd.record.trans hd'.record.symm
  rfl

end Unique

section Attempts

variable {sha256 : List UInt8 → Bytes 32} {a : Str} {h : ℕ}

/-- The logs there are after an action. -/
def logsAfter (sha256 : List UInt8 → Bytes 32) (a : Str) (h : ℕ) (logs : List Log) :
    Action → List Log
  | .leaf v b t =>
    if logs.length < 2 ^ h then
      logs ++ [⟨⟨a, ⟨logs.length, v, (treeScheme sha256).root (values logs ++ [v.low27]) h⟩, t⟩, b⟩]
    else logs
  | .updateTree => logs

theorem length_logsAfter {logs : List Log} (hn : logs.length ≤ 2 ^ h) (action : Action) :
    (logsAfter sha256 a h logs action).length ≤ 2 ^ h := by
  cases action with
  | leaf v b t =>
    rw [logsAfter]
    split_ifs with hlt
    · rw [List.length_append, List.length_singleton]
      omega
    · exact hn
  | updateTree => exact hn

theorem leafValues_cons (action : Action) (actions : List Action) :
    leafValues (action :: actions) = leafValues [action] ++ leafValues actions := by
  rw [leafValues, leafValues, leafValues, ← List.filterMap_append, List.singleton_append]

theorem emittedValues_logsAfter {logs : List Log} (hn : logs.length ≤ 2 ^ h) (action : Action) :
    emittedValues (logsAfter sha256 a h logs action)
      = (emittedValues logs ++ leafValues [action]).take (2 ^ h) := by
  have hlen := length_emittedValues logs
  cases action with
  | leaf v b t =>
    have hv : leafValues [.leaf v b t] = [v] := rfl
    rw [logsAfter, hv]
    split_ifs with hlt
    · rw [List.take_of_length_le (by simp; omega), emittedValues, List.map_append]
      rfl
    · rw [List.take_append_of_le_length (by omega), List.take_of_length_le (by omega)]
  | updateTree =>
    have hv : leafValues [.updateTree] = [] := rfl
    rw [logsAfter, hv, List.append_nil, List.take_of_length_le (by omega)]

theorem emittedValues_runs : ∀ (actions : List Action) {logs : List Log}, logs.length ≤ 2 ^ h →
    emittedValues (actions.foldl (logsAfter sha256 a h) logs)
      = (emittedValues logs ++ leafValues actions).take (2 ^ h)
  | [], logs, hn => by
    rw [leafValues, List.filterMap_nil, List.append_nil, List.foldl_nil,
      List.take_of_length_le (by rwa [length_emittedValues])]
  | action :: actions, logs, hn => by
    rw [List.foldl_cons, emittedValues_runs actions (length_logsAfter hn action),
      emittedValues_logsAfter hn action, take_take_append, leafValues_cons action actions,
      List.append_assoc]

theorem blockNumbers_cons (action : Action) (actions : List Action) :
    blockNumbers (action :: actions) = blockNumbers [action] ++ blockNumbers actions := by
  rw [blockNumbers, blockNumbers, blockNumbers, ← List.filterMap_append, List.singleton_append]

theorem blocks_runs : ∀ (actions : List Action) {logs : List Log}, BlocksPositive actions →
    (∀ log ∈ logs, 1 ≤ log.blockNumber) →
    ∀ log ∈ actions.foldl (logsAfter sha256 a h) logs, 1 ≤ log.blockNumber
  | [], _, _, hlogs => hlogs
  | action :: actions, logs, hpos, hlogs => by
    have hrest : BlocksPositive actions := fun b hb =>
      hpos b (by rw [blockNumbers_cons action actions]; exact List.mem_append_right _ hb)
    refine blocks_runs actions hrest fun log hlog => ?_
    cases action with
    | leaf v b t =>
      rw [logsAfter] at hlog
      split_ifs at hlog
      · rcases List.mem_append.1 hlog with hmem | hmem
        · exact hlogs log hmem
        · rw [List.mem_singleton.1 hmem]
          exact hpos b List.mem_cons_self
      · exact hlogs log hlog
    | updateTree => exact hlogs log hlog

/-- The contract holds the leaves of the logs, and the service has stored them all. -/
structure Stands (sha256 : List UInt8 → Bytes 32) (a : Str) (h : ℕ) (logs : List Log)
    (s : Session) : Prop where
  contract : MerkleTreeSHA256.Represents (precompile sha256) h (values logs) s.contract
  world : ∃ d k, s.world.db.findOne (docId a 0) = some d ∧ Torn sha256 h (some true) logs k d

variable {logs : List Log} {s : Session}

theorem Stands.size (hs : Stands sha256 a h logs s) : logs.length ≤ 2 ^ h := by
  obtain ⟨d, k, -, hd⟩ := hs.world
  exact hd.size

theorem Stands.leaf (hh : 1 ≤ h) (h32 : h ≤ 32) (hfit : 2 ^ h ≤ fit h)
    (hs : Stands sha256 a h logs s) (v : Bytes 32) (b : ℕ) (t : Str) :
    Stands sha256 a h (logsAfter sha256 a h logs (.leaf v b t))
      (s.step sha256 a (.leaf v b t)) := by
  obtain ⟨d, k, hw, hd⟩ := hs.world
  by_cases hlt : logs.length < 2 ^ h
  · obtain ⟨contract, h1, hc⟩ := MerkleTreeSHA256.insertLeaf_represents hh (by omega) hs.contract
      (by rwa [length_values]) v
    rw [length_values] at h1
    have hroot : contract.latestRoot = (treeScheme sha256).root (values logs ++ [v.low27]) h := by
      rw [hc.root, if_neg (by simp)]
    let log : Log := ⟨⟨a, ⟨logs.length, v, contract.latestRoot⟩, t⟩, b⟩
    have hnode : leafIndexToNodeIndex d.treeHeight log.leaf.leafIndex = index h 0 logs.length := by
      rw [hd.treeHeight]
      rfl
    obtain ⟨w', h2, he⟩ := insertLeaf_run hw log.leaf
      (by rw [hnode]; exact index_lt_bucket_iff.2 (by omega))
    have hstep : s.step sha256 a (.leaf v b t) = ⟨contract, w'⟩ := by
      simp only [Session.step, h1]
      exact congrArg (fun r => Session.mk contract r.2) h2
    rw [hstep, logsAfter, if_pos hlt, ← hroot]
    refine ⟨?_, _, k, he.doc, torn_withLeaf hd rfl hlt⟩
    rw [values, List.map_append]
    exact hc
  · have hfull : s.contract.insertLeaf (precompile sha256) v = none :=
      MerkleTreeSHA256.insertLeaf_full
        (by rw [hs.contract.treeWidth, hs.contract.count, length_values]; omega) v
    rw [logsAfter, if_neg hlt, Session.step, hfull]
    exact hs

/-- An update up to any of its accesses, or to its end. -/
theorem Stands.updated (hs : Stands sha256 a h logs s) {w' : World}
    (hw' : ∀ d k, s.world.db.findOne (docId a 0) = some d → Torn sha256 h (some true) logs k d →
      ∃ d' k', Evolves a d' s.world w' ∧ Torn sha256 h (some true) logs k' d') :
    Stands sha256 a h logs { s with world := w' } := by
  obtain ⟨d, k, hw, hd⟩ := hs.world
  obtain ⟨d', k', he, hd'⟩ := hw' d k hw hd
  exact ⟨hs.contract, d', k', he.doc, hd'⟩

theorem Stands.action (hh : 1 ≤ h) (h32 : h ≤ 32) (hfit : 2 ^ h ≤ fit h)
    (hs : Stands sha256 a h logs s) : ∀ action : Action,
      Stands sha256 a h (logsAfter sha256 a h logs action) (s.step sha256 a action)
  | .leaf v b t => hs.leaf hh h32 hfit v b t
  | .updateTree => hs.updated fun _ _ hw hd =>
    (updateTree_torn_throughout hh (hs.size.trans hfit) hd hw).run

theorem Stands.attempts (hh : 1 ≤ h) (h32 : h ≤ 32) (hfit : 2 ^ h ≤ fit h) :
    ∀ (steps : List Attempt) {logs : List Log} {s : Session}, Stands sha256 a h logs s →
      Stands sha256 a h ((completeActions steps).foldl (logsAfter sha256 a h) logs)
        (s.attempts sha256 a steps)
  | [], _, _, hs => hs
  | .complete action :: steps, _, _, hs =>
    Stands.attempts hh h32 hfit steps (hs.action hh h32 hfit action)
  | .interrupted accesses :: steps, _, _, hs =>
    Stands.attempts hh h32 hfit steps (hs.updated fun _ _ hw hd =>
      (updateTree_torn_throughout hh (hs.size.trans hfit) hd hw).serves accesses)

theorem Stands.runs (hh : 1 ≤ h) (h32 : h ≤ 32) (hfit : 2 ^ h ≤ fit h) :
    ∀ (actions : List Action) {logs : List Log} {s : Session}, Stands sha256 a h logs s →
      Stands sha256 a h (actions.foldl (logsAfter sha256 a h) logs) (s.runs sha256 a actions)
  | [], _, _, hs => hs
  | action :: actions, _, _, hs =>
    Stands.runs hh h32 hfit actions (hs.action hh h32 hfit action)

theorem stands_start (h32 : h ≤ 32) {w : World}
    (hw : w.db.findOne (docId a 0) = some (trackedDoc a h)) :
    Stands sha256 a h [] ⟨MerkleTreeSHA256.new h, w⟩ where
  contract := MerkleTreeSHA256.new_represents (by omega)
  world := ⟨_, 0, hw, torn_tracked a h⟩

end Attempts

/-! ## Nodes after an update -/

/-- The number of leaves the stored record covers. -/
def processedAt (contractAddress : Str) (w : World) : ℕ :=
  (w.db.findOne (docId contractAddress 0)).elim 0 fun d => recorded d.latestRecalculation

theorem values_eq_storedValues {sha256 : List UInt8 → Bytes 32} {a : Str} {h : ℕ}
    (hfit : 2 ^ h ≤ fit h) (actions : List Action) :
    values (actions.foldl (logsAfter sha256 a h) [])
      = (storedValues h actions).map Bytes.low27 := by
  have hvalues : emittedValues (actions.foldl (logsAfter sha256 a h) [])
      = (emittedValues [] ++ leafValues actions).take (2 ^ h) :=
    emittedValues_runs actions (Nat.zero_le (2 ^ h))
  have hsplit : ∀ logs, values logs = (emittedValues logs).map Bytes.low27 := fun logs => by
    rw [values, emittedValues, List.map_map]
    rfl
  rw [hsplit, hvalues, storedValues, List.take_of_length_le (i := fit h)]
  · rfl
  · rw [List.length_take]
    omega

/-- Once an update has processed all leaves, the nodes between the root and the leaves are those of
the tree over them, and no other is stored. -/
theorem updateTree_nodes (sha256 : List UInt8 → Bytes 32) {h : ℕ} (hh : 1 ≤ h)
    (hb : 2 ^ (h + 1) - 1 ≤ BUCKET_SIZE) (contractAddress : Str) {w : World}
    (hw : w.db.findOne (docId contractAddress 0) = some (trackedDoc contractAddress h))
    (actions : List Action) :
    let s := Session.runs sha256 contractAddress ⟨MerkleTreeSHA256.new h, w⟩ actions
    let w' := ((updateTree sha256 contractAddress).run s.world).2
    let ls := (storedValues h actions).map Bytes.low27
    processedAt contractAddress w' = ls.length →
      ∀ j, 0 < j → j < 2 ^ h - 1 → entryAt contractAddress w' j
        = if positionOf j * 2 ^ levelOf h j < ls.length
          then some (hashNode (hexlify ((treeScheme sha256).node ls (levelOf h j) (positionOf j))))
          else none := by
  intro s w' ls hprocessed j h0 hj
  have hall := le_fit hb
  have h30 : h ≤ 30 := height_le (lt_of_lt_of_le (by positivity) hall)
  have h32 := h30.trans (show 30 ≤ 32 by norm_num)
  have hs : Stands sha256 contractAddress h (actions.foldl (logsAfter sha256 contractAddress h) [])
      { s with world := w' } :=
    (Stands.runs hh h32 hall actions (stands_start h32 hw)).action hh h32 hall .updateTree
  obtain ⟨d, k, hd, ht⟩ : ∃ d k, w'.db.findOne (docId contractAddress 0) = some d ∧
      Torn sha256 h (some true) (actions.foldl (logsAfter sha256 contractAddress h) []) k d :=
    hs.world
  have hls : values (actions.foldl (logsAfter sha256 contractAddress h) []) = ls :=
    values_eq_storedValues hall actions
  have hk : k = (actions.foldl (logsAfter sha256 contractAddress h) []).length := by
    have hrec : processedAt contractAddress w' = k := by
      rw [processedAt, hd, Option.elim_some, ht.recorded_eq]
    rw [← hrec, hprocessed, ← hls, length_values]
  obtain ⟨hl, hlh⟩ := levelOf_inner h0 hj
  have hlt : j + 1 < 2 ^ (h + 1) := by rw [pow_succ]; omega
  have hnode := (ht.hashed hk).node _ _ hl hlh (positionOf_lt hlt)
  rw [index_levelOf hlt] at hnode
  rw [entryAt_eq hd, hnode, ← hls, nodeHash]

/-- One leaf in a tree of height two: node `1` is above it, node `2` above none. -/
theorem updateTree_nodes_two :
    let s := Session.runs Sha256.digest [] ⟨MerkleTreeSHA256.new 2, trackedWorld [] 2⟩
      [.leaf (Bytes.fill 32 1) 1 []]
    let w' := ((updateTree Sha256.digest []).run s.world).2
    entryAt [] w' 1 = some (hashNode (hexlify
        ((treeScheme Sha256.digest).node [(Bytes.fill 32 1).low27] 1 0))) ∧
      entryAt [] w' 2 = none := by
  have h := updateTree_nodes Sha256.digest (h := 2) (by decide) (by decide) []
    (w := trackedWorld [] 2) (by decide) [.leaf (Bytes.fill 32 1) 1 []] (by decide +kernel)
  exact ⟨h 1 (by decide) (by decide), h 2 (by decide) (by decide)⟩

/-- Whatever updates were interrupted, and wherever, the next complete update leaves the document
and returns the root there would be if they had not been started. -/
theorem updateTree_recovers (sha256 : List UInt8 → Bytes 32) {h : ℕ} (hh : 1 ≤ h)
    (hb : 2 ^ (h + 1) - 1 ≤ BUCKET_SIZE) (contractAddress : Str) {w : World}
    (hw : w.db.findOne (docId contractAddress 0) = some (trackedDoc contractAddress h))
    (steps : List Attempt) (hpos : BlocksPositive (completeActions steps)) :
    let start : Session := ⟨MerkleTreeSHA256.new h, w⟩
    let s := start.attempts sha256 contractAddress steps
    let t := start.runs sha256 contractAddress (completeActions steps)
    let u := (updateTree sha256 contractAddress).run s.world
    let v := (updateTree sha256 contractAddress).run t.world
    u.1 = v.1 ∧ u.2.db.findOne (docId contractAddress 0)
      = v.2.db.findOne (docId contractAddress 0) := by
  intro start s t u v
  have hall := le_fit hb
  have h30 : h ≤ 30 := height_le (lt_of_lt_of_le (by positivity) hall)
  have h32 := h30.trans (show 30 ≤ 32 by norm_num)
  have hs : Stands sha256 contractAddress h _ s :=
    Stands.attempts hh h32 hall steps (stands_start h32 hw)
  have ht : Stands sha256 contractAddress h _ t :=
    Stands.runs hh h32 hall (completeActions steps) (stands_start h32 hw)
  have hblock : ∀ log ∈ (completeActions steps).foldl (logsAfter sha256 contractAddress h) [],
      1 ≤ log.blockNumber :=
    blocks_runs (completeActions steps) hpos (by simp)
  obtain ⟨d, k, hd, hd'⟩ := hs.world
  obtain ⟨e, m, he, he'⟩ := ht.world
  obtain ⟨w₁, d₁, h1, hev₁, hd₁⟩ := updateTree_torn_run hh (hs.size.trans hall) hd' hd
    fun log hlog => hblock log (List.mem_of_mem_getLast? hlog)
  obtain ⟨w₂, d₂, h2, hev₂, hd₂⟩ := updateTree_torn_run hh (ht.size.trans hall) he' he
    fun log hlog => hblock log (List.mem_of_mem_getLast? hlog)
  have hu : u = (.ok (some (rootText sha256 h _)), w₁) := h1
  have hv : v = (.ok (some (rootText sha256 h _)), w₂) := h2
  rw [hu, hv]
  refine ⟨rfl, ?_⟩
  have hsame := hd₁.unique hd₂ ((Collection.findOne_id hev₁.doc).trans
    (Collection.findOne_id hev₂.doc).symm)
  rw [hev₁.doc, hev₂.doc, hsame]

/-- An update of the second leaf that stopped before it wrote the record. -/
theorem updateTree_recovers_one :
    let start : Session := ⟨MerkleTreeSHA256.new 1, trackedWorld [] 1⟩
    let steps : List Attempt := [.complete (.leaf (Bytes.fill 32 1) 1 []), .complete .updateTree,
      .complete (.leaf (Bytes.fill 32 2) 1 []), .interrupted 6]
    ((updateTree Sha256.digest []).run (start.attempts Sha256.digest [] steps).world).1
      = ((updateTree Sha256.digest []).run
        (start.runs Sha256.digest [] (completeActions steps)).world).1 :=
  (updateTree_recovers Sha256.digest le_rfl (by decide) [] (w := trackedWorld [] 1) (by decide) _
    (by decide)).1

end CommitMgr

end Baseline
