import Baseline.Proofs.Store

/-!
# What `updateNodes` computes

The hashing does not depend on the database, so an `updateNodes` that starts from the frontier of
the leaves `ls` is a fixed list of node writes and a record (`updateNodesFrom_eq`). The writes are
the nodes the new leaves complete, and then the last leaf's path from its slot to the root; the
record's root and frontier are those of the tree with the new leaves. The root is stored in full
only if the path to it is not completed, that is unless the tree is full.
-/

namespace Baseline

open Await HashTree

namespace CommitMgr

/-! ## Writes -/

/-- Store some nodes, each with its hash. -/
def storeNodes (merkleId : Str) : List (ℕ × Str) → Js Unit
  | [] => .ret ()
  | (j, hash) :: ws => storeNode merkleId j hash >>= fun _ => storeNodes merkleId ws

theorem storeNodes_append {α : Type} (merkleId : Str) (f : Js α) :
    ∀ us vs : List (ℕ × Str), (storeNodes merkleId (us ++ vs) >>= fun _ => f)
      = storeNodes merkleId us >>= fun _ => storeNodes merkleId vs >>= fun _ => f
  | [], vs => rfl
  | (j, hash) :: us, vs => by
    have ih := storeNodes_append merkleId f us vs
    simp only [List.cons_append, storeNodes, Proc.bind_assoc, ih]

/-- The writes at the nodes of a list, in a tree of height `h`. -/
def writes (h : ℕ) (val : ℕ → ℕ → Str) (L : List (ℕ × ℕ)) : List (ℕ × Str) :=
  L.map fun n => (index h n.1 n.2, val n.1 n.2)

theorem writes_append (h : ℕ) (val : ℕ → ℕ → Str) (L M : List (ℕ × ℕ)) :
    writes h val (L ++ M) = writes h val L ++ writes h val M := List.map_append

theorem writes_congr {h : ℕ} {val val' : ℕ → ℕ → Str} {L : List (ℕ × ℕ)}
    (hv : ∀ l p, (l, p) ∈ L → val l p = val' l p) : writes h val L = writes h val' L :=
  List.map_congr_left fun n hn => by rw [hv n.1 n.2 hn]

/-! ## The frontier -/

section Frontier

variable (S : Scheme (Bytes 27) (Bytes 32))

/-- The array holds the left siblings the next leaf meets. -/
def FrontierOf (h : ℕ) (ls : List (Bytes 27)) (frontier : List (Option Str)) : Prop :=
  ∀ l < h, ls.length.testBit l →
    entry frontier l = some (hexlify (S.node ls l (ls.length / 2 ^ l - 1)))

variable {S} {h : ℕ} {ls : List (Bytes 27)} {frontier : List (Option Str)}

theorem frontierOf_nil (h : ℕ) (frontier : List (Option Str)) : FrontierOf S h [] frontier := by
  intro l _ hb
  simp at hb

theorem FrontierOf.setLength (hf : FrontierOf S h ls frontier) :
    FrontierOf S h ls (setLength frontier (h + 1)) := by
  intro l hl hb
  rw [entry_setLength, if_pos (by omega)]
  exact hf l hl hb

theorem FrontierOf.push (hf : FrontierOf S h ls frontier) (v : Bytes 27) :
    FrontierOf S h (ls ++ [v]) (setEntry frontier (slot ls.length)
      (hexlify (S.node (ls ++ [v]) (slot ls.length) (ls.length / 2 ^ slot ls.length)))) := by
  intro l hl hb
  rw [List.length_append, List.length_singleton, testBit_iff] at hb
  rw [List.length_append, List.length_singleton]
  rcases lt_trichotomy l (slot ls.length) with hlt | rfl | hgt
  · have := succ_div_of_lt_slot hlt
    omega
  · obtain ⟨q, h1, h2⟩ := div_slot ls.length
    rw [entry_setEntry_self, h1, h2, Nat.add_sub_cancel]
  · have hdiv := succ_div_of_slot_lt hgt
    rw [hdiv] at hb ⊢
    rw [entry_setEntry_ne _ _ hgt.ne', hf l hl (testBit_iff.2 hb),
      Scheme.node_append_of_ne ls v _ _ (by omega)]

variable (S) in
/-- The array after the leaves of a second list, from that after the leaves `ls`. -/
def frontierAfter (frontier : List (Option Str)) (ls : List (Bytes 27)) :
    List (Bytes 27) → List (Option Str)
  | [] => frontier
  | v :: vs => frontierAfter (setEntry frontier (slot ls.length)
      (hexlify (S.node (ls ++ [v]) (slot ls.length) (ls.length / 2 ^ slot ls.length))))
      (ls ++ [v]) vs

theorem FrontierOf.after : ∀ (vs : List (Bytes 27)) {ls : List (Bytes 27)}
    {frontier : List (Option Str)}, FrontierOf S h ls frontier →
      FrontierOf S h (ls ++ vs) (frontierAfter S frontier ls vs)
  | [], ls, frontier, hf => by rwa [List.append_nil]
  | v :: vs, ls, frontier, hf => by
    have ih := FrontierOf.after vs (hf.push v)
    rwa [List.append_assoc, List.singleton_append] at ih

/-- Above its slot the last leaf's path meets what the frontier already holds for the next. -/
theorem FrontierOf.above {v : Bytes 27} (hf : FrontierOf S h (ls ++ [v]) frontier) {l : ℕ}
    (hl : l < h) (hs : slot ls.length ≤ l) (hb : ls.length.testBit l) :
    entry frontier l = some (hexlify (S.node (ls ++ [v]) l (ls.length / 2 ^ l - 1))) := by
  have hgt : slot ls.length < l := by
    refine lt_of_le_of_ne hs ?_
    rintro rfl
    obtain ⟨q, h1, -⟩ := div_slot ls.length
    rw [testBit_iff] at hb
    omega
  have hdiv := succ_div_of_slot_lt hgt
  have := hf l hl (by
    rw [List.length_append, List.length_singleton, testBit_iff, hdiv]
    exact testBit_iff.1 hb)
  rwa [List.length_append, List.length_singleton, hdiv] at this

end Frontier

/-! ## Up one path -/

section Path

variable (sha256 : List UInt8 → Bytes 32)

/-- The tree the service and the contract compute, for the same sha256. -/
abbrev treeScheme : Scheme (Bytes 27) (Bytes 32) := shaScheme (precompile sha256)

/-- The cursor is on the path of the last leaf of `ls`, leaf `k`, at level `l`. -/
structure AtNode (h : ℕ) (ls : List (Bytes 27)) (k l : ℕ) (c : Cursor) : Prop where
  nodeIndex : c.nodeIndex = index h l (k / 2 ^ l)
  nodeValue : c.nodeValue = hexlify ((treeScheme sha256).node ls l (k / 2 ^ l))
  nodeValueFull : ∀ i, l = i + 1 →
    c.nodeValueFull = hexlify ((treeScheme sha256).digest ls i (k / 2 ^ (i + 1)))

variable {sha256} {h : ℕ} {ls : List (Bytes 27)} {v : Bytes 27} {frontier : List (Option Str)}

theorem hashUp_eq {l : ℕ} {c : Cursor} (hl : l < h)
    (hc : AtNode sha256 h (ls ++ [v]) ls.length l c)
    (hf : ls.length.testBit l → entry frontier l
      = some (hexlify ((treeScheme sha256).node (ls ++ [v]) l (ls.length / 2 ^ l - 1)))) :
    ∃ c', hashUp sha256 frontier (l + 1) c = some c' ∧
      AtNode sha256 h (ls ++ [v]) ls.length (l + 1) c' := by
  have hnode := (treeScheme sha256).digestUp_node
    (f := fun i => (treeScheme sha256).node ls i (ls.length / 2 ^ i - 1))
    (fun _ _ _ => rfl) v hl
  have hparity := index_even_iff hl (ls.length / 2 ^ l)
  have hmem : ls.length / 2 ^ (l + 1) * 2 ^ (l + 1) < (ls ++ [v]).length := by
    have := Nat.div_mul_le_self ls.length (2 ^ (l + 1))
    simp only [List.length_append, List.length_singleton]
    omega
  have hnext : ∀ full, full
      = hexlify ((treeScheme sha256).digest (ls ++ [v]) l (ls.length / 2 ^ (l + 1))) →
      AtNode sha256 h (ls ++ [v]) ls.length (l + 1)
        ⟨parentNodeIndex c.nodeIndex, full, truncate full⟩ := by
    rintro full rfl
    refine ⟨?_, ?_, fun i hi => by rw [Nat.add_right_cancel hi]⟩
    · rw [hc.nodeIndex, parent_index hl, ← div_two_pow_succ]
    · rw [truncate_of_carries (carries_low27 _), Scheme.node_succ hmem]
      rfl
  unfold hashUp
  split_ifs with hev
  · have hbit := hparity.1 (hc.nodeIndex ▸ hev)
    rw [Nat.add_sub_cancel, hf (testBit_iff.2 hbit)]
    refine ⟨_, rfl, hnext _ ?_⟩
    have hleft : (treeScheme sha256).node (ls ++ [v]) l (ls.length / 2 ^ l - 1)
        = (treeScheme sha256).node ls l (ls.length / 2 ^ l - 1) :=
      Scheme.node_append_of_ne ls v _ _ (by omega)
    rw [hleft, hc.nodeValue, concatenateThenHash_eq _ (carries_hexlify _) (carries_hexlify _),
      ← hnode, Scheme.digestUp, if_pos hbit]
    rfl
  · have hbit : ¬ ls.length / 2 ^ l % 2 = 1 := fun hb => hev (hc.nodeIndex ▸ hparity.2 hb)
    refine ⟨_, rfl, hnext _ ?_⟩
    rw [hc.nodeValue, concatenateThenHash_eq _ (carries_hexlify _) carries_zero, ← hnode,
      Scheme.digestUp, if_neg hbit]
    rfl

/-- A loop over levels is the writes on the path. -/
theorem hashLevels_eq (merkleId : Str) {stored : Cursor → Str} (val : ℕ → ℕ → Str)
    (hstored : ∀ l c, 0 < l → l ≤ h → AtNode sha256 h (ls ++ [v]) ls.length l c →
      stored c = val l (ls.length / 2 ^ l)) :
    ∀ (n l : ℕ) {c : Cursor}, l + n ≤ h → AtNode sha256 h (ls ++ [v]) ls.length l c →
      (∀ i, l ≤ i → i < l + n → ls.length.testBit i → entry frontier i
        = some (hexlify ((treeScheme sha256).node (ls ++ [v]) i (ls.length / 2 ^ i - 1)))) →
      ∃ c', hashLevels sha256 merkleId frontier stored n (l + 1) c
          = (storeNodes merkleId (writes h val (path ls.length l n)) >>= fun _ => .ret c') ∧
        AtNode sha256 h (ls ++ [v]) ls.length (l + n) c'
  | 0, l, c, _, hc, _ => ⟨c, rfl, hc⟩
  | n + 1, l, c, hn, hc, hf => by
    obtain ⟨c₁, h1, hc₁⟩ := hashUp_eq (by omega) hc (hf l le_rfl (by omega))
    obtain ⟨c₂, h2, hc₂⟩ := hashLevels_eq merkleId val hstored n (l + 1) (by omega) hc₁
      fun i hi hin => hf i (by omega) (by omega)
    refine ⟨c₂, ?_, by rwa [show l + (n + 1) = l + 1 + n by omega]⟩
    have hw := hstored (l + 1) c₁ (Nat.succ_pos l) (by omega) hc₁
    rw [hashLevels, h1, deref_some, Proc.ret_bind, h2, hw, hc₁.nodeIndex]
    simp only [path, writes, List.map_cons, storeNodes, Proc.bind_assoc]

end Path

/-! ## All leaves -/

section Leaves

variable {sha256 : List UInt8 → Bytes 32} {h : ℕ} {frontier : List (Option Str)} (merkleId : Str)

/-- What the loops store at a node below the root. -/
def nodeHash (sha256 : List UInt8 → Bytes 32) (ls : List (Bytes 27)) (l p : ℕ) : Str :=
  hexlify ((treeScheme sha256).node ls l p)

/-- What the loop to the root stores: the root in full. -/
def pathHash (sha256 : List UInt8 → Bytes 32) (h : ℕ) (ls : List (Bytes 27)) (l p : ℕ) : Str :=
  if l = h then hexlify ((treeScheme sha256).root ls h) else nodeHash sha256 ls l p

theorem fullAtRoot_eq {ls : List (Bytes 27)} {v : Bytes 27} {l : ℕ} {c : Cursor}
    (hk : ls.length < 2 ^ h) (hl : 0 < l) (hlh : l ≤ h)
    (hc : AtNode sha256 h (ls ++ [v]) ls.length l c) :
    fullAtRoot c = pathHash sha256 h (ls ++ [v]) l (ls.length / 2 ^ l) := by
  have hroot : c.nodeIndex = 0 ↔ l = h := by
    rw [hc.nodeIndex]
    constructor
    · intro h0
      by_contra hne
      exact absurd h0 (index_pos (lt_of_le_of_ne hlh hne) _).ne'
    · rintro rfl
      rw [Nat.div_eq_of_lt hk, index_root]
  obtain ⟨l, rfl⟩ : ∃ i, l = i + 1 := ⟨l - 1, by omega⟩
  rw [fullAtRoot, pathHash, if_congr hroot rfl rfl, hc.nodeValue, hc.nodeValueFull l rfl]
  split_ifs with heq
  · subst heq
    rw [Nat.div_eq_of_lt hk]
    rfl
  · rfl

theorem hashLeaves_cons {ls : List (Bytes 27)} (h30 : h ≤ 30) (hk : ls.length < 2 ^ h)
    (hf : FrontierOf (treeScheme sha256) h ls frontier) (v : Bytes 32) :
    ∃ c, (∀ rest last,
        hashLeaves sha256 merkleId h (some (hexlify v) :: rest) ls.length frontier last
          = storeNodes merkleId (writes h (nodeHash sha256 (ls ++ [v.low27]))
              (path ls.length 0 (slot ls.length))) >>= fun _ =>
            hashLeaves sha256 merkleId h rest (ls.length + 1)
              (frontierAfter (treeScheme sha256) frontier ls [v.low27])
              (some (slot ls.length, c))) ∧
      AtNode sha256 h (ls ++ [v.low27]) ls.length (slot ls.length) c := by
  have hs := slot_le hk
  have hslot := getFrontierSlot_eq (k := ls.length) (by omega)
  have hc : AtNode sha256 h (ls ++ [v.low27]) ls.length 0
      ⟨leafIndexToNodeIndex h ls.length, hexlify v, truncate (hexlify v)⟩ := by
    refine ⟨by simp [leafIndexToNodeIndex_eq], ?_, fun i hi => by omega⟩
    rw [truncate_of_carries (carries_low27 v)]
    simp [Scheme.node]
  obtain ⟨c, h1, hc₁⟩ := hashLevels_eq merkleId (nodeHash sha256 (ls ++ [v.low27]))
    (fun l c _ _ hc => hc.nodeValue) (slot ls.length) 0 (by omega) hc
    fun i _ hi hb => by
      have hodd := testBit_iff.1 hb
      rw [Scheme.node_append_of_ne _ _ _ _ (by omega)]
      exact hf i (by omega) hb
  rw [Nat.zero_add] at hc₁
  refine ⟨c, fun rest last => ?_, hc₁⟩
  rw [hashLeaves, deref_some, Proc.ret_bind, hslot, frontierAfter, frontierAfter, ← hc₁.nodeValue]
  rcases hz : slot ls.length with _ | s
  · rw [hz] at h1
    have hcc : (.ret _ : Js Cursor) = .ret c := h1
    cases hcc
    rfl
  · rw [hz] at h1
    simp only [h1, Proc.bind_assoc, Proc.ret_bind]

/-- The loop over the leaves is the writes of the nodes they complete. -/
theorem hashLeaves_eq (h30 : h ≤ 30) : ∀ (vs : List (Bytes 32)) (ls : List (Bytes 27))
    {frontier : List (Option Str)} (v : Bytes 32) (last : Option (ℕ × Cursor)),
    ls.length + vs.length < 2 ^ h → FrontierOf (treeScheme sha256) h ls frontier →
      ∃ c, hashLeaves sha256 merkleId h ((vs ++ [v]).map fun v => some (hexlify v))
          ls.length frontier last
        = (storeNodes merkleId (writes h (nodeHash sha256 (ls ++ (vs ++ [v]).map Bytes.low27))
            (completed ls.length (vs.length + 1))) >>= fun _ =>
              .ret (frontierAfter (treeScheme sha256) frontier ls ((vs ++ [v]).map Bytes.low27),
                some (slot (ls.length + vs.length), c))) ∧
        AtNode sha256 h (ls ++ (vs ++ [v]).map Bytes.low27) (ls.length + vs.length)
          (slot (ls.length + vs.length)) c
  | [], ls, frontier, v, last, hk, hf => by
    obtain ⟨c, h1, hc⟩ := hashLeaves_cons merkleId h30 hk hf v
    refine ⟨c, ?_, hc⟩
    simp only [List.nil_append, List.map_cons, List.map_nil, h1, completed, List.append_nil,
      List.length_nil, Nat.add_zero]
    rfl
  | u :: vs, ls, frontier, v, last, hk, hf => by
    simp only [List.length_cons] at hk
    obtain ⟨c₁, h1, -⟩ := hashLeaves_cons merkleId h30 (by omega) hf u
    obtain ⟨c₂, h2, hc₂⟩ := hashLeaves_eq h30 vs (ls ++ [u.low27]) v
      (some (slot ls.length, c₁)) (by
        rw [List.length_append, List.length_singleton]
        omega) (hf.after [u.low27])
    have hls : ls ++ [u.low27] ++ (vs ++ [v]).map Bytes.low27
        = ls ++ (u :: vs ++ [v]).map Bytes.low27 := by simp
    have hlen : (ls ++ [u.low27]).length + vs.length = ls.length + (u :: vs).length := by
      simp only [List.length_append, List.length_cons, List.length_nil]
      omega
    rw [hls, hlen] at hc₂
    refine ⟨c₂, ?_, hc₂⟩
    rw [hls, hlen, List.length_append, List.length_singleton] at h2
    have hstart : writes h (nodeHash sha256 (ls ++ [u.low27])) (path ls.length 0 (slot ls.length))
        = writes h (nodeHash sha256 (ls ++ (u :: vs ++ [v]).map Bytes.low27))
          (path ls.length 0 (slot ls.length)) := by
      refine writes_congr fun l p hp => ?_
      obtain ⟨-, hl, rfl⟩ := mem_path.1 hp
      have hcomplete := div_mul_of_le_slot (k := ls.length) (l := l) (by omega)
      have hnode := Scheme.node_append_of_complete (S := treeScheme sha256)
        ((vs ++ [v]).map Bytes.low27) (ls ++ [u.low27]) (l := l) (p := ls.length / 2 ^ l)
        (by rw [hcomplete, List.length_append, List.length_singleton])
      rw [nodeHash, nodeHash, ← hls, hnode]
    have hsplit : (u :: vs ++ [v]).map (fun v => some (hexlify v))
        = some (hexlify u) :: (vs ++ [v]).map fun v => some (hexlify v) := rfl
    have hcompleted : completed ls.length ((u :: vs).length + 1)
        = path ls.length 0 (slot ls.length) ++ completed (ls.length + 1) (vs.length + 1) := rfl
    rw [hsplit, h1, h2, hstart, hcompleted, writes_append, storeNodes_append]
    rfl

end Leaves

/-! ## `updateNodes` -/

section UpdateNodes

variable {sha256 : List UInt8 → Bytes 32} {h : ℕ} {frontier : List (Option Str)} (merkleId : Str)

/-- Everything `updateNodes` stores for `n` leaves after the first `k`, the tree then over `ls`. -/
def allWrites (sha256 : List UInt8 → Bytes 32) (h : ℕ) (ls : List (Bytes 27)) (k n : ℕ) :
    List (ℕ × Str) :=
  writes h (nodeHash sha256 ls) (completed k n) ++
    writes h (pathHash sha256 h ls)
      (path (k + n - 1) (slot (k + n - 1)) (h - slot (k + n - 1)))

/-- The frontier as `updateNodes` takes it: cut to the tree's height when it is first used. -/
def sizedFrontier (h : ℕ) (frontier : List (Option Str)) : List (Option Str) :=
  if frontier.length ≠ h + 1 ∧ h ≠ 32 then setLength frontier (h + 1) else frontier

theorem FrontierOf.sized {ls : List (Bytes 27)}
    (hf : FrontierOf (treeScheme sha256) h ls frontier) :
    FrontierOf (treeScheme sha256) h ls (sizedFrontier h frontier) := by
  unfold sizedFrontier
  split_ifs
  · exact hf.setLength
  · exact hf

theorem updateNodesFrom_eq (hh : 1 ≤ h) (h30 : h ≤ 30) {d : TreeDoc} (hd : d.treeHeight = h)
    {ls : List (Bytes 27)} (vs : List (Bytes 32)) (hne : vs ≠ [])
    (hn : ls.length + vs.length ≤ 2 ^ h) (hf : FrontierOf (treeScheme sha256) h ls frontier) :
    updateNodesFrom sha256 d merkleId frontier (vs.map fun v => some (hexlify v)) ls.length
      = storeNodes merkleId
          (allWrites sha256 h (ls ++ vs.map Bytes.low27) ls.length vs.length) >>= fun _ =>
        Js.updateOne .updateNodes_latestRecalculation (docId merkleId 0)
          { latestRecalculation := some ⟨d.latestLeaf.blockNumber, d.latestLeaf.leafIndex,
              some (hexlify ((treeScheme sha256).root (ls ++ vs.map Bytes.low27) h)),
              frontierAfter (treeScheme sha256) (sizedFrontier h frontier) ls
                (vs.map Bytes.low27)⟩ } >>= fun _ =>
        .ret (some (hexlify ((treeScheme sha256).root (ls ++ vs.map Bytes.low27) h))) := by
  obtain ⟨us, v, hvs⟩ := (List.eq_nil_or_concat vs).resolve_left hne
  rw [List.concat_eq_append] at hvs
  subst hvs
  have hsize : (us ++ [v]).length = us.length + 1 := by simp
  rw [hsize] at hn ⊢
  obtain ⟨c, h1, hc⟩ := hashLeaves_eq merkleId h30 us ls v none (by omega) hf.sized
  have hf' := hf.sized.after ((us ++ [v]).map Bytes.low27)
  -- the last leaf, above its slot
  obtain ⟨ms, hls, hlen⟩ : ∃ ms : List (Bytes 27),
      ls ++ (us ++ [v]).map Bytes.low27 = ms ++ [v.low27] ∧ ls.length + us.length = ms.length :=
    ⟨ls ++ us.map Bytes.low27, by simp, by simp⟩
  have hk : ms.length < 2 ^ h := by omega
  have hs := slot_le hk
  rw [hls] at hf' h1 ⊢
  rw [hls, hlen] at hc
  obtain ⟨c', h2, hc'⟩ := hashLevels_eq merkleId (pathHash sha256 h (ms ++ [v.low27]))
    (fun l c hl hlh hc => fullAtRoot_eq hk hl hlh hc) (h - slot ms.length) _ (by omega) hc
    fun i hi hih hb => hf'.above (by omega) hi hb
  rw [Nat.add_sub_cancel' hs] at hc'
  have hroot : c'.nodeValueFull = hexlify ((treeScheme sha256).root (ms ++ [v.low27]) h) := by
    obtain ⟨m, rfl⟩ : ∃ m, h = m + 1 := ⟨h - 1, by omega⟩
    rw [hc'.nodeValueFull m rfl, Nat.div_eq_of_lt hk]
    rfl
  have hcount : min (List.map (fun v => some (hexlify v)) (us ++ [v])).length
      (2 ^ h - ls.length) = us.length + 1 := by
    rw [List.length_map]
    omega
  have htake : (List.map (fun v => some (hexlify v)) (us ++ [v])).take (us.length + 1)
      = List.map (fun v => some (hexlify v)) (us ++ [v]) :=
    List.take_of_length_le (by rw [List.length_map, hsize])
  have hlast : ls.length + (us.length + 1) - 1 = ms.length := by omega
  rw [sizedFrontier] at h1 h2 ⊢
  simp only [updateNodesFrom, hd, hcount, htake, h1, Proc.bind_assoc, Proc.ret_bind, hlen, h2,
    hroot, Proc.pure_eq, hlast, allWrites, storeNodes_append]

end UpdateNodes

end CommitMgr

end Baseline
