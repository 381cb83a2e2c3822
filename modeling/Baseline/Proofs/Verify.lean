import Baseline.Proofs.Session

/-!
# Membership proofs

The sibling path the service hands out for a stored leaf folds to the root of the tree
(`verifyLoop_path`). Its last entry is the stored root node, so `baseline_verify` accepts it unless
that node is cut to 27 bytes, which it is exactly in a full tree (`verify_siblingPath_iff`).
-/

namespace Baseline

open Await HashTree

namespace CommitMgr

/-! ## The sibling path -/

/-- What the path has for a node: its hash, and zero for a node that is not there. -/
def siblingOf (d : TreeDoc) (j : ℕ) : SiblingNode where
  nodeIndex := j
  hash := match entry d.nodes j with
    | some node => node.hash
    | none => some ZERO

section SiblingPath

variable {sha256 : List UInt8 → Bytes 32} {a : Str} {h : ℕ} {logs : List Log} {d : TreeDoc}
  {w : World}

theorem siblingNodesLoop_eq : ∀ (js : List ℕ), (∀ j ∈ js, j < BUCKET_SIZE) →
    siblingNodesLoop a js 0 d = .ret (js.map (siblingOf d))
  | [], _ => rfl
  | j :: js, hjs => by
    have hj := hjs j List.mem_cons_self
    have ih := siblingNodesLoop_eq js fun i hi => hjs i (List.mem_cons_of_mem _ hi)
    simp only [siblingNodesLoop, calculateBucket_eq hj, ne_eq, not_true_eq_false, if_false,
      Proc.pure_eq, Proc.ret_bind, ih, Nat.mod_eq_of_lt hj]
    rfl

theorem getSiblingPathByLeafIndex_run (hw : w.db.findOne (docId a 0) = some d)
    (hd : d.treeHeight = h) {k : ℕ} (hk : k < 2 ^ h)
    (hb : ∀ l < h, index h l (beside (k / 2 ^ l)) < BUCKET_SIZE) :
    (getSiblingPathByLeafIndex a k).run w
      = (.ok ((List.range' 0 h).map (fun l => siblingOf d (index h l (beside (k / 2 ^ l))))
          ++ [siblingOf d 0]), w) := by
  have hall : ∀ j ∈ getSiblingPathIndices (index h 0 k), j < BUCKET_SIZE := by
    intro j hj
    rw [siblingPath_index hk, List.mem_append, List.mem_map] at hj
    rcases hj with ⟨l, hl, rfl⟩ | hj
    · exact hb l (List.mem_range.1 hl)
    · rw [List.mem_singleton.1 hj]
      decide
  unfold getSiblingPathByLeafIndex
  rw [run_findOne_deref, hw]
  simp only [hd, leafIndexToNodeIndex_eq]
  rw [siblingNodesLoop_eq _ hall, siblingPath_index hk, List.map_append, List.map_map,
    List.range_eq_range']
  rfl

/-- The document holds the tree over all its leaves. -/
def UpToDate (logs : List Log) (d : TreeDoc) : Prop :=
  recorded d.latestRecalculation = logs.length

theorem siblingOf_carries (hd : Consistent sha256 h logs d) (hu : UpToDate logs d) {l p : ℕ}
    (hl : l < h) (hp : p < 2 ^ (h - l)) : ∃ s, (siblingOf d (index h l p)).hash = some s ∧
      Carries s ((treeScheme sha256).node (values logs) l p) := by
  have hzero : (values logs).length ≤ p * 2 ^ l →
      Carries ZERO ((treeScheme sha256).node (values logs) l p) := by
    intro hle
    rw [Scheme.node_of_le hle]
    exact carries_zero
  unfold siblingOf
  rcases Nat.eq_zero_or_pos l with rfl | hpos
  · rcases hlog : logs[p]? with _ | log
    · have hle := List.getElem?_eq_none_iff.1 hlog
      rcases hentry : entry d.nodes (index h 0 p) with _ | node
      · exact ⟨ZERO, rfl, hzero (by rw [length_values]; simpa using hle)⟩
      · obtain ⟨log, hlog', -⟩ := hd.leaf p node hentry
        rw [hlog] at hlog'
        cases hlog'
    · have hvalue : (treeScheme sha256).node (values logs) 0 p = log.event.leafValue.low27 := by
        rw [Scheme.node, List.getD_eq_getElem?_getD, values, List.getElem?_map, hlog]
        rfl
      rw [hd.stored p log hlog, hvalue]
      exact ⟨_, rfl, carries_low27 _⟩
  · have hnode := hd.hashed.node l p hpos hl hp
    rw [hu, List.take_length] at hnode
    rw [hnode]
    split_ifs with hmem
    · exact ⟨_, rfl, carries_hexlify _⟩
    · exact ⟨ZERO, rfl, hzero (not_lt.1 hmem)⟩

/-- The path of a stored leaf folds to the root. -/
theorem verifyLoop_path (hd : Consistent sha256 h logs d) (hu : UpToDate logs d) {k : ℕ}
    (hk : k < logs.length) : ∀ (n l : ℕ) {currentHash : Str}, l + n = h → 0 < n →
      Carries currentHash ((treeScheme sha256).node (values logs) l (k / 2 ^ l)) →
      verifyLoop sha256
          ((List.range' l n).map fun l => siblingOf d (index h l (beside (k / 2 ^ l)))) currentHash
        = .ret (hexlify ((treeScheme sha256).root (values logs) h))
  | n + 1, l, currentHash, hn, _, hc => by
    have hl : l < h := by omega
    have hk' : k < 2 ^ h := lt_of_lt_of_le hk hd.size
    have hq : k / 2 ^ l < 2 ^ (h - l) := by
      rw [Nat.div_lt_iff_lt_mul (by positivity), ← pow_add, Nat.sub_add_cancel hl.le]
      exact hk'
    obtain ⟨s, hs, hcs⟩ := siblingOf_carries hd hu hl (beside_lt hl hq)
    have hdigest := (treeScheme sha256).digest_beside (values logs) l (k / 2 ^ l)
    rw [← div_two_pow_succ] at hdigest
    -- the sibling comes second if the path comes up on the left
    have hside : (siblingOf d (index h l (beside (k / 2 ^ l)))).nodeIndex % 2 = 0
        ↔ k / 2 ^ l % 2 = 0 := by
      refine (index_even_iff hl _).trans ?_
      unfold beside
      split_ifs <;> omega
    have hnext : (if (siblingOf d (index h l (beside (k / 2 ^ l)))).nodeIndex % 2 = 0
          then concatenateThenHash sha256 currentHash s
          else concatenateThenHash sha256 s currentHash)
        = hexlify ((treeScheme sha256).digest (values logs) l (k / 2 ^ (l + 1))) := by
      rw [hdigest, if_congr hside rfl rfl]
      split_ifs
      · exact concatenateThenHash_eq _ hc hcs
      · exact concatenateThenHash_eq _ hcs hc
    rw [List.range'_succ, List.map_cons, verifyLoop, hs, deref_some, Proc.ret_bind,
      ← apply_ite (verifyLoop sha256 _), hnext]
    rcases Nat.eq_zero_or_pos n with rfl | hpos
    · obtain rfl : h = l + 1 := by omega
      rw [Nat.div_eq_of_lt hk']
      rfl
    · have hmem : k / 2 ^ (l + 1) * 2 ^ (l + 1) < (values logs).length := by
        rw [length_values]
        exact lt_of_le_of_lt (Nat.div_mul_le_self _ _) hk
      refine verifyLoop_path hd hu hk n (l + 1) (by omega) hpos ?_
      rw [Scheme.node_succ hmem]
      exact carries_low27 _

end SiblingPath

/-! ## `baseline_verify` -/

section Verify

variable {sha256 : List UInt8 → Bytes 32} {a : Str} {h : ℕ} {logs : List Log} {d : TreeDoc}
  {w : World}

theorem baseline_verify_run (hh : 1 ≤ h) (hfit : logs.length ≤ fit h)
    (hw : w.db.findOne (docId a 0) = some d) (hd : Consistent sha256 h logs d)
    {leafValue currentHash : Str} {siblings : List SiblingNode} {last : SiblingNode}
    (hloop : verifyLoop sha256 siblings leafValue = .ret currentHash) :
    ((baseline_verify sha256 a leafValue (siblings ++ [last])).run w).1
      = .ok (decide (last.hash = some currentHash ∧
          last.hash = some (rootText sha256 h (values logs)))) := by
  obtain ⟨w', d', h1, -, -, -⟩ := updateTree_run hh hfit hw hd
  simp only [baseline_verify, List.getLast?_concat, deref_some, Proc.ret_bind,
    List.dropLast_concat, hloop]
  rw [Proc.run_bind_ok h1]
  rfl

theorem getLeafByLeafIndex_stored (hw : w.db.findOne (docId a 0) = some d)
    (hd : LeafRow h logs d) (ho : InOrder logs) {i : ℕ} {log : Log} (hi : logs[i]? = some log)
    (hb : index h 0 i < BUCKET_SIZE) (hs : Stored h d i log) :
    (getLeafByLeafIndex a i).run w = (.ok log.leaf.toNode, w) := by
  have hlt := (List.getElem?_eq_some_iff.1 hi).1
  have hbetween : leavesBetween d.nodes i i = [log.leaf.toNode] := by
    rw [leavesBetween_eq hd ho fun p log' hlo hhi hp => by
      obtain rfl : p = i := by omega
      rw [hi] at hp
      cases hp
      exact hs]
    rw [List.take_add_one, hi, List.drop_append_of_le_length (by simp; omega),
      List.drop_of_length_le (by simp)]
    rfl
  have hsame : (d.nodes.filterMap fun node =>
      node.filter fun node => node.leafIndex = some i) = leavesBetween d.nodes i i := by
    unfold leavesBetween
    congr 1
    funext node
    congr 1
    funext node
    rcases node.leafIndex with _ | j
    · rfl
    · rw [Option.any_some, ← Bool.decide_and]
      exact decide_eq_decide.2 (by rw [Option.some.injEq]; omega)
  rw [getLeafByLeafIndex_run hw (by rw [hd.treeHeight]; exact hb), hsame, hbetween]
  rfl

/-- The path the service hands out for leaf `i` has the root node last. -/
theorem verify_stored (hh : 1 ≤ h) (hb : 2 ^ (h + 1) - 1 ≤ BUCKET_SIZE)
    (hw : w.db.findOne (docId a 0) = some d) (hd : Consistent sha256 h logs d)
    (hu : UpToDate logs d) {i : ℕ} {log : Log} (hi : logs[i]? = some log) :
    ∃ siblings, (getSiblingPathByLeafIndex a i).run w = (.ok siblings, w) ∧
      ((baseline_verify sha256 a (hexlify log.event.leafValue) siblings).run w).1
        = .ok (decide (logs.length < 2 ^ h)) := by
  have hlt := (List.getElem?_eq_some_iff.1 hi).1
  have hsize := hd.size
  have hbucket : ∀ l < h, index h l (beside (i / 2 ^ l)) < BUCKET_SIZE := by
    intro l hl
    have hq : i / 2 ^ l < 2 ^ (h - l) := by
      rw [Nat.div_lt_iff_lt_mul (by positivity), ← pow_add, Nat.sub_add_cancel hl.le]
      omega
    have h1 := index_lt (beside_lt hl hq)
    have h2 : 2 ^ (h - l + 1) ≤ 2 ^ (h + 1) := Nat.pow_le_pow_right (by norm_num) (by omega)
    omega
  have hpath := getSiblingPathByLeafIndex_run hw hd.treeHeight (k := i) (by omega) hbucket
  have hcarries : Carries (hexlify log.event.leafValue)
      ((treeScheme sha256).node (values logs) 0 (i / 2 ^ 0)) := by
    have hvalue : (treeScheme sha256).node (values logs) 0 (i / 2 ^ 0)
        = log.event.leafValue.low27 := by
      rw [pow_zero, Nat.div_one, Scheme.node, List.getD_eq_getElem?_getD, values,
        List.getElem?_map, hi]
      rfl
    rw [hvalue]
    exact carries_low27 _
  have hloop := verifyLoop_path hd hu hlt h 0 (Nat.zero_add h) hh hcarries
  refine ⟨_, hpath, ?_⟩
  rw [baseline_verify_run hh (hsize.trans (le_fit hb)) hw hd hloop]
  have hne : ¬ values logs = [] := by
    rw [values_eq_nil, ← List.length_eq_zero_iff]
    omega
  have hroot := hd.hashed.root
  rw [hu, List.take_length, if_neg hne, length_values] at hroot
  have hlast : (siblingOf d 0).hash = some (if logs.length = 2 ^ h
      then nodeHash sha256 (values logs) h 0
      else hexlify ((treeScheme sha256).root (values logs) h)) := by
    rw [siblingOf, hroot]
    rfl
  rw [hlast, rootText, if_neg hne]
  refine congrArg _ (decide_eq_decide.2 ?_)
  rw [and_self, Option.some.injEq]
  split_ifs with hfull
  · -- 27 bytes and 32
    refine iff_of_false (fun heq => ?_) (by omega)
    have := congrArg List.length heq
    simp [nodeHash] at this
  · exact iff_of_true rfl (by omega)

end Verify

/-- After an update that has processed all leaves, `baseline_verify` accepts the stored hash of any
of them with its sibling path exactly if the tree is not full. -/
theorem verify_siblingPath_iff (sha256 : List UInt8 → Bytes 32) {h : ℕ} (hh : 1 ≤ h)
    (hb : 2 ^ (h + 1) - 1 ≤ BUCKET_SIZE) (contractAddress : Str) {w : World}
    (hw : w.db.findOne (docId contractAddress 0) = some (trackedDoc contractAddress h))
    (actions : List Action) (hpos : BlocksPositive actions)
    (hn : (leafValues actions).length ≤ 2 ^ h) {i : ℕ} (hi : i < (leafValues actions).length) :
    let s := Session.runs sha256 contractAddress ⟨MerkleTreeSHA256.new h, w⟩ actions
    let w' := ((updateTree sha256 contractAddress).run s.world).2
    ∃ leaf hash siblings, (getLeafByLeafIndex contractAddress i).run w' = (.ok leaf, w') ∧
      leaf.hash = some hash ∧
      (getSiblingPathByLeafIndex contractAddress i).run w' = (.ok siblings, w') ∧
      (((baseline_verify sha256 contractAddress hash siblings).run w').1 = .ok true
        ↔ (leafValues actions).length < 2 ^ h) := by
  intro s w'
  have hall := le_fit hb
  have h30 := height_le (lt_of_lt_of_le (by positivity) hall)
  obtain ⟨logs, hs, hlogs⟩ := follows_session sha256 hh (h30.trans (by norm_num)) hw
    (fun hlt => absurd hlt (by omega)) hpos
  rw [List.take_of_length_le hn] at hlogs
  have hlen : logs.length = (leafValues actions).length := by
    rw [← hlogs, length_emittedValues]
  obtain ⟨d, hw₁, hd⟩ := hs.world
  rw [List.take_of_length_le (hs.size.trans hall)] at hd
  obtain ⟨w₂, d', h1, he, hd', hu⟩ := updateTree_run hh (hs.size.trans hall) hw₁ hd
  have hw' : w' = w₂ := congrArg Prod.snd h1
  obtain ⟨log, hi'⟩ : ∃ log, logs[i]? = some log :=
    ⟨_, List.getElem?_eq_getElem (hlen ▸ hi)⟩
  obtain ⟨siblings, h2, h3⟩ := verify_stored hh hb he.doc hd' hu hi'
  refine ⟨log.leaf.toNode, hexlify log.event.leafValue, siblings, ?_, rfl, ?_, ?_⟩
  · rw [hw']
    exact getLeafByLeafIndex_stored he.doc hd'.toLeafRow hd'.inOrder hi'
      (index_lt_bucket_iff.2 (by omega)) (hd'.stored i _ hi')
  · rw [hw']
    exact h2
  · rw [hw']
    rw [h3, hlen]
    simp only [Except.ok.injEq, decide_eq_true_eq]

theorem verify_siblingPath_one :
    let s := Session.runs Sha256.digest [] ⟨MerkleTreeSHA256.new 1, trackedWorld [] 1⟩
      [.leaf (Bytes.fill 32 1) 1 []]
    let w' := ((updateTree Sha256.digest []).run s.world).2
    ∃ hash siblings, ((baseline_verify Sha256.digest [] hash siblings).run w').1 = .ok true := by
  obtain ⟨_, hash, siblings, -, -, -, h⟩ := verify_siblingPath_iff Sha256.digest le_rfl
    (by decide) [] (w := trackedWorld [] 1) (by decide) [.leaf (Bytes.fill 32 1) 1 []] (by decide)
    (by decide) (i := 0) (by decide)
  exact ⟨hash, siblings, h.2 (by decide)⟩

/-- Both leaves of a tree of height one are in, and the path of the first is rejected. -/
theorem verify_siblingPath_full :
    let s := Session.runs Sha256.digest [] ⟨MerkleTreeSHA256.new 1, trackedWorld [] 1⟩
      [.leaf (Bytes.fill 32 1) 1 [], .leaf (Bytes.fill 32 2) 1 []]
    let w' := ((updateTree Sha256.digest []).run s.world).2
    ((getSiblingPathByLeafIndex [] 0 >>=
      baseline_verify Sha256.digest [] (hexlify (Bytes.fill 32 1))).run w').1 = .ok false := by
  decide +kernel

end CommitMgr

end Baseline
