import Baseline.Proofs.Nodes
import Baseline.Proofs.Scan
import Mathlib.NumberTheory.Padics.PadicVal.Basic

/-!
# How many hashes a batch of leaves takes

`updateNodesCounting` is `updateNodes` with the number of its calls of `concatenateThenHash`. A leaf
takes as many as its slot, which is the exponent of two in the number of leaves up to it, and the
last one takes the rest of the way to the root. So the leaves from `lo` to `hi` take as many as the
exponent of two in `hi!` exceeds that in `lo!`, and the height (`updateNodesFromCounting_eq`).
`getNumberOfHashes` adds up Legendre's sums for the two exponents (`getNumberOfHashes_eq`).
-/

namespace Baseline

open Await HashTree

open scoped Nat

namespace CommitMgr

/-! ## `updateNodes`, counting -/

section Counting

variable (sha256 : List UInt8 → Bytes 32)

def concatenateThenHashCounting (left right : Str) (calls : ℕ) : Str × ℕ :=
  (concatenateThenHash sha256 left right, calls + 1)

def hashUpCounting (frontier : List (Option Str)) (level : ℕ) (c : Cursor) (calls : ℕ) :
    Option (Cursor × ℕ) :=
  if c.nodeIndex % 2 = 0 then do
    let left ← entry frontier (level - 1)
    let (nodeValueFull, calls) := concatenateThenHashCounting sha256 left c.nodeValue calls
    return (⟨parentNodeIndex c.nodeIndex, nodeValueFull, truncate nodeValueFull⟩, calls)
  else
    let (nodeValueFull, calls) := concatenateThenHashCounting sha256 c.nodeValue ZERO calls
    some (⟨parentNodeIndex c.nodeIndex, nodeValueFull, truncate nodeValueFull⟩, calls)

def hashLevelsCounting (merkleId : Str) (frontier : List (Option Str)) (stored : Cursor → Str) :
    ℕ → ℕ → Cursor → ℕ → Js (Cursor × ℕ)
  | 0, _, c, calls => return (c, calls)
  | n + 1, level, c, calls => do
    let (c, calls) ← Js.deref (hashUpCounting sha256 frontier level c calls)
    storeNode merkleId c.nodeIndex (stored c)
    hashLevelsCounting merkleId frontier stored n (level + 1) c calls

def hashLeavesCounting (merkleId : Str) (treeHeight : ℕ) : List (Option Str) → ℕ →
    List (Option Str) → Option (ℕ × Cursor) → ℕ →
      Js ((List (Option Str) × Option (ℕ × Cursor)) × ℕ)
  | [], _, frontier, last, calls => return ((frontier, last), calls)
  | leafValue :: leafValues, leafIndex, frontier, _, calls => do
    let nodeValueFull ← Js.deref leafValue
    let c : Cursor :=
      ⟨leafIndexToNodeIndex treeHeight leafIndex, nodeValueFull, truncate nodeValueFull⟩
    match getFrontierSlot leafIndex with
    | none => .throw .hang
    | some 0 =>
      hashLeavesCounting merkleId treeHeight leafValues (leafIndex + 1)
        (setEntry frontier 0 c.nodeValue) (some (0, c)) calls
    | some slot => do
      let (c, calls) ← hashLevelsCounting sha256 merkleId frontier Cursor.nodeValue slot 1 c calls
      hashLeavesCounting merkleId treeHeight leafValues (leafIndex + 1)
        (setEntry frontier slot c.nodeValue) (some (slot, c)) calls

def updateNodesFromCounting (merkleTree_0 : TreeDoc) (merkleId : Str)
    (frontier leafValues : List (Option Str)) (currentLeafCount : ℕ) : Js (Option Str × ℕ) := do
  let latestLeaf := merkleTree_0.latestLeaf
  let treeHeight := merkleTree_0.treeHeight
  let newFrontier := if frontier.length ≠ treeHeight + 1 ∧ treeHeight ≠ 32
    then setLength frontier (treeHeight + 1) else frontier
  let numberOfLeaves := min leafValues.length (2 ^ treeHeight - currentLeafCount)
  let ((newFrontier, last), calls) ← hashLeavesCounting sha256 merkleId treeHeight
    (leafValues.take numberOfLeaves) currentLeafCount newFrontier none 0
  let (root, calls) ← match last with
    | none => pure (none, calls)
    | some (slot, c) => do
      let (c, calls) ← hashLevelsCounting sha256 merkleId newFrontier fullAtRoot
        (treeHeight - slot) (slot + 1) c calls
      pure (some c.nodeValueFull, calls)
  Js.updateOne .updateNodes_latestRecalculation (docId merkleId 0)
    { latestRecalculation :=
        some ⟨latestLeaf.blockNumber, latestLeaf.leafIndex, root, newFrontier⟩ }
  return (root, calls)

def updateNodesCounting (merkleId : Str) (frontier leafValues : List (Option Str))
    (currentLeafCount : ℕ) : Js (Option Str × ℕ) := do
  let merkleTree_0 ← Js.deref (← Js.findOne .updateNodes_tree (docId merkleId 0))
  updateNodesFromCounting sha256 merkleTree_0 merkleId frontier leafValues currentLeafCount

end Counting

/-! ## What is counted -/

section Counted

variable {sha256 : List UInt8 → Bytes 32} {merkleId : Str} {h : ℕ}

theorem deref_map {α β : Type} (f : α → β) (o : Option α) :
    Js.deref (o.map f) = Js.deref o >>= fun x => .ret (f x) := by
  rcases o with _ | x <;> rfl

theorem hashUpCounting_eq (frontier : List (Option Str)) (level : ℕ) (c : Cursor) (calls : ℕ) :
    hashUpCounting sha256 frontier level c calls
      = (hashUp sha256 frontier level c).map fun c' => (c', calls + 1) := by
  unfold hashUpCounting hashUp
  split_ifs
  · rcases entry frontier (level - 1) with _ | left <;> rfl
  · rfl

theorem hashLevelsCounting_eq (frontier : List (Option Str)) (stored : Cursor → Str) :
    ∀ (n level : ℕ) (c : Cursor) (calls : ℕ),
      hashLevelsCounting sha256 merkleId frontier stored n level c calls
        = hashLevels sha256 merkleId frontier stored n level c >>= fun c' =>
          .ret (c', calls + n)
  | 0, level, c, calls => rfl
  | n + 1, level, c, calls => by
    have ih := hashLevelsCounting_eq frontier stored n (level + 1)
    have hcalls : calls + 1 + n = calls + (n + 1) := by omega
    simp only [hashLevelsCounting, hashLevels, hashUpCounting_eq, deref_map, Proc.bind_assoc,
      Proc.ret_bind, ih, hcalls]

@[simp] theorem length_path (k : ℕ) : ∀ l n : ℕ, (path k l n).length = n
  | _, 0 => rfl
  | l, n + 1 => congrArg (· + 1) (length_path k (l + 1) n)

/-- Each leaf takes as many as its slot. -/
theorem hashLeavesCounting_eq (h30 : h ≤ 30) : ∀ (leafValues : List (Option Str)) (k : ℕ)
    (frontier : List (Option Str)) (last : Option (ℕ × Cursor)) (calls : ℕ),
    k + leafValues.length ≤ 2 ^ h →
      hashLeavesCounting sha256 merkleId h leafValues k frontier last calls
        = hashLeaves sha256 merkleId h leafValues k frontier last >>= fun r =>
          .ret (r, calls + (completed k leafValues.length).length)
  | [], k, frontier, last, calls, _ => rfl
  | leafValue :: leafValues, k, frontier, last, calls, hk => by
    rw [List.length_cons] at hk
    have hs := slot_le (h := h) (k := k) (by omega)
    have hslot := getFrontierSlot_eq (k := k) (by omega)
    have ih := fun f l n => hashLeavesCounting_eq h30 leafValues (k + 1) f l n (by omega)
    have hcalls : (completed k (leafValues.length + 1)).length
        = slot k + (completed (k + 1) leafValues.length).length := by
      rw [completed, List.length_append, length_path]
    rw [hashLeavesCounting, hashLeaves, hslot, List.length_cons, hcalls, Proc.bind_assoc]
    refine bind_congr fun nodeValueFull => ?_
    rcases slot k with _ | s
    · simp only [ih, Nat.zero_add]
    · simp only [ih, hashLevelsCounting_eq, Proc.bind_assoc, Proc.ret_bind, Nat.add_assoc]

theorem hashLeaves_step (h30 : h ≤ 30) {k : ℕ} (hk : k < 2 ^ h) (v : Option Str)
    (leafValues frontier : List (Option Str)) (last : Option (ℕ × Cursor)) :
    hashLeaves sha256 merkleId h (v :: leafValues) k frontier last
      = (Js.deref v >>= fun nodeValueFull =>
          hashLevels sha256 merkleId frontier Cursor.nodeValue (slot k) 1
            ⟨leafIndexToNodeIndex h k, nodeValueFull, truncate nodeValueFull⟩) >>= fun c =>
        hashLeaves sha256 merkleId h leafValues (k + 1) (setEntry frontier (slot k) c.nodeValue)
          (some (slot k, c)) := by
  have hs := slot_le hk
  rw [hashLeaves, getFrontierSlot_eq (by omega), Proc.bind_assoc]
  refine bind_congr fun nodeValueFull => ?_
  rcases slot k with _ | s <;> rfl

/-- What follows the loop over some leaves only has to know what it does at the last one's slot. -/
theorem hashLeaves_bind_congr {α : Type} (h30 : h ≤ 30)
    {f g : List (Option Str) × Option (ℕ × Cursor) → Js α} :
    ∀ (leafValues : List (Option Str)) (v : Option Str) {k : ℕ} (frontier : List (Option Str))
      (last : Option (ℕ × Cursor)), k + leafValues.length < 2 ^ h →
      (∀ newFrontier c, f (newFrontier, some (slot (k + leafValues.length), c))
        = g (newFrontier, some (slot (k + leafValues.length), c))) →
      hashLeaves sha256 merkleId h (v :: leafValues) k frontier last >>= f
        = hashLeaves sha256 merkleId h (v :: leafValues) k frontier last >>= g
  | [], v, k, frontier, last, hk, hfg => by
    simp only [hashLeaves_step h30 (lt_of_le_of_lt (Nat.le_add_right k _) hk) v, Proc.bind_assoc]
    exact bind_congr fun nodeValueFull => bind_congr fun c => hfg _ c
  | u :: leafValues, v, k, frontier, last, hk, hfg => by
    have hlen : k + (u :: leafValues).length = k + 1 + leafValues.length := by
      rw [List.length_cons]
      omega
    rw [hlen] at hk hfg
    simp only [hashLeaves_step h30 (show k < 2 ^ h by omega) v, Proc.bind_assoc]
    exact bind_congr fun nodeValueFull => bind_congr fun c =>
      hashLeaves_bind_congr h30 leafValues u _ _ hk hfg

/-- The calls for `n` leaves after the first `k`. -/
def hashCalls (h k n : ℕ) : ℕ := (completed k n).length + (h - slot (k + n - 1))

theorem updateNodesFromCounting_eq (h30 : h ≤ 30) {d : TreeDoc} (hd : d.treeHeight = h)
    (frontier : List (Option Str)) {leafValues : List (Option Str)} (hne : leafValues ≠ []) {k : ℕ}
    (hk : k + leafValues.length ≤ 2 ^ h) :
    updateNodesFromCounting sha256 d merkleId frontier leafValues k
      = updateNodesFrom sha256 d merkleId frontier leafValues k >>= fun root =>
        .ret (root, hashCalls h k leafValues.length) := by
  obtain ⟨v, rest, rfl⟩ := List.exists_cons_of_ne_nil hne
  have hcount : min (v :: rest).length (2 ^ h - k) = (v :: rest).length := by omega
  have hcalls : hashCalls h k (v :: rest).length
      = (completed k (v :: rest).length).length + (h - slot (k + rest.length)) := rfl
  simp only [updateNodesFromCounting, updateNodesFrom, hd, hcount, List.take_length,
    hashLeavesCounting_eq h30 _ _ _ _ _ hk, Proc.bind_assoc, Proc.ret_bind, Nat.zero_add]
  rw [List.length_cons] at hk
  refine hashLeaves_bind_congr h30 rest v _ none hk fun newFrontier c => ?_
  simp only [hashLevelsCounting_eq, Proc.bind_assoc, Proc.ret_bind, Proc.pure_eq, hcalls]

end Counted

/-! ## Legendre's sums -/

/-- The leaves from the `k`-th on complete as many nodes as two divides the numbers past `k`. -/
theorem padicValNat_add_factorial : ∀ (n k : ℕ),
    padicValNat 2 (k + n)! = padicValNat 2 k ! + (completed k n).length
  | 0, k => rfl
  | n + 1, k => by
    have hslot : padicValNat 2 (k + 1)! = slot k + padicValNat 2 k ! := by
      rw [Nat.factorial_succ, padicValNat.mul k.succ_ne_zero k.factorial_ne_zero, slot]
    rw [show k + (n + 1) = k + 1 + n by omega, padicValNat_add_factorial n (k + 1), hslot,
      completed, List.length_append, length_path]
    omega

theorem hashCalls_eq {h lo hi : ℕ} (hle : lo ≤ hi) (hhi : hi < 2 ^ h) :
    (hashCalls h lo (hi - lo + 1) : ℤ) = padicValNat 2 hi ! - padicValNat 2 lo ! + h := by
  have hs := slot_le hhi
  have hbatch := padicValNat_add_factorial (hi - lo + 1) lo
  have hlast := padicValNat_add_factorial 1 hi
  rw [completed, List.length_append, length_path, completed, List.length_nil] at hlast
  rw [show lo + (hi - lo + 1) = hi + 1 by omega, hlast] at hbatch
  rw [hashCalls, show lo + (hi - lo + 1) - 1 = hi by omega]
  omega

theorem numberOfHashesLoop_eq : ∀ (levels hi lo : ℕ) (hashCount : ℤ),
    numberOfHashesLoop levels hi lo hashCount
      = hashCount + ∑ l ∈ Finset.range levels, ((hi / 2 ^ l : ℕ) - (lo / 2 ^ l : ℕ) : ℤ)
  | 0, hi, lo, hashCount => by simp [numberOfHashesLoop]
  | levels + 1, hi, lo, hashCount => by
    have hshift : ∀ n l : ℕ, rightShift n 1 / 2 ^ l = n / 2 ^ (l + 1) := fun n l => by
      rw [rightShift, Nat.div_div_eq_div_mul, ← pow_add, Nat.add_comm]
    rw [numberOfHashesLoop, numberOfHashesLoop_eq levels, Finset.sum_range_succ', pow_zero,
      Nat.div_one, Nat.div_one]
    simp only [hshift]
    ring

theorem legendre {n levels : ℕ} (hpos : levels ≠ 0) (hn : n < 2 ^ levels) :
    ∑ l ∈ Finset.range levels, n / 2 ^ l = n + padicValNat 2 n ! := by
  rw [padicValNat_factorial (Nat.log_lt_of_lt_pow' hpos hn), Finset.range_eq_Ico,
    Finset.sum_eq_sum_Ico_succ_bot (Nat.pos_of_ne_zero hpos), pow_zero, Nat.div_one]

theorem getNumberOfHashes_eq {hi lo : ℕ} (hle : lo ≤ hi) (h : ℕ) :
    getNumberOfHashes hi lo h = padicValNat 2 hi ! - padicValNat 2 lo ! + h := by
  have hpos : (Nat.toDigits 2 hi).length ≠ 0 := Nat.length_toDigits_pos.ne'
  have hhi : hi < 2 ^ (Nat.toDigits 2 hi).length :=
    (Nat.length_toDigits_le_iff (by norm_num) (Nat.pos_of_ne_zero hpos)).1 le_rfl
  have h1 := legendre hpos hhi
  have h2 := legendre hpos (hle.trans_lt hhi)
  simp only [getNumberOfHashes, numberOfHashesLoop_eq, Finset.sum_sub_distrib, ← Nat.cast_sum, h1,
    h2]
  push_cast
  ring

/-! ## Runs -/

section Runs

variable {sha256 : List UInt8 → Bytes 32} {a : Str} {h : ℕ} {d : TreeDoc} {w : World}

/-- A node is stored wherever its bucket has a document, and no document goes. -/
theorem storeNodes_run_buckets : ∀ (ws : List (ℕ × Str)) {w : World},
    (∀ x ∈ ws, (w.db.findOne (docId a (calculateBucket x.1))).isSome) →
      ∃ w', (storeNodes a ws).run w = (.ok (), w')
  | [], w, _ => ⟨w, rfl⟩
  | (j, hash) :: ws, w, hws => by
    obtain ⟨segment, hsegment⟩ := Option.isSome_iff_exists.1 (hws (j, hash) List.mem_cons_self)
    have hkept : ∀ u : TreeUpdate, ∀ x ∈ ws, ((w.updated (docId a (calculateBucket j)) u).db.findOne
        (docId a (calculateBucket x.1))).isSome := fun u x hx => by
      rw [Collection.findOne_updateOne, Option.isSome_map]
      exact hws x (List.mem_cons_of_mem _ hx)
    obtain ⟨w', hrest⟩ := storeNodes_run_buckets ws (hkept _)
    exact ⟨w', by rw [storeNodes, Proc.run_bind_ok (storeNode_run_bucket hsegment hash), hrest]⟩

/-- A tree whose inner nodes have documents to be stored in takes the leaves. -/
theorem updateNodes_returns (h30 : h ≤ 30) (hw : w.db.findOne (docId a 0) = some d)
    (hd : d.treeHeight = h)
    (hbuckets : ∀ j < 2 ^ h - 1, (w.db.findOne (docId a (calculateBucket j))).isSome)
    {ls : List (Bytes 27)} {frontier : List (Option Str)}
    (hf : FrontierOf (treeScheme sha256) h ls frontier) {vs : List (Bytes 32)} (hne : vs ≠ [])
    (hn : ls.length + vs.length ≤ 2 ^ h) :
    ∃ root w', (updateNodes sha256 a frontier (vs.map fun v => some (hexlify v)) ls.length).run w
      = (.ok root, w') := by
  rw [updateNodes, run_findOne_deref, hw]
  have hpos := List.length_pos_of_ne_nil hne
  rcases h with _ | h
  · -- the one leaf of a tree without levels is its root
    obtain rfl : ls = [] := List.length_eq_zero_iff.1 (by omega)
    obtain ⟨v, rfl⟩ := List.length_eq_one_iff.1 (show vs.length = 1 by simp at hn; omega)
    simp [updateNodesFrom, hd, hashLeaves, getFrontierSlot, hashLevels, run_updateOne]
  · obtain ⟨w', hrun⟩ := storeNodes_run_buckets
      (allWrites sha256 (h + 1) (ls ++ vs.map Bytes.low27) ls.length vs.length)
      fun x hx => hbuckets x.1 (allWrites_lt hn hpos hx)
    simp only [updateNodesFrom_eq a (Nat.succ_pos h) h30 hd vs hne hn hf, Proc.run_bind_ok hrun,
      run_updateOne, Proc.run_ret]
    exact ⟨_, _, rfl⟩

/-- The number of hashes `getNumberOfHashes` gives for a batch of leaves is that of the calls
`updateNodes` makes to append it, and it does append it to the frontier of the leaves before. -/
theorem updateNodes_numberOfHashes (sha256 : List UInt8 → Bytes 32) {lo hi : ℕ} (h30 : h ≤ 30)
    (hle : lo ≤ hi) (hhi : hi < 2 ^ h) (hw : w.db.findOne (docId a 0) = some d)
    (hd : d.treeHeight = h) (frontier : List (Option Str)) {leafValues : List (Option Str)}
    (hlen : leafValues.length = hi - lo + 1) :
    (∀ root w', (updateNodes sha256 a frontier leafValues lo).run w = (.ok root, w') →
      ∃ calls : ℕ, (updateNodesCounting sha256 a frontier leafValues lo).run w
          = (.ok (root, calls), w') ∧ (calls : ℤ) = getNumberOfHashes hi lo h) ∧
    ((∀ j < 2 ^ h - 1, (w.db.findOne (docId a (calculateBucket j))).isSome) →
      ∀ (ls : List (Bytes 27)) (vs : List (Bytes 32)), ls.length = lo →
        FrontierOf (treeScheme sha256) h ls frontier →
        leafValues = vs.map (fun v => some (hexlify v)) →
        ∃ root w', (updateNodes sha256 a frontier leafValues lo).run w = (.ok root, w')) := by
  have hne : leafValues ≠ [] := List.ne_nil_of_length_pos (by omega)
  refine ⟨fun root w' hrun => ⟨hashCalls h lo (hi - lo + 1), ?_, ?_⟩, ?_⟩
  · rw [updateNodes, run_findOne_deref, hw] at hrun
    rw [updateNodesCounting, run_findOne_deref, hw]
    simp only [updateNodesFromCounting_eq h30 hd frontier hne (k := lo) (by omega), hlen]
    exact Proc.run_bind_ok hrun
  · rw [hashCalls_eq hle hhi, getNumberOfHashes_eq hle]
  · rintro hbuckets ls vs rfl hf rfl
    rw [List.length_map] at hlen
    exact updateNodes_returns h30 hw hd hbuckets hf (List.ne_nil_of_length_pos (by omega))
      (by omega)

theorem updateNodes_numberOfHashes_two :
    let frontier := [some (hexlify (Bytes.fill 27 1))]
    let leafValues := [some (hexlify (Bytes.fill 32 1)), some (hexlify (Bytes.fill 32 1))]
    ∃ root w' calls,
      (updateNodes Sha256.digest [] frontier leafValues 1).run (trackedWorld [] 2)
        = (.ok root, w') ∧
      (updateNodesCounting Sha256.digest [] frontier leafValues 1).run (trackedWorld [] 2)
        = (.ok (root, calls), w') ∧ (calls : ℤ) = getNumberOfHashes 2 1 2 := by
  intro frontier leafValues
  have hf : FrontierOf (treeScheme Sha256.digest) 2 [Bytes.fill 27 1] frontier := by
    intro l hl hb
    obtain rfl : l = 0 := by
      interval_cases l
      · rfl
      · cases hb
    rfl
  obtain ⟨hcount, hreturns⟩ := updateNodes_numberOfHashes Sha256.digest (show 2 ≤ 30 by norm_num)
    (show 1 ≤ 2 by norm_num) (show 2 < 2 ^ 2 by norm_num) (trackedWorld_doc [] 2) rfl frontier
    (show leafValues.length = 2 - 1 + 1 from rfl)
  obtain ⟨root, w', hrun⟩ := hreturns (by decide) [Bytes.fill 27 1]
    [Bytes.fill 32 1, Bytes.fill 32 1] rfl hf rfl
  obtain ⟨calls, hcalls, heq⟩ := hcount root w' hrun
  exact ⟨root, w', calls, hrun, hcalls, heq⟩

end Runs

end CommitMgr

end Baseline
