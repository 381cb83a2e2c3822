import Baseline.Shield
import Baseline.Proofs.MerkleTreeSHA256
import Baseline.Sha256

/-!
# The shield over a run

A transaction whose proof is accepted adds a leaf while there is room, and every other leaves the
contract as it was (`step_of_accepted`, `step_of_refused`, `step_of_full`). So after a run the
tree is the one over the first commitments with accepted proofs, as many as fit, and the log has
each of them with the root it led to (`runs_represents`).
-/

namespace Baseline

open HashTree MerkleTreeSHA256

namespace Shield

variable {H : Bytes 54 → Bytes 32} {h : ℕ} {s : Shield} {tx : Transaction}

/-- The commitments of a run that come with an accepted proof. -/
def acceptedOf (txs : List Transaction) : List (Bytes 32) :=
  (txs.filter Transaction.accepted).map Transaction.newCommitment

theorem acceptedOf_cons_of_accepted {txs : List Transaction} (haccepted : tx.accepted = true) :
    acceptedOf (tx :: txs) = tx.newCommitment :: acceptedOf txs := by
  simp [acceptedOf, haccepted]

theorem acceptedOf_cons_of_refused {txs : List Transaction} (hrefused : tx.accepted = false) :
    acceptedOf (tx :: txs) = acceptedOf txs := by
  simp [acceptedOf, hrefused]

variable (H h) in
/-- The events of leaves that are added to a tree of leaves. -/
def eventsOf : List (Bytes 32) → List (Bytes 32) → List NewLeaf
  | _, [] => []
  | us, v :: vs =>
    ⟨us.length, v, (shaScheme H).root ((us ++ [v]).map Bytes.low27) h⟩ :: eventsOf (us ++ [v]) vs

/-! ## One transaction -/

theorem verifyAndPush_eq (s : Shield) (tx : Transaction) :
    { s with verifier := tx.verifier }.verifyAndPush H tx.proof tx.publicInputs tx.newCommitment
      = if tx.accepted = true then
          (s.toMerkleTreeSHA256.insertLeaf H tx.newCommitment).map fun r =>
            (⟨r.1, tx.verifier⟩, true, r.2)
        else none := by
  have hresult : verifies { s with verifier := tx.verifier } tx.proof tx.publicInputs
      = tx.accepted := rfl
  simp only [verifyAndPush, hresult, guard]
  split_ifs
  · rcases s.toMerkleTreeSHA256.insertLeaf H tx.newCommitment with _ | ⟨t, e⟩ <;> rfl
  · rfl

theorem step_of_refused (hrefused : tx.accepted = false) : s.step H tx = (s, []) := by
  simp only [step, verifyAndPush_eq, hrefused]
  rfl

theorem step_of_full {vs : List (Bytes 27)} (hs : Represents H h vs s.toMerkleTreeSHA256)
    (hfull : 2 ^ h ≤ vs.length) : s.step H tx = (s, []) := by
  have hnone : s.toMerkleTreeSHA256.insertLeaf H tx.newCommitment = none :=
    insertLeaf_full (by rw [hs.treeWidth, hs.count]; exact hfull) _
  simp only [step, verifyAndPush_eq, hnone]
  split_ifs <;> rfl

theorem step_of_accepted {vs : List (Bytes 27)} (hh : 1 ≤ h) (h33 : h ≤ 33)
    (hs : Represents H h vs s.toMerkleTreeSHA256) (hroom : vs.length < 2 ^ h)
    (haccepted : tx.accepted = true) :
    ∃ s', s.step H tx = (s', [⟨vs.length, tx.newCommitment,
        (shaScheme H).root (vs ++ [tx.newCommitment.low27]) h⟩]) ∧
      Represents H h (vs ++ [tx.newCommitment.low27]) s'.toMerkleTreeSHA256 := by
  obtain ⟨t, hinsert, ht⟩ := insertLeaf_represents hh h33 hs hroom tx.newCommitment
  have hroot : t.latestRoot = (shaScheme H).root (vs ++ [tx.newCommitment.low27]) h := by
    rw [ht.root, if_neg (by simp)]
  refine ⟨⟨t, s.verifier⟩, ?_, ht⟩
  simp only [step, verifyAndPush_eq, haccepted, if_true, hinsert, Option.map_some, hroot]

/-! ## A run -/

theorem runs_of_full {vs : List (Bytes 27)} : ∀ (txs : List Transaction) {s : Shield},
    Represents H h vs s.toMerkleTreeSHA256 → 2 ^ h ≤ vs.length → s.runs H txs = (s, [])
  | [], _, _, _ => rfl
  | tx :: txs, s, hs, hfull => by
    simp only [runs, step_of_full hs hfull, runs_of_full txs hs hfull, List.append_nil]

theorem runs_of_represents (hh : 1 ≤ h) (h33 : h ≤ 33) :
    ∀ (txs : List Transaction) (us : List (Bytes 32)) {s : Shield},
    Represents H h (us.map Bytes.low27) s.toMerkleTreeSHA256 →
    let vs := (acceptedOf txs).take (2 ^ h - us.length)
    Represents H h ((us ++ vs).map Bytes.low27) (s.runs H txs).1.toMerkleTreeSHA256 ∧
      (s.runs H txs).2 = eventsOf H h us vs
  | [], us, s, hs => by simpa [acceptedOf, eventsOf, runs] using hs
  | tx :: txs, us, s, hs => by
    intro vs
    by_cases hroom : us.length < 2 ^ h
    · cases haccepted : tx.accepted with
      | false =>
        have hrest := runs_of_represents hh h33 txs us hs
        simp only [vs, acceptedOf_cons_of_refused haccepted, runs, step_of_refused haccepted]
        exact hrest
      | true =>
        obtain ⟨s', hstep, hs'⟩ :=
          step_of_accepted (H := H) (s := s) hh h33 hs (by simpa using hroom) haccepted
        have hrest := runs_of_represents hh h33 txs (us ++ [tx.newCommitment]) (s := s')
          (by simpa using hs')
        have htake : vs = tx.newCommitment ::
            (acceptedOf txs).take (2 ^ h - (us ++ [tx.newCommitment]).length) := by
          simp only [vs, acceptedOf_cons_of_accepted haccepted, List.length_append,
            List.length_singleton]
          rw [show 2 ^ h - us.length = 2 ^ h - (us.length + 1) + 1 by omega, List.take_succ_cons]
        rw [htake]
        simp only [runs, hstep, eventsOf]
        refine ⟨by simpa using hrest.1, ?_⟩
        rw [hrest.2]
        simp
    · have hnone : vs = [] := by simp only [vs]; rw [Nat.sub_eq_zero_of_le (by omega)]; rfl
      rw [hnone, runs_of_full (tx :: txs) hs (by simpa using hroom)]
      exact ⟨by simpa using hs, rfl⟩

/-- After any run on a new shield, its tree is the one over the first commitments with an accepted
proof, up to the width of the tree, and its log has them one by one with their roots. -/
theorem runs_represents (H : Bytes 54 → Bytes 32) {h : ℕ} (hh : 1 ≤ h) (h33 : h ≤ 33)
    (verifier : IVerifier) (txs : List Transaction) :
    let commitments := (acceptedOf txs).take (2 ^ h)
    let (s, events) := (Shield.new verifier h).runs H txs
    Represents H h (commitments.map Bytes.low27) s.toMerkleTreeSHA256 ∧
      events = eventsOf H h [] commitments := by
  have hrest := runs_of_represents hh h33 txs [] (s := Shield.new verifier h)
    (new_represents (H := H) h33)
  simpa using hrest

/-- A contract that answers the same to everything. -/
def answering (result : Bool) : IVerifier := ⟨fun _ _ _ _ => result⟩

theorem runs_represents_refused :
    let txs : List Transaction :=
      [⟨answering false, fun _ => 5, fun _ => 5, .fill 32 1⟩,
        ⟨answering true, fun _ => 5, fun _ => 5, .fill 32 2⟩]
    ((Shield.new (answering true) 1).runs (precompile Sha256.digest) txs).2
      = eventsOf (precompile Sha256.digest) 1 [] [.fill 32 2] := by
  intro txs
  exact (runs_represents (precompile Sha256.digest) (h := 1) le_rfl (by norm_num) (answering true)
    txs).2

end Shield

end Baseline
