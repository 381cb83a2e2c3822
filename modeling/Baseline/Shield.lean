import Baseline.MerkleTreeSHA256
import Mathlib.Data.Fin.VecNotation

/-!
# The shield contract

`Shield.sol`: a tree to which a commitment is added once the verifier contract has accepted a
proof. The verifier may be any contract, so it is any function of what it is called with.
-/

namespace Baseline

/-- `uint256`. -/
abbrev Uint256 : Type := BitVec 256

/-- `verifyTx`, which is a view. -/
structure IVerifier where
  verifyTx (a : Fin 2 → Uint256) (b : Fin 2 → Fin 2 → Uint256) (c : Fin 2 → Uint256)
    (input : Fin 2 → Uint256) : Bool

structure Shield extends MerkleTreeSHA256 where
  verifier : IVerifier

namespace Shield

def new (verifier : IVerifier) (treeHeight : ℕ) : Shield where
  toMerkleTreeSHA256 := MerkleTreeSHA256.new treeHeight
  verifier := verifier

/-- The call to the verifier. -/
def verifies (s : Shield) (proof : Fin 8 → Uint256) (publicInputs : Fin 2 → Uint256) : Bool :=
  s.verifier.verifyTx ![proof 0, proof 1] ![![proof 2, proof 3], ![proof 4, proof 5]]
    ![proof 6, proof 7] ![publicInputs 0, publicInputs 1]

/-- The new state, what is returned, and the event; `none` if the transaction reverts. -/
def verifyAndPush (H : Bytes 54 → Bytes 32) (s : Shield) (proof : Fin 8 → Uint256)
    (publicInputs : Fin 2 → Uint256) (newCommitment : Bytes 32) :
    Option (Shield × Bool × NewLeaf) := do
  let result := s.verifies proof publicInputs
  guard result
  let (t, event) ← s.toMerkleTreeSHA256.insertLeaf H newCommitment
  return ({ s with toMerkleTreeSHA256 := t }, true, event)

/-! ## Runs of transactions -/

/-- A call of `verifyAndPush`, with what the verifier answers at that time. -/
structure Transaction where
  verifier : IVerifier
  proof : Fin 8 → Uint256
  publicInputs : Fin 2 → Uint256
  newCommitment : Bytes 32

/-- Whether the verifier accepts the proof. -/
def Transaction.accepted (tx : Transaction) : Bool :=
  verifies ⟨MerkleTreeSHA256.new 0, tx.verifier⟩ tx.proof tx.publicInputs

/-- A transaction that reverts leaves the storage as it was and logs nothing. -/
def step (H : Bytes 54 → Bytes 32) (s : Shield) (tx : Transaction) : Shield × List NewLeaf :=
  match { s with verifier := tx.verifier }.verifyAndPush H tx.proof tx.publicInputs
      tx.newCommitment with
  | some (s', _, event) => ({ s' with verifier := s.verifier }, [event])
  | none => (s, [])

/-- The storage and the whole log after a run. -/
def runs (H : Bytes 54 → Bytes 32) : Shield → List Transaction → Shield × List NewLeaf
  | s, [] => (s, [])
  | s, tx :: txs =>
    let (s, events) := s.step H tx
    let (s, later) := runs H s txs
    (s, events ++ later)

end Shield

end Baseline
