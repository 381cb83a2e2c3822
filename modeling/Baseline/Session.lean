import Baseline.RpcServer
import Baseline.Sha256

/-!
# A tree tracked without overlaps

The shield contract and the commit manager side by side: every leaf the contract accepts is an
event whose handler runs to its end, and updates of the off-chain tree come in between. An update
may also be interrupted, and the service started again.
-/

namespace Baseline

namespace CommitMgr

inductive Action
  /-- A transaction that inserts a leaf. -/
  | leaf (leafValue : Bytes 32) (blockNumber : ℕ) (transactionHash : Str)
  | updateTree

structure Session where
  contract : MerkleTreeSHA256
  world : World

variable (sha256 : List UInt8 → Bytes 32) (contractAddress : Str)

namespace Session

def step (s : Session) : Action → Session
  | .leaf leafValue blockNumber transactionHash =>
    match s.contract.insertLeaf (precompile sha256) leafValue with
    -- a transaction that reverts emits nothing
    | none => s
    | some (contract, event) =>
      let log : Log := { address := contractAddress, event, transactionHash, blockNumber }
      { contract, world := ((onNewLeaf contractAddress log).run s.world).2 }
  | .updateTree =>
    { s with world := ((CommitMgr.updateTree sha256 contractAddress).run s.world).2 }

def runs (s : Session) (actions : List Action) : Session :=
  actions.foldl (step sha256 contractAddress) s

end Session

/-- An action, or an update that is interrupted once so many of its accesses were served. -/
inductive Attempt
  | complete (action : Action)
  | interrupted (accesses : ℕ)

namespace Session

def attempt (s : Session) : Attempt → Session
  | .complete action => s.step sha256 contractAddress action
  | .interrupted accesses =>
    { s with world := ((CommitMgr.updateTree sha256 contractAddress).serves accesses s.world).2 }

def attempts (s : Session) (steps : List Attempt) : Session :=
  steps.foldl (attempt sha256 contractAddress) s

end Session

/-- The actions there are without the interrupted updates. -/
def completeActions (steps : List Attempt) : List Action :=
  steps.filterMap fun
    | .complete action => some action
    | .interrupted _ => none

/-- The leaf values of the transactions, accepted or not. -/
def leafValues (actions : List Action) : List (Bytes 32) :=
  actions.filterMap fun
    | .leaf leafValue _ _ => some leafValue
    | .updateTree => none

/-- The number of leaves whose nodes are in the first bucket. -/
def fit (treeHeight : ℕ) : ℕ := BUCKET_SIZE + 1 - 2 ^ treeHeight

/-- The leaves that come to be stored: the contract accepts no more than the tree has room for,
and the handlers fail on those that are not in the first bucket. -/
def storedValues (treeHeight : ℕ) (actions : List Action) : List (Bytes 32) :=
  ((leafValues actions).take (2 ^ treeHeight)).take (fit treeHeight)

def blockNumbers (actions : List Action) : List ℕ :=
  actions.filterMap fun
    | .leaf _ blockNumber _ => some blockNumber
    | .updateTree => none

/-- Every leaf is in a block whose number is not falsy. -/
def BlocksPositive (actions : List Action) : Prop := ∀ b ∈ blockNumbers actions, 1 ≤ b

instance (actions : List Action) : Decidable (BlocksPositive actions) :=
  inferInstanceAs (Decidable (∀ b ∈ blockNumbers actions, 1 ≤ b))

end CommitMgr

end Baseline
