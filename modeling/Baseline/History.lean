import Baseline.Session

/-!
# The history of a tree

One call after another: contracts are tracked and untracked, blocks are mined whether anyone listens
or not, each listener's handlers run to their ends, and trees are updated. The chain client and the
WebSocket may fail and come back in between.
-/

namespace Baseline

namespace CommitMgr

/-- A transaction of a block. -/
inductive Transaction
  /-- A leaf is inserted into the contract. -/
  | leaf (leafValue : Bytes 32) (transactionHash : Str)
  /-- An event of another contract. -/
  | other (e : Emitted)

/-- What happens between two calls, or the call of a function of the service. -/
inductive Occurrence
  | mine (transactions : List Transaction)
  | track (contractAddress : Str)
  | untrack (contractAddress : Str) (prune : Bool)
  | updateTree (contractAddress : Str)
  | client (rpc : RpcState)
  | connection (wsUp : Bool)
  | drop

section Calls

variable (sha256 : List UInt8 → Bytes 32) (regExp : Str → Str → Bool) (contractAddress : Str)

/-- The transactions of a block in order, and the events they emit. -/
def transact : List Transaction → MerkleTreeSHA256 → MerkleTreeSHA256 × Block
  | [], contract => (contract, [])
  | .leaf leafValue transactionHash :: transactions, contract =>
    match contract.insertLeaf (precompile sha256) leafValue with
    -- a transaction that reverts emits nothing
    | none => transact transactions contract
    | some (contract, event) =>
      let (contract, b) := transact transactions contract
      (contract, ⟨contractAddress, event, transactionHash⟩ :: b)
  | .other e :: transactions, contract =>
    let (contract, b) := transact transactions contract
    (contract, if e.address = contractAddress then b else e :: b)

/-- A handler runs to its end. -/
def handle (w : World) (delivery : Str × Log) : World := ((onNewLeaf delivery.1 delivery.2).run w).2

namespace Session

def occur (s : Session) : Occurrence → Session
  | .mine transactions =>
    let (contract, b) := transact sha256 contractAddress transactions s.contract
    { contract, world := (s.world.deliveries b).foldl handle (s.world.mine b) }
  | .track x => { s with world := ((baseline_track x).run s.world).2 }
  | .untrack x prune => { s with world := ((baseline_untrack regExp x prune).run s.world).2 }
  | .updateTree x => { s with world := ((CommitMgr.updateTree sha256 x).run s.world).2 }
  | .client rpc => { s with world := { s.world with rpc } }
  | .connection wsUp => { s with world := { s.world with wsUp } }
  | .drop => { s with world := { s.world with ws_provider := none } }

def occurs (s : Session) (history : List Occurrence) : Session :=
  history.foldl (occur sha256 regExp contractAddress) s

end Session

end Calls

/-- The leaves a tree's document has, in the order of their nodes. -/
def storedLeaves (contractAddress : Str) (w : World) : List Node :=
  ((nodesAt contractAddress w).getD []).filterMap fun node =>
    node.filter fun node => node.leafIndex.isSome

end CommitMgr

end Baseline
