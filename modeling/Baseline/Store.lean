import Baseline.Await
import Baseline.Bytes
import Baseline.MerkleTreeSHA256
import Mathlib.Data.Int.Notation

/-!
# The state of the commit manager

The `merkle-trees` collection, the chain the service watches, and the service's WebSocket
provider. A document is what mongoose hands out for the schema of `db/models/MerkleTree.js`:
nested paths are always there, a field that was never set is `undefined`, and `nodes` is an array
with holes. Every function of the service is a process over this state whose awaits are its
database and chain accesses.
-/

namespace Baseline

open Await

/-! ## Documents -/

/-- An entry of `nodes`; only leaves have the first three fields. -/
structure Node where
  leafIndex : Option ℕ
  blockNumber : Option ℕ
  txHash : Option Str
  hash : Option Str
  deriving DecidableEq

/-- A leaf as `insertLeaf` receives it. -/
structure Leaf where
  hash : Str
  leafIndex : ℕ
  txHash : Str
  blockNumber : ℕ
  deriving DecidableEq

def Leaf.toNode (leaf : Leaf) : Node where
  leafIndex := some leaf.leafIndex
  blockNumber := some leaf.blockNumber
  txHash := some leaf.txHash
  hash := some leaf.hash

structure LatestLeaf where
  blockNumber : Option ℕ
  leafIndex : Option ℕ
  deriving DecidableEq

structure LatestRecalculation where
  blockNumber : Option ℕ
  leafIndex : Option ℕ
  root : Option Str
  frontier : List (Option Str)
  deriving DecidableEq

structure TreeDoc where
  _id : Str
  treeHeight : ℕ
  latestLeaf : LatestLeaf
  active : Option Bool
  latestRecalculation : LatestRecalculation
  nodes : List (Option Node)
  deriving DecidableEq

/-- A document inserted by an upsert, with the schema's defaults. -/
def TreeDoc.default (id : Str) : TreeDoc where
  _id := id
  treeHeight := 4
  latestLeaf := ⟨none, none⟩
  active := none
  latestRecalculation := ⟨none, none, none, List.replicate 33 none⟩
  nodes := []

/-- The fields an update sets. -/
structure TreeUpdate where
  treeHeight : Option ℕ := none
  latestLeaf : Option LatestLeaf := none
  active : Option Bool := none
  latestRecalculation : Option LatestRecalculation := none
  nodes : Option (List (Option Node)) := none

def TreeUpdate.apply (u : TreeUpdate) (d : TreeDoc) : TreeDoc where
  _id := d._id
  treeHeight := u.treeHeight.getD d.treeHeight
  latestLeaf := u.latestLeaf.getD d.latestLeaf
  active := u.active.or d.active
  latestRecalculation := u.latestRecalculation.getD d.latestRecalculation
  nodes := u.nodes.getD d.nodes

/-! ## The collection -/

/-- The documents, no two of one `_id`. -/
structure Collection where
  docs : List TreeDoc
  nodup : (docs.map TreeDoc._id).Nodup

namespace Collection

def findOne (c : Collection) (id : Str) : Option TreeDoc := c.docs.find? (·._id = id)

def find (c : Collection) (q : TreeDoc → Bool) : List TreeDoc := c.docs.filter q

def updateOne (c : Collection) (id : Str) (u : TreeUpdate) : Collection where
  docs := c.docs.map fun d => if d._id = id then u.apply d else d
  nodup := by
    have h : (c.docs.map fun d => if d._id = id then u.apply d else d).map TreeDoc._id
        = c.docs.map TreeDoc._id := by
      rw [List.map_map]
      refine List.map_congr_left fun d _ => ?_
      simp only [Function.comp]
      split <;> rfl
    rw [h]
    exact c.nodup

/-- `findOneAndUpdate` or `updateOne` with `upsert: true`. -/
def upsert (c : Collection) (id : Str) (u : TreeUpdate) : Collection :=
  if h : ∃ d ∈ c.docs, d._id = id then c.updateOne id u
  else
    { docs := c.docs ++ [u.apply (TreeDoc.default id)]
      nodup := by
        rw [List.map_append, List.map_singleton]
        refine List.Nodup.append c.nodup (List.nodup_singleton _) ?_
        simp only [List.disjoint_singleton, List.mem_map, not_exists, not_and]
        exact fun d hd hid => h ⟨d, hd, hid⟩ }

def deleteMany (c : Collection) (q : TreeDoc → Bool) : Collection where
  docs := c.docs.filter fun d => !q d
  nodup := c.nodup.sublist (List.filter_sublist.map _)

end Collection

/-! ## The chain -/

/-- A `NewLeaf` event as a transaction emitted it. -/
structure Emitted where
  address : Str
  event : NewLeaf
  transactionHash : Str
  deriving DecidableEq

/-- The events of a block, in order. A block's number is its position in the chain. -/
abbrev Block : Type := List Emitted

/-- The event with its place in the chain, as `eth_getLogs` and the listeners deliver it. -/
structure Log extends Emitted where
  blockNumber : ℕ
  deriving DecidableEq

/-- The logs of a block at `address`. -/
def blockLogs (address : Str) (blockNumber : ℕ) (b : Block) : List Log :=
  (b.filter fun e => e.address = address).map fun e => { e with blockNumber }

/-- The logs of `blocks` at `address`, the first block numbered `n`. -/
def logsFrom (address : Str) : ℕ → List Block → List Log
  | _, [] => []
  | n, b :: bs => blockLogs address n b ++ logsFrom address (n + 1) bs

/-- The leaf a log's handler builds. -/
def Log.leaf (l : Log) : Leaf where
  hash := hexlify l.event.leafValue
  leafIndex := l.event.leafIndex
  txHash := l.transactionHash
  blockNumber := l.blockNumber

/-! ## The service -/

/-- The error object of a JSON-RPC response. -/
structure RpcError where
  code : ℤ
  message : Str
  data : Option Str
  deriving DecidableEq

/-- How the chain client answers: with results, with an error object, or not at all. -/
inductive RpcState
  | ok
  | error (e : RpcError)
  | down
  deriving DecidableEq

structure World where
  db : Collection
  chain : List Block
  /-- `treeHeight()` of the contract at an address; zero where the call returns no number. -/
  heights : Str → ℕ
  rpc : RpcState
  /-- Whether a new WebSocket connection can be made. -/
  wsUp : Bool
  /-- The provider, with the addresses whose `NewLeaf` events it has a listener for. -/
  ws_provider : Option (List Str)

/-- What stops a process: an exception, or a loop that never gives control back. -/
inductive JsError
  | typeError
  | referenceError
  | requestFailed
  | syntaxError
  | hang
  deriving DecidableEq

/-- The await points, under the function they are in; a handler's writes carry its leaf. -/
inductive AwaitPoint
  | insertLeaf_tree
  | insertLeaf_segment
  | insertLeaf_nodes (leafIndex : ℕ)
  | insertLeaf_latestLeaf (leafIndex : ℕ)
  | getLeafByLeafIndex_tree
  | getLeafByLeafIndex_segment
  | getLeavesByLeafIndexRange_tree
  | getLeavesByLeafIndexRange_segment
  | getSiblingPathByLeafIndex_tree
  | getSiblingPathByLeafIndex_segment
  | updateTree_tree
  | updateNodes_tree
  | updateNodes_segment
  | updateNodes_nodes
  | updateNodes_latestRecalculation
  | checkChainLogs_getLogs
  | subscribeMerkleEvents
  | restartSubscriptions_find
  | restartSubscriptions_provider
  | track_tree
  | track_treeHeight
  | track_upsert
  | untrack_find
  | unsubscribeMerkleEvents
  | untrack_deleteMany
  | untrack_updateOne
  | main_provider
  deriving DecidableEq

abbrev Js (α : Type) : Type 1 := Proc AwaitPoint World JsError α

namespace Js

/-- Reading a property of a value that may be `null` or `undefined`. -/
def deref {α : Type} : Option α → Js α
  | some a => .ret a
  | none => .throw .typeError

def findOne (l : AwaitPoint) (id : Str) : Js (Option TreeDoc) :=
  .await l (fun w => (w.db.findOne id, w)) .ret

def updateOne (l : AwaitPoint) (id : Str) (u : TreeUpdate) : Js Unit :=
  .await l (fun w => ((), { w with db := w.db.updateOne id u })) .ret

end Js

/-- The `_id` of a tree's document: contract address, underscore, bucket. -/
def docId (contractAddress : Str) (bucketIndex : ℕ) : Str :=
  contractAddress ++ '_' :: Nat.toDigits 10 bucketIndex

/-! ## What is stored for a tree -/

section Stored

variable (contractAddress : Str) (w : World)

def nodesAt : Option (List (Option Node)) :=
  (w.db.findOne (docId contractAddress 0)).map TreeDoc.nodes

def entryAt (nodeIndex : ℕ) : Option Node :=
  (w.db.findOne (docId contractAddress 0)).bind fun d => d.nodes[nodeIndex]?.join

def latestLeafAt : Option LatestLeaf :=
  (w.db.findOne (docId contractAddress 0)).map TreeDoc.latestLeaf

end Stored

end Baseline
