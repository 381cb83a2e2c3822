import Baseline.Store
import Baseline.Utils

/-!
# The off-chain tree

`merkle-tree/leaves.js`, `merkle-tree/index.js` and `updateNodes` of `merkle-tree/utils.js`. A
node that is no leaf is stored with its hash alone, since the schema has no `nodeIndex`.
-/

namespace Baseline

namespace CommitMgr

open Js

/-! ## `leaves.js` -/

def insertLeaf (contractAddress : Str) (leaf : Leaf) : Js Unit := do
  let merkleTree_0 ← deref (← findOne .insertLeaf_tree (docId contractAddress 0))
  let nodeIndex := leafIndexToNodeIndex merkleTree_0.treeHeight leaf.leafIndex
  let bucketIndex := calculateBucket nodeIndex
  let merkleSegment ← deref (← findOne .insertLeaf_segment (docId contractAddress bucketIndex))
  let nodes := setEntry merkleSegment.nodes nodeIndex leaf.toNode
  updateOne (.insertLeaf_nodes leaf.leafIndex) (docId contractAddress bucketIndex)
    { nodes := some nodes }
  updateOne (.insertLeaf_latestLeaf leaf.leafIndex) (docId contractAddress 0)
    { latestLeaf := some ⟨some leaf.blockNumber, some leaf.leafIndex⟩ }

/-- The nodes with a leaf index from `lo` to `hi`; a comparison with `undefined` is false. -/
def leavesBetween (nodes : List (Option Node)) (lo hi : ℕ) : List Node :=
  nodes.filterMap fun node => node.filter fun node => node.leafIndex.any fun i => lo ≤ i && i ≤ hi

def getLeafByLeafIndex (contractAddress : Str) (leafIndex : ℕ) : Js Node := do
  let merkleTree_0 ← deref (← findOne .getLeafByLeafIndex_tree (docId contractAddress 0))
  let nodeIndex := leafIndexToNodeIndex merkleTree_0.treeHeight leafIndex
  let merkleSegment ← deref
    (← findOne .getLeafByLeafIndex_segment (docId contractAddress (calculateBucket nodeIndex)))
  let result := merkleSegment.nodes.filterMap fun node =>
    node.filter fun node => node.leafIndex = some leafIndex
  return result.head?.getD ⟨none, none, none, none⟩

/-- The `for` of `getLeavesByLeafIndexRange`, in at most as many turns as the first number. -/
def leafIndexRangeLoop (contractAddress : Str) (treeHeight maxIndex : ℕ) :
    ℕ → ℕ → List Node → Js (List Node)
  | 0, _, leaves => return leaves
  | fuel + 1, leafIndex, leaves =>
    if leafIndex ≤ maxIndex then do
      let nodeIndex := leafIndexToNodeIndex treeHeight leafIndex
      let merkleSegment ← deref (← findOne .getLeavesByLeafIndexRange_segment
        (docId contractAddress (calculateBucket nodeIndex)))
      let result := leavesBetween merkleSegment.nodes leafIndex maxIndex
      leafIndexRangeLoop contractAddress treeHeight maxIndex fuel
        (leafIndex + (result.length - 1) + 1) (leaves ++ result)
    else return leaves

def getLeavesByLeafIndexRange (contractAddress : Str) (minIndex maxIndex : ℕ) :
    Js (List Node) := do
  let merkle_0 ← deref (← findOne .getLeavesByLeafIndexRange_tree (docId contractAddress 0))
  leafIndexRangeLoop contractAddress merkle_0.treeHeight maxIndex (maxIndex + 1 - minIndex)
    minIndex []

/-! ## `updateNodes` -/

/-- The variables `updateNodes` carries up the tree. -/
structure Cursor where
  nodeIndex : ℕ
  nodeValueFull : Str
  nodeValue : Str

/-- Keep the last 27 bytes of a hash. -/
def truncate (nodeValueFull : Str) : Str :=
  '0' :: 'x' :: sliceLast (NODE_HASHLENGTH * 2) nodeValueFull

section UpdateNodes

variable (sha256 : List UInt8 → Bytes 32)

/-- The hashing both loops share; `none` where a hole of the frontier is sliced. -/
def hashUp (frontier : List (Option Str)) (level : ℕ) (c : Cursor) : Option Cursor :=
  if c.nodeIndex % 2 = 0 then do
    let left ← entry frontier (level - 1)
    let nodeValueFull := concatenateThenHash sha256 left c.nodeValue
    return ⟨parentNodeIndex c.nodeIndex, nodeValueFull, truncate nodeValueFull⟩
  else
    let nodeValueFull := concatenateThenHash sha256 c.nodeValue ZERO
    some ⟨parentNodeIndex c.nodeIndex, nodeValueFull, truncate nodeValueFull⟩

/-- Store the hash of a node above the leaves. -/
def storeNode (merkleId : Str) (nodeIndex : ℕ) (hash : Str) : Js Unit := do
  let bucketIndex := calculateBucket nodeIndex
  let merkleSegment ← deref (← findOne .updateNodes_segment (docId merkleId bucketIndex))
  let newNodes := setEntry merkleSegment.nodes (nodeIndex % BUCKET_SIZE)
    ⟨none, none, none, some hash⟩
  updateOne .updateNodes_nodes (docId merkleId bucketIndex) { nodes := some newNodes }

/-- The two loops over levels, `n` levels from `level` on; they differ in the hash they store. -/
def hashLevels (merkleId : Str) (frontier : List (Option Str)) (stored : Cursor → Str) :
    ℕ → ℕ → Cursor → Js Cursor
  | 0, _, c => return c
  | n + 1, level, c => do
    let c ← deref (hashUp sha256 frontier level c)
    storeNode merkleId c.nodeIndex (stored c)
    hashLevels merkleId frontier stored n (level + 1) c

/-- The loop over the new leaves, the next one at `leafIndex`: the frontier, and the slot and
cursor of the last leaf if there was one. -/
def hashLeaves (merkleId : Str) (treeHeight : ℕ) : List (Option Str) → ℕ → List (Option Str) →
    Option (ℕ × Cursor) → Js (List (Option Str) × Option (ℕ × Cursor))
  | [], _, frontier, last => return (frontier, last)
  | leafValue :: leafValues, leafIndex, frontier, _ => do
    let nodeValueFull ← deref leafValue
    let c : Cursor :=
      ⟨leafIndexToNodeIndex treeHeight leafIndex, nodeValueFull, truncate nodeValueFull⟩
    match getFrontierSlot leafIndex with
    | none => .throw .hang
    | some 0 =>
      hashLeaves merkleId treeHeight leafValues (leafIndex + 1) (setEntry frontier 0 c.nodeValue)
        (some (0, c))
    | some slot => do
      let c ← hashLevels sha256 merkleId frontier Cursor.nodeValue slot 1 c
      hashLeaves merkleId treeHeight leafValues (leafIndex + 1)
        (setEntry frontier slot c.nodeValue) (some (slot, c))

/-- What the loop to the root stores: the root in full. -/
def fullAtRoot (c : Cursor) : Str := if c.nodeIndex = 0 then c.nodeValueFull else c.nodeValue

/-- `updateNodes` once it has read the tree's document. -/
def updateNodesFrom (merkleTree_0 : TreeDoc) (merkleId : Str)
    (frontier leafValues : List (Option Str)) (currentLeafCount : ℕ) : Js (Option Str) := do
  let latestLeaf := merkleTree_0.latestLeaf
  let treeHeight := merkleTree_0.treeHeight
  let newFrontier := if frontier.length ≠ treeHeight + 1 ∧ treeHeight ≠ 32
    then setLength frontier (treeHeight + 1) else frontier
  let numberOfLeaves := min leafValues.length (2 ^ treeHeight - currentLeafCount)
  let (newFrontier, last) ← hashLeaves sha256 merkleId treeHeight
    (leafValues.take numberOfLeaves) currentLeafCount newFrontier none
  let root ← match last with
    -- without a new leaf `slot` is `undefined`, and the loop to the root does not start
    | none => pure none
    | some (slot, c) => do
      let c ← hashLevels sha256 merkleId newFrontier fullAtRoot (treeHeight - slot) (slot + 1) c
      pure (some c.nodeValueFull)
  updateOne .updateNodes_latestRecalculation (docId merkleId 0)
    { latestRecalculation :=
        some ⟨latestLeaf.blockNumber, latestLeaf.leafIndex, root, newFrontier⟩ }
  return root

def updateNodes (merkleId : Str) (frontier leafValues : List (Option Str))
    (currentLeafCount : ℕ) : Js (Option Str) := do
  let merkleTree_0 ← deref (← findOne .updateNodes_tree (docId merkleId 0))
  updateNodesFrom sha256 merkleTree_0 merkleId frontier leafValues currentLeafCount

/-! ## `index.js` -/

/-- The root of a tree without leaves. -/
def zeroRoot : Str := '0' :: 'x' :: List.replicate 64 '0'

def updateTree (merkleId : Str) : Js (Option Str) := do
  let merkleTree_0 ← deref (← findOne .updateTree_tree (docId merkleId 0))
  let latestLeaf := merkleTree_0.latestLeaf
  let latestRecalculation := merkleTree_0.latestRecalculation
  -- block `0` is as falsy as no block
  if latestLeaf.blockNumber.getD 0 = 0 then return some zeroRoot
  else do
    let fromLeafIndex := latestRecalculation.leafIndex.elim 0 (· + 1)
    let toLeafIndex := latestLeaf.leafIndex.getD 0
    if fromLeafIndex ≤ toLeafIndex then do
      let leaves ← getLeavesByLeafIndexRange merkleId fromLeafIndex toLeafIndex
      updateNodes sha256 merkleId latestRecalculation.frontier (leaves.map Node.hash)
        fromLeafIndex
    else return latestRecalculation.root

end UpdateNodes

/-- An entry of a sibling path. Of the `nodeIndex` of a request only matters whether it is an even
number. -/
structure SiblingNode where
  nodeIndex : ℕ
  hash : Option Str
  deriving DecidableEq

/-- The loop of `getSiblingPathByLeafIndex`. -/
def siblingNodesLoop (merkleId : Str) : List ℕ → ℕ → TreeDoc → Js (List SiblingNode)
  | [], _, _ => return []
  | nodeIndex :: nodeIndices, prevBucket, merkleSegment => do
    let bucketIndex := calculateBucket nodeIndex
    let merkleSegment ← if bucketIndex ≠ prevBucket then do
        deref (← findOne .getSiblingPathByLeafIndex_segment (docId merkleId bucketIndex))
      else pure merkleSegment
    let hash := match entry merkleSegment.nodes (nodeIndex % BUCKET_SIZE) with
      | some node => node.hash
      | none => some ZERO
    let siblingNodes ← siblingNodesLoop merkleId nodeIndices bucketIndex merkleSegment
    return ⟨nodeIndex, hash⟩ :: siblingNodes

def getSiblingPathByLeafIndex (merkleId : Str) (leafIndex : ℕ) : Js (List SiblingNode) := do
  let merkleTree ← deref (← findOne .getSiblingPathByLeafIndex_tree (docId merkleId 0))
  let singleNodeIndex := leafIndexToNodeIndex merkleTree.treeHeight leafIndex
  siblingNodesLoop merkleId (getSiblingPathIndices singleNodeIndex) 0 merkleTree

end CommitMgr

end Baseline
