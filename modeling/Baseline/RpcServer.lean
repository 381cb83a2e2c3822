import Baseline.Blockchain

/-!
# The service's requests

The methods of `rpc-server.ts` that track a contract or answer from its tree, from the arguments
`validateParams` has passed.
-/

namespace Baseline

namespace CommitMgr

open Await Js

/-- What a request hands to `done`. -/
structure Reply (α : Type) where
  error : Option RpcError
  result : Option α

def internalError (data : Str) : RpcError where
  code := -32603
  message := "Internal server error".toList
  data := some data

def baseline_track (contractAddress : Str) : Js (Reply Bool) := do
  let merkleTree ← findOne .track_tree (docId contractAddress 0)
  if merkleTree.any fun merkleTree => merkleTree.active = some true then
    return ⟨some (internalError
      ("Already tracking MerkleTree at address ".toList ++ contractAddress)), none⟩
  else
    match ← jsonrpc .track_treeHeight fun w => w.heights contractAddress with
    | .error e => return ⟨some e, none⟩
    | .result treeHeight =>
      if treeHeight = 0 then
        return ⟨some (internalError "Could not retreive treeHeight from blockchain".toList), none⟩
      else do
        .await .track_upsert (fun w => ((), { w with
          db := w.db.upsert (docId contractAddress 0)
            { treeHeight := some treeHeight, active := some true } })) .ret
        checkChainLogs contractAddress (some 0)
        subscribeMerkleEvents contractAddress
        return ⟨none, some true⟩

/-- `regExp` is `new RegExp(contractAddress).test`; a pattern that is none, at which the request
throws before it does anything, matches nothing here. -/
def baseline_untrack (regExp : Str → Str → Bool) (contractAddress : Str) (prune : Bool) :
    Js (Reply Bool) := do
  let foundTree ← .await .untrack_find
    (fun w => (w.db.find fun d => regExp contractAddress d._id, w)) .ret
  if foundTree.length = 0 then
    return ⟨some (internalError ("Merkle Tree not found in db: ".toList ++ contractAddress)), none⟩
  else do
    unsubscribeMerkleEvents contractAddress
    if prune = true then
      .await .untrack_deleteMany (fun w => ((), { w with
        db := w.db.deleteMany fun d => regExp contractAddress d._id })) .ret
    else
      .await .untrack_updateOne (fun w => ((), { w with
        db := w.db.upsert (docId contractAddress 0) { active := some false } })) .ret
    return ⟨none, some true⟩

/-- The same with `new RegExp`, as far as the database's matching takes it, in full: `none` where
the string is no pattern. -/
def baseline_untrackWith (newRegExp : Str → Option (Str → Bool)) (contractAddress : Str)
    (prune : Bool) : Js (Reply Bool) :=
  match newRegExp contractAddress with
  | some regExp => baseline_untrack (fun _ => regExp) contractAddress prune
  | none => .throw .syntaxError

def invalidParams (data : Str) : RpcError where
  code := -32602
  message := "Invalid params".toList
  data := some data

def baseline_getCommits (contractAddress : Str) (startLeafIndex count : ℕ) :
    Js (Reply (List Node)) :=
  if count < 1 then
    return ⟨some (invalidParams "Param \"count\" must be greater than 0".toList), none⟩
  else do
    let endLeafIndex := startLeafIndex + count - 1
    let result ← getLeavesByLeafIndexRange contractAddress startLeafIndex endLeafIndex
    return ⟨none, some result⟩

def baseline_getCommit (contractAddress : Str) (leafIndex : ℕ) : Js (Reply Node) := do
  let result ← getLeafByLeafIndex contractAddress leafIndex
  return ⟨none, some result⟩

/-- The `catch` of `baseline_getRoot` and of `baseline_getProof`. A loop without an end throws
nothing. -/
def orServerError {α : Type} (p : Js (Reply α)) : Js (Reply α) :=
  Proc.tryCatch p fun e => match e with
    | .hang => .throw .hang
    | _ => .ret
      ⟨some { code := -32603, message := "Internal server error".toList, data := none }, none⟩

def baseline_getProof (contractAddress : Str) (leafIndex : ℕ) : Js (Reply (List SiblingNode)) :=
  orServerError do
    let pathNodes ← getSiblingPathByLeafIndex contractAddress leafIndex
    return ⟨none, some pathNodes⟩

/-- The query is that of `restartSubscriptions`. -/
def baseline_getTracked : Js (Reply (List Str)) := do
  let trackedContracts ← .await .restartSubscriptions_find
    (fun w => (w.db.find fun d => (['_', '0'] <:+ d._id) ∧ d.active = some true, w)) .ret
  return ⟨none, some (trackedContracts.map fun contract => contract._id.dropLast.dropLast)⟩

/-- The document `baseline_track` creates. -/
def trackedDoc (contractAddress : Str) (treeHeight : ℕ) : TreeDoc :=
  TreeUpdate.apply { treeHeight := some treeHeight, active := some true }
    (TreeDoc.default (docId contractAddress 0))

/-- An address of one digit, and what an address matches as a regular expression. -/
def contractOf (c : Char) : Str := '0' :: 'x' :: List.replicate 40 c

def matchesText (contractAddress id : Str) : Bool := contractAddress <:+: id

/-- A service that tracks nothing, on a chain where nothing has happened. -/
def newWorld (treeHeight : ℕ) : World where
  db := ⟨[], List.nodup_nil⟩
  chain := []
  heights _ := treeHeight
  rpc := .ok
  wsUp := true
  ws_provider := none

/-- A service that has just begun to track a contract. -/
def trackedWorld (contractAddress : Str) (treeHeight : ℕ) : World where
  db := ⟨[trackedDoc contractAddress treeHeight], List.nodup_singleton _⟩
  chain := []
  heights _ := treeHeight
  rpc := .ok
  wsUp := true
  ws_provider := some [contractAddress]

section Verify

variable (sha256 : List UInt8 → Bytes 32)

def baseline_getRoot (contractAddress : Str) : Js (Reply Str) :=
  orServerError do
    let root ← updateTree sha256 contractAddress
    return ⟨none, root⟩

/-- The loop of `baseline_verify`. -/
def verifyLoop : List SiblingNode → Str → Js Str
  | [], currentHash => return currentHash
  | node :: siblingNodes, currentHash => do
    let hash ← deref node.hash
    if node.nodeIndex % 2 = 0 then
      verifyLoop siblingNodes (concatenateThenHash sha256 currentHash hash)
    else
      verifyLoop siblingNodes (concatenateThenHash sha256 hash currentHash)

def baseline_verify (contractAddress leafValue : Str) (siblingNodes : List SiblingNode) :
    Js Bool := do
  let last ← deref siblingNodes.getLast?
  let root := last.hash
  let updatedRoot ← updateTree sha256 contractAddress
  let currentHash ← verifyLoop sha256 siblingNodes.dropLast leafValue
  return root = some currentHash ∧ root = updatedRoot

/-- What a client asks about the tree of a contract. -/
inductive Query
  | getCommit (leafIndex : ℕ)
  | getCommits (startLeafIndex count : ℕ)
  | getRoot
  | getProof (leafIndex : ℕ)
  | verify (leafValue : Str) (siblingNodes : List SiblingNode)

/-- The state once a query is answered, or has failed. -/
def Query.serve (contractAddress : Str) (w : World) : Query → World
  | .getCommit leafIndex => ((baseline_getCommit contractAddress leafIndex).run w).2
  | .getCommits startLeafIndex count =>
    ((baseline_getCommits contractAddress startLeafIndex count).run w).2
  | .getRoot => ((baseline_getRoot sha256 contractAddress).run w).2
  | .getProof leafIndex => ((baseline_getProof contractAddress leafIndex).run w).2
  | .verify leafValue siblingNodes =>
    ((baseline_verify sha256 contractAddress leafValue siblingNodes).run w).2

/-- Queries about any contracts, one after the other. -/
def Query.serves (w : World) (queries : List (Str × Query)) : World :=
  queries.foldl (fun w query => query.2.serve sha256 query.1 w) w

end Verify

end CommitMgr

end Baseline
