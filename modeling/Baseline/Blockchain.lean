import Baseline.MerkleTree

/-!
# Reading the chain

`blockchain/utils.js` and `blockchain/events.js`: the scan of old logs, the subscription to new
ones, and the restart. A query to the node, and a use of the WebSocket provider, is an await of
its own: the node answers at one moment and the service acts on the answer at a later one.
-/

namespace Baseline

/-! ## The provider -/

/-- `get_ws_provider`: a provider that is gone is replaced, if a connection can be made. -/
def World.get_ws_provider (w : World) : World :=
  { w with ws_provider := w.ws_provider.or (if w.wsUp then some [] else none) }

namespace CommitMgr

open Js

/-- An access to the world that may throw. -/
def attempt {α : Type} (l : AwaitPoint) (op : World → Except JsError α × World) : Js α :=
  .await l op fun
    | .ok a => .ret a
    | .error e => .throw e

/-- `provider.on` with a filter for the `NewLeaf` events of an address. -/
def subscribeMerkleEvents (contractAddress : Str) : Js Unit :=
  attempt .subscribeMerkleEvents fun w =>
    let w := w.get_ws_provider
    match w.ws_provider with
    | some listeners =>
      (.ok (), { w with ws_provider := some (listeners ++ [contractAddress]) })
    -- the error is assigned to a variable that is not declared
    | none => (.error .referenceError, w)

/-- `provider.off` without a listener, which takes all away. -/
def unsubscribeMerkleEvents (contractAddress : Str) : Js Unit :=
  attempt .unsubscribeMerkleEvents fun w =>
    let w := w.get_ws_provider
    match w.ws_provider with
    | some listeners =>
      (.ok (), { w with ws_provider := some (listeners.filter (· ≠ contractAddress)) })
    | none => (.error .typeError, w)

/-- The listener's callback. -/
def onNewLeaf (contractAddress : Str) (result : Log) : Js Unit :=
  insertLeaf contractAddress result.leaf

/-! ## The scan -/

/-- The body of a JSON-RPC response. -/
inductive Response (α : Type)
  | result (a : α)
  | error (e : RpcError)

def jsonrpc {α : Type} (l : AwaitPoint) (query : World → α) : Js (Response α) :=
  attempt l fun w =>
    match w.rpc with
    | .ok => (.ok (.result (query w)), w)
    | .error e => (.ok (.error e), w)
    | .down => (.error .requestFailed, w)

/-- `eth_getLogs` for the `NewLeaf` events of an address from a block to the latest. -/
def World.getLogs (contractAddress : Str) (fromBlock : ℕ) (w : World) : List Log :=
  logsFrom contractAddress fromBlock (w.chain.drop fromBlock)

/-- The loop over the logs found. -/
def insertLogs (contractAddress : Str) : List Log → Js Unit
  | [] => return ()
  | log :: logs => do
    insertLeaf contractAddress log.leaf
    insertLogs contractAddress logs

def checkChainLogs (contractAddress : Str) (fromBlock : Option ℕ) : Js Unit := do
  -- no block, and block `0`, scan from the start
  let blockNum := if fromBlock.getD 0 = 0 then 0 else fromBlock.getD 0 + 1
  match ← jsonrpc .checkChainLogs_getLogs (World.getLogs contractAddress blockNum) with
  | .result logs => insertLogs contractAddress logs
  -- `res.result` is `undefined`, and its length is read
  | .error _ => .throw .typeError

/-! ## The restart -/

/-- The loop over the active trees. -/
def restartTrees : List TreeDoc → Js Unit
  | [] => return ()
  | tree :: activeTrees => do
    let contractAddress := tree._id.dropLast.dropLast
    checkChainLogs contractAddress tree.latestLeaf.blockNumber
    subscribeMerkleEvents contractAddress
    restartTrees activeTrees

/-- Run every time the service starts. -/
def restartSubscriptions : Js Unit := do
  let activeTrees ← .await .restartSubscriptions_find
    (fun w => (w.db.find fun d => (['_', '0'] <:+ d._id) ∧ d.active = some true, w)) .ret
  -- `provider.on('block', ..)`
  attempt .restartSubscriptions_provider fun w =>
    let w := w.get_ws_provider
    (if w.ws_provider.isSome then .ok () else .error .typeError, w)
  restartTrees activeTrees

end CommitMgr

/-! ## New blocks -/

namespace World

/-- A block is mined. -/
def mine (w : World) (b : Block) : World := { w with chain := w.chain ++ [b] }

/-- The events of a block mined now that reach a listener, with the listener's address. -/
def deliveries (w : World) (b : Block) : List (Str × Log) :=
  (w.ws_provider.getD []).flatMap fun contractAddress =>
    (blockLogs contractAddress w.chain.length b).map (contractAddress, ·)

end World

end Baseline
