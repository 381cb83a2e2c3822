import Baseline.RpcServer

/-!
# The service from start to start

`main` of `index.ts` subscribes to the trees that are active in the database and then listens for
requests. Requests that track and untrack run together; the chain client and the provider fail and
come back; the service stops at any moment and starts again. Of what a step of such a run does,
`Heeds` says when it keeps the trees that are active and the listeners together.
-/

namespace Baseline

open Await

namespace AwaitPoint

/-- What `baseline_track` waits for once the tree is active and before its listener is there. -/
def isBeforeListener : AwaitPoint → Bool
  | checkChainLogs_getLogs => true
  | insertLeaf_tree => true
  | insertLeaf_segment => true
  | insertLeaf_nodes _ => true
  | insertLeaf_latestLeaf _ => true
  | subscribeMerkleEvents => true
  | _ => false

/-- What `baseline_untrack` waits for once the listeners are gone. -/
def isAfterUnsubscribe : AwaitPoint → Bool
  | untrack_deleteMany => true
  | untrack_updateOne => true
  | _ => false

end AwaitPoint

namespace World

variable (contractAddress : Str) (w : World)

/-- The tree's document has `active = true`. -/
def isActive : Bool :=
  (w.db.findOne (docId contractAddress 0)).any fun d => d.active = some true

/-- The number of the contract's `NewLeaf` listeners. -/
def listeners : ℕ := (w.ws_provider.getD []).count contractAddress

/-- A use of the provider finds one. -/
def Connects : Prop := w.get_ws_provider.ws_provider.isSome

/-- The query for old logs is answered, and the leaves it finds go to the tree's document. -/
def Scannable (fromBlock : Option ℕ) : Prop :=
  w.rpc = .ok ∧ ∀ d ∈ w.db.findOne (docId contractAddress 0),
    ∀ log ∈ CommitMgr.World.getLogs contractAddress
        (if fromBlock.getD 0 = 0 then 0 else fromBlock.getD 0 + 1) w,
      CommitMgr.calculateBucket
        (CommitMgr.leafIndexToNodeIndex d.treeHeight log.event.leafIndex) = 0

instance : Decidable w.Connects := inferInstanceAs (Decidable (_ = true))

instance (fromBlock : Option ℕ) : Decidable (w.Scannable contractAddress fromBlock) :=
  inferInstanceAs (Decidable (_ ∧ _))

end World

namespace CommitMgr

/-! ## The service -/

inductive Request
  | track (contractAddress : Str)
  | untrack (contractAddress : Str) (prune : Bool)
  /-- A listener's handler of a log. -/
  | newLeaf (contractAddress : Str) (log : Log)

/-- A request and where it is at. -/
structure Call where
  request : Request
  proc : Js Unit

/-- `main`, up to where it listens. -/
def main : Js Unit := do
  .await .main_provider (fun w => ((), w.get_ws_provider)) .ret
  restartSubscriptions

structure Server where
  world : World
  main : Js Unit
  calls : List Call

/-- What happens to a service. -/
inductive LifeEvent
  | track (contractAddress : Str)
  | untrack (contractAddress : Str) (prune : Bool)
  /-- An access of a call is served. -/
  | serve (i : ℕ)
  /-- An access of `main` is served. -/
  | start
  | mine (b : Block)
  /-- The chain client answers otherwise from now on. -/
  | client (rpc : RpcState)
  /-- WebSocket connections can be made from now on, or not. -/
  | connection (wsUp : Bool)
  /-- An error or close event of the WebSocket. -/
  | drop
  | restart

namespace Call

/-- The call has made the tree of a contract active and has yet to add the listener. -/
def subscribes (contractAddress : Str) (c : Call) : Bool :=
  match c.request with
  | .track a => a = contractAddress ∧ c.proc.point.any AwaitPoint.isBeforeListener
  | _ => false

/-- The call has removed the listeners of a contract and has yet to make its tree inactive. -/
def deactivates (contractAddress : Str) (c : Call) : Bool :=
  match c.request with
  | .untrack a _ => a = contractAddress ∧ c.proc.point.any AwaitPoint.isAfterUnsubscribe
  | _ => false

end Call

namespace Server

variable (regExp : Str → Str → Bool)

/-- The service on a database, just started. -/
def boot (w : World) : Server where
  world := { w with ws_provider := none }
  main := CommitMgr.main
  calls := []

/-- `main` is through. -/
def listens (s : Server) : Bool :=
  match s.main with
  | .ret _ => true
  | _ => false

/-- No request is in progress, nor is `main`. -/
def Idle (s : Server) : Prop := s.main.point = none ∧ ∀ c ∈ s.calls, c.proc.point = none

instance (s : Server) : Decidable s.Idle := inferInstanceAs (Decidable (_ ∧ _))

/-- A request arrives, if the service listens. -/
def receive (s : Server) (c : Call) : Server :=
  if s.listens then { s with calls := s.calls ++ [c] } else s

def happen (s : Server) : LifeEvent → Server
  | .track a => s.receive ⟨.track a, baseline_track a >>= fun _ => .ret ()⟩
  | .untrack a prune =>
    s.receive ⟨.untrack a prune, baseline_untrack regExp a prune >>= fun _ => .ret ()⟩
  | .serve i =>
    match s.calls[i]? with
    | some c => { s with
        world := (c.proc.serve s.world).2
        calls := s.calls.set i { c with proc := (c.proc.serve s.world).1 } }
    | none => s
  | .start => { s with
      world := (s.main.serve s.world).2
      main := (s.main.serve s.world).1 }
  | .mine b => { s with
      world := s.world.mine b
      calls := s.calls ++
        (s.world.deliveries b).map fun x => ⟨.newLeaf x.1 x.2, onNewLeaf x.1 x.2⟩ }
  | .client rpc => { s with world := { s.world with rpc } }
  | .connection wsUp => { s with world := { s.world with wsUp } }
  | .drop => { s with world := { s.world with ws_provider := none } }
  | .restart => boot s.world

/-! ## When flags and listeners stay together -/

/-- A call that waits at a point may be served. -/
def HeedsServe (s : Server) : Request → AwaitPoint → Prop
  -- the tree is still as inactive as when it was read
  | .track a, .track_upsert => ¬ s.world.isActive a
  | .track a, .checkChainLogs_getLogs => s.world.Scannable a (some 0)
  | .track _, .subscribeMerkleEvents => s.world.Connects
  -- there still is no listener and none is to come, and no other active tree is deleted
  | .untrack a _, .untrack_deleteMany =>
    s.world.listeners a = 0 ∧ (∀ c ∈ s.calls, ¬ c.subscribes a) ∧
      ∀ d ∈ s.world.db.docs, ['_', '0'] <:+ d._id → d.active = some true →
        (regExp a d._id = true ↔ d._id = docId a 0)
  | .untrack a _, .untrack_updateOne =>
    s.world.listeners a = 0 ∧ ∀ c ∈ s.calls, ¬ c.subscribes a
  | _, _ => True

/-- `main` may be served at a point. -/
def HeedsStart (s : Server) : AwaitPoint → Prop
  | .restartSubscriptions_provider =>
    s.world.Connects ∨ ∀ d ∈ s.world.db.docs, ['_', '0'] <:+ d._id → d.active ≠ some true
  | .checkChainLogs_getLogs =>
    ∀ d ∈ s.world.db.docs, ['_', '0'] <:+ d._id → d.active = some true →
      s.world.listeners d._id.dropLast.dropLast = 0 →
        s.world.Scannable d._id.dropLast.dropLast d.latestLeaf.blockNumber
  | .subscribeMerkleEvents => s.world.Connects
  | _ => True

def Heeds (s : Server) : LifeEvent → Prop
  | .serve i => ∀ c ∈ s.calls[i]?, ∀ l ∈ c.proc.point, HeedsServe regExp s c.request l
  | .start => ∀ l ∈ s.main.point, HeedsStart s l
  -- no listener is lost
  | .drop => s.world.ws_provider.getD [] = []
  | _ => True

instance (s : Server) : ∀ (r : Request) (l : AwaitPoint), Decidable (HeedsServe regExp s r l) := by
  intro r l
  unfold HeedsServe
  split <;> infer_instance

instance (s : Server) : ∀ l : AwaitPoint, Decidable (HeedsStart s l) := by
  intro l
  unfold HeedsStart
  split <;> infer_instance

instance (s : Server) : ∀ e : LifeEvent, Decidable (Heeds regExp s e) := by
  intro e
  unfold Heeds
  split <;> infer_instance

def runs (s : Server) (events : List LifeEvent) : Server := events.foldl (happen regExp) s

end Server

end CommitMgr

end Baseline
