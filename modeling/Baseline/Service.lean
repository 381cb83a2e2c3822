import Baseline.RpcServer

/-!
# Calls under way together

The service does not serialise its calls: the listener starts a handler for every event, and
requests are answered while handlers run. So what runs is a pool of calls, and the accesses of all
of them are served in any order. The conditions on a schedule here each speak of one access and
of what the other calls wait for when it is served.
-/

namespace Baseline

open Await

namespace AwaitPoint

/-- A handler's write of `nodes`, which it has read before and changed. -/
def isLeafNodes : AwaitPoint → Bool
  | insertLeaf_nodes _ => true
  | _ => false

/-- A handler's write of `latestLeaf`. -/
def isLatestLeaf : AwaitPoint → Bool
  | insertLeaf_latestLeaf _ => true
  | _ => false

/-- A write of `nodes` that has been read before and changed. -/
def isNodes : AwaitPoint → Bool
  | insertLeaf_nodes _ => true
  | updateNodes_nodes => true
  | _ => false

/-- What an update waits for after it has read `latestLeaf` and before it reads it again. -/
def isBetweenReads : AwaitPoint → Bool
  | getLeavesByLeafIndexRange_tree => true
  | getLeavesByLeafIndexRange_segment => true
  | updateNodes_tree => true
  | _ => false

/-- A write of `latestLeaf` by which leaf `p` counts as stored. -/
def marks (p : ℕ) : AwaitPoint → Bool
  | insertLeaf_latestLeaf leafIndex => p ≤ leafIndex
  | _ => false

/-- What `baseline_track` waits for once it has the old logs: its leaves, and the listener. -/
def isAfterScan : AwaitPoint → Bool
  | insertLeaf_tree => true
  | insertLeaf_segment => true
  | insertLeaf_nodes _ => true
  | insertLeaf_latestLeaf _ => true
  | subscribeMerkleEvents => true
  | _ => false

end AwaitPoint

namespace CommitMgr

abbrev Calls : Type 1 := Pool AwaitPoint World JsError Unit

variable (contractAddress : Str)

/-- The handlers of some events, none of which has done anything yet. -/
def handlers (logs : List Log) (w : World) : Calls where
  state := w
  procs := logs.map (onNewLeaf contractAddress)

/-- No handler writes `nodes` while another waits to write the `nodes` it has read. -/
def NodesApart (P : Calls) (i : ℕ) : Prop :=
  (P.pointOf i).any AwaitPoint.isLeafNodes →
    ∀ j < P.procs.length, j ≠ i → ¬ (P.pointOf j).any AwaitPoint.isLeafNodes

/-- No handler writes `latestLeaf` once handler `last` is through. -/
def LatestBefore (last : ℕ) (P : Calls) (i : ℕ) : Prop :=
  (P.pointOf i).any AwaitPoint.isLatestLeaf → i ≠ last → P.pointOf last ≠ none

instance (P : Calls) (i : ℕ) : Decidable (NodesApart P i) :=
  inferInstanceAs (Decidable (_ → _))

instance (last : ℕ) (P : Calls) (i : ℕ) : Decidable (LatestBefore last P i) :=
  inferInstanceAs (Decidable (_ → _))

/-! ## A contract that is being tracked -/

inductive Event
  /-- A block is mined, and every listener gets its events. -/
  | mine (b : Block)
  /-- An access of a call is served. -/
  | serve (i : ℕ)

/-- The blocks that are mined in a run. -/
def minedBlocks (events : List Event) : List Block :=
  events.filterMap fun
    | .mine b => some b
    | .serve _ => none

def mined (P : Calls) (b : Block) : Calls :=
  (P.setState (P.state.mine b)).spawn ((P.state.deliveries b).map fun x => onNewLeaf x.1 x.2)

def happen (P : Calls) : Event → Calls
  | .mine b => mined P b
  | .serve i => P.step i

/-- `baseline_track` has just been called. -/
def tracking (w : World) : Calls where
  state := w
  procs := [baseline_track contractAddress >>= fun _ => .ret ()]

/-- No event of the contract is mined after `baseline_track` has got the old logs and before its
listener is there, and the handlers' writes of `nodes` stay apart. -/
def HandoffApart (P : Calls) : Event → Prop
  | .mine b => (P.pointOf 0).any AwaitPoint.isAfterScan → ∀ e ∈ b, e.address ≠ contractAddress
  | .serve i => NodesApart P i

instance (P : Calls) : ∀ e : Event, Decidable (HandoffApart contractAddress P e)
  | .mine _ => inferInstanceAs (Decidable (_ → _))
  | .serve i => inferInstanceAs (Decidable (NodesApart P i))

/-! ## A tree that is updated while leaves arrive -/

inductive TreeEvent
  /-- The event of the next leaf arrives. -/
  | arrive
  | updateTree
  /-- An access of a call is served. -/
  | serve (i : ℕ)

section Traffic

variable (sha256 : List UInt8 → Bytes 32)

/-- The calls under way, and the events still to come. -/
def advance (s : Calls × List Log) : TreeEvent → Calls × List Log
  | .arrive =>
    match s.2 with
    | [] => s
    | log :: logs => (s.1.spawn [onNewLeaf contractAddress log], logs)
  | .updateTree => (s.1.spawn [updateTree sha256 contractAddress >>= fun _ => .ret ()], s.2)
  | .serve i => (s.1.step i, s.2)

/-- A tree's calls before any is made. -/
def quiet (w : World) : Calls := ⟨w, []⟩

/-- No handler writes `nodes` while another call waits to write the `nodes` it has read, or
`latestLeaf` while an update is between its two reads of it, or while a leaf is missing that then
counts as stored. -/
def TreeApart (treeHeight : ℕ) (logs : List Log) (s : Calls × List Log) : TreeEvent → Prop
  | .serve i =>
    ((s.1.pointOf i).any AwaitPoint.isLeafNodes →
      ∀ j < s.1.procs.length, j ≠ i → ¬ (s.1.pointOf j).any AwaitPoint.isNodes) ∧
    ((s.1.pointOf i).any AwaitPoint.isLatestLeaf →
      ∀ j < s.1.procs.length, ¬ (s.1.pointOf j).any AwaitPoint.isBetweenReads) ∧
    ∀ p < logs.length, (s.1.pointOf i).any (AwaitPoint.marks p) →
      entryAt contractAddress s.1.state (leafIndexToNodeIndex treeHeight p)
        = logs[p]?.map fun log => log.leaf.toNode
  | _ => True

instance (treeHeight : ℕ) (logs : List Log) (s : Calls × List Log) :
    ∀ e : TreeEvent, Decidable (TreeApart contractAddress treeHeight logs s e)
  | .arrive => isTrue trivial
  | .updateTree => isTrue trivial
  | .serve _ => inferInstanceAs (Decidable (_ ∧ _ ∧ _))

end Traffic

end CommitMgr

end Baseline
