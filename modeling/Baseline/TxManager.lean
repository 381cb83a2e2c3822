import Baseline.Privacy
import Baseline.RpcServer

/-!
# Pushing a commitment

`baseline_verifyAndPush` of `rpc-server.ts` with the `EthClient` of `tx-manager/eth-client.ts`, from
the arguments `validateParams` has passed, and the node that the transactions go to. Any number of
requests run together. What `ethers` does, and arithmetic in floating point, is a parameter. Of what
a step of a run does, `Heeds` says when it drops no commitment.
-/

namespace Baseline

open Await CommitMgr

namespace TxManager

/-! ## The node -/

structure UnsignedTx where
  toAddress : Str
  fromAddress : Str
  data : Str
  nonce : ℕ
  chainId : ℕ
  gasLimit : ℕ
  gasPrice : ℕ
  deriving DecidableEq

structure SignedTx extends UnsignedTx where
  signature : Str
  deriving DecidableEq

/-- The transactions of the service's wallet that the node has. -/
structure Account where
  mined : List SignedTx
  pending : List SignedTx
  counted : mined.map (·.nonce) = List.range mined.length
  nodup : ((mined ++ pending).map (·.nonce)).Nodup

namespace Account

variable (a : Account)

def known : List SignedTx := a.mined ++ a.pending

/-- `getTransactionCount`, which counts what is mined. -/
def transactionCount : ℕ := a.mined.length

/-- A nonce is neither used nor pending. -/
def Free (nonce : ℕ) : Prop := ∀ tx ∈ a.known, tx.nonce ≠ nonce

instance (nonce : ℕ) : Decidable (a.Free nonce) := inferInstanceAs (Decidable (∀ _ ∈ _, _))

def accept (tx : SignedTx) (h : a.Free tx.nonce) : Account where
  mined := a.mined
  pending := a.pending ++ [tx]
  counted := a.counted
  nodup := by
    rw [← List.append_assoc, List.map_append, List.map_singleton]
    refine List.Nodup.append a.nodup (List.nodup_singleton _) ?_
    rw [List.disjoint_singleton, List.mem_map]
    rintro ⟨tx', htx', heq⟩
    exact h tx' htx' heq

/-- The pending transaction that is next is mined, if there is one. -/
def mineNext : Account :=
  match h : a.pending.find? (·.nonce = a.transactionCount) with
  | none => a
  | some tx =>
    { mined := a.mined ++ [tx]
      pending := a.pending.erase tx
      counted := by
        have hnonce := List.find?_some h
        rw [decide_eq_true_iff] at hnonce
        rw [List.map_append, List.map_singleton, a.counted, hnonce, List.length_append,
          List.length_singleton, List.range_succ]
        rfl
      nodup := by
        have hperm := (List.perm_cons_erase (List.mem_of_find?_eq_some h)).append_left a.mined
        rw [List.append_assoc, List.singleton_append]
        exact (hperm.map _).nodup_iff.1 a.nodup }

/-- A block with some of the pending transactions. -/
def mine : ℕ → Account → Account
  | 0, a => a
  | n + 1, a => mine n a.mineNext

end Account

/-- A value that is thrown, and the `message` of its `error` if it has one. -/
structure Thrown where
  text : Str
  error : Option (Option Str)

structure State where
  db : Collection
  account : Account
  gasPrice : ℕ
  gasEstimate : UnsignedTx → Except Thrown ℕ
  /-- What a query to the node fails with, if it does not get through. -/
  failure : Option Thrown
  /-- What the node refuses any transaction with, whatever its nonce. -/
  refusal : Option RpcError

def State.accept (w : State) (tx : SignedTx) (h : w.account.Free tx.nonce) : State :=
  { w with account := w.account.accept tx h }

structure Ethers where
  encodeFunctionData : List Json → List Json → Str → Except Thrown Str
  /-- The signature of a transaction. -/
  signTransaction : UnsignedTx → Except Thrown Str
  chainId : ℕ
  /-- `Math.ceil(Number(gasPrice) * 1.2)` and `Math.ceil(Number(gasEstimate) * 1.1)`. -/
  gasPriceSet : ℕ → ℕ
  gasLimitSet : ℕ → ℕ
  txHash : SignedTx → Str
  /-- What the node answers where a nonce is not free. -/
  nonceError : SignedTx → RpcError

/-! ## A request -/

/-- Where a request waits, with its transaction as far as it has come. -/
inductive Point
  | findOne
  | getTransactionCount
  | getGasPrice (nonce : ℕ)
  | estimateGas (tx : UnsignedTx)
  | sendRawTransaction (tx : SignedTx)

/-- The nonce that was read and is not used yet. -/
def Point.nonce : Point → Option ℕ
  | getGasPrice nonce => some nonce
  | estimateGas tx => some tx.nonce
  | sendRawTransaction tx => some tx.nonce
  | _ => none

/-- What a request hands to `done` as its error. -/
inductive PushError
  | rpc (e : RpcError)
  /-- `{ data: err.error.message }`. -/
  | message (data : Option Str)
  /-- `{ data: err }`. -/
  | thrown (err : Thrown)

structure InsertResult where
  error : Option PushError
  txHash : Option Str

/-- `result` is `null` or `{ txHash }`, and `txHash` may be undefined. -/
structure PushReply where
  error : Option PushError
  result : Option (Option Str)

structure Request where
  senderAddress : Str
  contractAddress : Str
  proof : List Json
  publicInputs : List Json
  newCommitment : Str

def query {α : Type} (l : Point) (op : State → Except Thrown α × State) :
    Proc Point State Thrown α :=
  .await l
    (fun w =>
      match w.failure with
      | some err => (.error err, w)
      | none => op w) fun
    | .ok a => .ret a
    | .error err => .throw err

def ofExcept {α : Type} : Except Thrown α → Proc Point State Thrown α
  | .ok a => .ret a
  | .error err => .throw err

section Request

variable (ethers : Ethers)

def signTx (toAddress fromAddress txData : Str) : Proc Point State Thrown SignedTx := do
  let nonce ← query .getTransactionCount fun w => (.ok w.account.transactionCount, w)
  let gasPrice ← query (.getGasPrice nonce) fun w => (.ok w.gasPrice, w)
  let unsignedTx : UnsignedTx := {
    toAddress, fromAddress, data := txData, nonce, chainId := ethers.chainId, gasLimit := 0,
    gasPrice := ethers.gasPriceSet gasPrice }
  let gasEstimate ← query (.estimateGas unsignedTx) fun w => (w.gasEstimate unsignedTx, w)
  let unsignedTx := { unsignedTx with gasLimit := ethers.gasLimitSet gasEstimate }
  let signature ← ofExcept (ethers.signTransaction unsignedTx)
  return { unsignedTx with signature }

/-- `jsonrpc("eth_sendRawTransaction", [signedTx])`. -/
def sendRawTransaction (signedTx : SignedTx) : Proc Point State Thrown (Response Str) :=
  query (.sendRawTransaction signedTx) fun w =>
    match w.refusal with
    | some e => (.ok (.error e), w)
    | none =>
      if h : w.account.Free signedTx.nonce then
        (.ok (.result (ethers.txHash signedTx)), w.accept signedTx h)
      else (.ok (.error (ethers.nonceError signedTx)), w)

/-- `res.result`. -/
def result {α : Type} : Response α → Option α
  | .result a => some a
  | .error _ => none

/-- The `catch` of `insertLeaf`. -/
def caught (err : Thrown) : InsertResult :=
  match err.error with
  | some message => { error := some (.message message), txHash := none }
  | none => { error := some (.thrown err), txHash := none }

def insertLeaf (toAddress fromAddress : Str) (proof publicInputs : List Json)
    (newCommitment : Str) : Proc Point State Thrown InsertResult :=
  Proc.tryCatch
    (do
      let txData ← ofExcept (ethers.encodeFunctionData proof publicInputs newCommitment)
      let signedTx ← signTx ethers toAddress fromAddress txData
      let res ← sendRawTransaction ethers signedTx
      return { error := none, txHash := result res })
    fun err => .ret (caught err)

/-- The `try` around the client, and the last `done`. -/
def respond (insertLeaf : Proc Point State Thrown InsertResult) :
    Proc Point State Empty PushReply :=
  Proc.tryCatch
    (do
      let result ← insertLeaf
      return ⟨result.error, some result.txHash⟩)
    fun _ =>
      .ret ⟨some (.rpc
        { code := -32603, message := "Internal server error".toList, data := none }), none⟩

/-- No request ends with an exception. -/
def baseline_verifyAndPush (r : Request) : Proc Point State Empty PushReply :=
  .await .findOne (fun w => (w.db.findOne (docId r.contractAddress 0), w)) fun
    | none =>
      .ret ⟨some (.rpc (internalError
        ("Merkle Tree not found in db: ".toList ++ r.contractAddress))), none⟩
    | some _ =>
      respond (insertLeaf ethers r.contractAddress r.senderAddress r.proof r.publicInputs
        r.newCommitment)

end Request

/-! ## Requests together -/

structure Call where
  request : Request
  proc : Proc Point State Empty PushReply

structure Server where
  world : State
  calls : List Call

inductive Event
  | request (r : Request)
  /-- An access of a call is served. -/
  | serve (i : ℕ)
  /-- A block with at most so many transactions of the wallet. -/
  | mine (n : ℕ)
  /-- Everything but the wallet's transactions is otherwise from now on. -/
  | outside (db : Collection) (gasPrice : ℕ) (gasEstimate : UnsignedTx → Except Thrown ℕ)
    (failure : Option Thrown) (refusal : Option RpcError)

namespace Server

variable (ethers : Ethers)

def happen (s : Server) : Event → Server
  | .request r => { s with calls := s.calls ++ [⟨r, baseline_verifyAndPush ethers r⟩] }
  | .serve i =>
    match s.calls[i]? with
    | some c => {
        world := (c.proc.serve s.world).2
        calls := s.calls.set i { c with proc := (c.proc.serve s.world).1 } }
    | none => s
  | .mine n => { s with world := { s.world with account := s.world.account.mine n } }
  | .outside db gasPrice gasEstimate failure refusal =>
    { s with world := { s.world with db, gasPrice, gasEstimate, failure, refusal } }

/-- No request has arrived yet. -/
def boot (w : State) : Server := ⟨w, []⟩

def runs (s : Server) (events : List Event) : Server := events.foldl (happen ethers) s

/-! ## What is dropped -/

/-- A transaction pushes what a request asks for. -/
def Pushes (r : Request) (tx : SignedTx) : Prop :=
  tx.toAddress = r.contractAddress ∧ tx.fromAddress = r.senderAddress ∧
    ethers.encodeFunctionData r.proof r.publicInputs r.newCommitment = .ok tx.data

/-- A transaction of its own for each request answered without an error: one that the node has, and
whose hash is the answer. -/
structure Owns (s : Server) (own : ℕ → Option SignedTx) : Prop where
  known : ∀ i, ∀ tx ∈ own i, tx ∈ s.world.account.known
  inj : ∀ i j, ∀ tx ∈ own i, tx ∈ own j → i = j
  pushes : ∀ i, ∀ c ∈ s.calls[i]?, ∀ reply, c.proc = .ret reply → reply.error = none →
    ∃ tx ∈ own i, Pushes ethers c.request tx ∧ reply.result = some (some (ethers.txHash tx))

/-- Every request is answered once five accesses are served, with an error or for a transaction that
the node accepted. -/
def NoneDropped (s : Server) : Prop :=
  (∀ c ∈ s.calls, c.proc.EndsIn 5) ∧ ∃ own, Owns ethers s own

/-- A transaction that reaches the node has a nonce that is still free, and is not refused for
something else. -/
def Heeds (s : Server) : Event → Prop
  | .serve i => ∀ c ∈ s.calls[i]?, ∀ l ∈ c.proc.point,
    match l with
    | .sendRawTransaction tx =>
      s.world.failure = none → s.world.refusal = none ∧ s.world.account.Free tx.nonce
    | _ => True
  | _ => True

/-- The nonce that a request holds. -/
def nonceOf (s : Server) (i : ℕ) : Option ℕ :=
  s.calls[i]?.bind fun c => c.proc.point.bind Point.nonce

/-- A nonce is read while no transaction with it is pending, and a transaction is sent while no
other request holds its nonce. -/
def Apart (s : Server) : Event → Prop
  | .serve i => ∀ c ∈ s.calls[i]?, ∀ l ∈ c.proc.point,
    match l with
    | .getTransactionCount => s.world.account.Free s.world.account.transactionCount
    | .sendRawTransaction tx =>
      (s.world.failure = none → s.world.refusal = none) ∧ ∀ j ≠ i, s.nonceOf j ≠ some tx.nonce
    | _ => True
  | _ => True

end Server

end TxManager

end Baseline
