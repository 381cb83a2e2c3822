import Baseline.Proofs.Await
import Baseline.TxManager

/-!
# No commitment is dropped

An access of a request leaves the node as it is, or sends a transaction that pushes what the request
asks for (`verifyAndPush_always`). If it is accepted, the request is answered with its hash; if not,
with neither a hash nor an error. So a run drops nothing exactly when every transaction that reaches
the node has a nonce that is still free (`noneDropped_iff`), and it has if a nonce is read only when
nothing is pending with it and no other request is about to use it too (`heeds_of_apart`).
-/

namespace Baseline

open Await CommitMgr

namespace TxManager

/-! ## The wallet's transactions -/

namespace Account

variable {a : Account} {tx : SignedTx}

@[simp] theorem mem_known_accept {tx' : SignedTx} (h : a.Free tx'.nonce) :
    tx ∈ (a.accept tx' h).known ↔ tx ∈ a.known ∨ tx = tx' := by
  simp [known, accept, or_assoc]

theorem mem_known_mineNext : tx ∈ a.mineNext.known ↔ tx ∈ a.known := by
  unfold mineNext
  split
  · rfl
  · next tx' h =>
    have hperm := (List.perm_cons_erase (List.mem_of_find?_eq_some h)).mem_iff (a := tx)
    simp only [known, List.mem_append, hperm, List.mem_cons, List.not_mem_nil, or_false, or_assoc]

@[simp] theorem mem_known_mine : ∀ (n : ℕ) {a : Account}, tx ∈ (a.mine n).known ↔ tx ∈ a.known
  | 0, _ => Iff.rfl
  | n + 1, _ => (mem_known_mine n).trans mem_known_mineNext

end Account

/-! ## One request -/

section Request

variable (ethers : Ethers) (r : Request)

/-- What an access at a point does to the state, and where it leaves the request. -/
inductive StepOf : Point → State → State → Proc Point State Empty PushReply → Prop
  /-- Nothing is sent, and the request is not at its end unless with an error. -/
  | kept {l : Point} {w : State} {p : Proc Point State Empty PushReply}
      (hsend : ∀ tx, l = .sendRawTransaction tx → w.failure ≠ none)
      (hend : ∀ reply, p = .ret reply → reply.error ≠ none)
      (hnonce : ∀ n ∈ p.point.bind Point.nonce,
        l.nonce = some n ∨ l = .getTransactionCount ∧ n = w.account.transactionCount) :
      StepOf l w w p
  | accepted {tx : SignedTx} {w : State} (hp : Server.Pushes ethers r tx) (hr : w.refusal = none)
      (h : w.account.Free tx.nonce) :
      StepOf (.sendRawTransaction tx) w (w.accept tx h)
        (.ret ⟨none, some (some (ethers.txHash tx))⟩)
  | refused {tx : SignedTx} {w : State} (hf : w.failure = none)
      (h : ¬ (w.refusal = none ∧ w.account.Free tx.nonce)) :
      StepOf (.sendRawTransaction tx) w w (.ret ⟨none, some none⟩)

/-- The rest of a request, from inside `insertLeaf`. -/
def answer (p : Proc Point State Thrown InsertResult) : Proc Point State Empty PushReply :=
  respond (p.tryCatch fun err => .ret (caught err))

variable {ethers r}

theorem caught_error (err : Thrown) : (caught err).error ≠ none := by
  unfold caught
  split <;> simp

theorem StepOf.thrown {l : Point} {w : State} (err : Thrown)
    (hsend : ∀ tx, l = .sendRawTransaction tx → w.failure ≠ none) :
    StepOf ethers r l w w (answer (.throw err)) := by
  refine .kept hsend ?_ (by rintro n ⟨⟩)
  rintro reply ⟨⟩
  exact caught_error err

/-- A query that only reads. -/
theorem always_query {α : Type} {l : Point} {op : State → Except Thrown α × State}
    {f : α → Proc Point State Thrown InsertResult} (hl : ∀ tx, l ≠ .sendRawTransaction tx)
    (hop : ∀ w, (op w).2 = w)
    (hf : ∀ w a, (op w).1 = .ok a →
      StepOf ethers r l w w (answer (f a)) ∧ (answer (f a)).Always (StepOf ethers r)) :
    (answer (query l op >>= f)).Always (StepOf ethers r) := by
  intro w
  have hthrow : ∀ err, StepOf ethers r l w w (answer (.throw err)) :=
    fun err => .thrown err fun tx h => absurd h (hl tx)
  cases hfail : w.failure with
  | some err =>
    simp only [hfail]
    exact ⟨hthrow err, trivial⟩
  | none =>
    simp only [hfail]
    cases hw : (op w).1 with
    | error err =>
      rw [hop w]
      exact ⟨hthrow err, trivial⟩
    | ok a =>
      rw [hop w]
      exact hf w a hw

theorem always_send {tx : SignedTx} (hp : Server.Pushes ethers r tx) :
    (answer (sendRawTransaction ethers tx >>= fun res => .ret ⟨none, result res⟩)).Always
      (StepOf ethers r) := by
  intro w
  cases hfail : w.failure with
  | some err =>
    simp only [hfail]
    exact ⟨StepOf.thrown err fun _ _ => by simp [hfail], trivial⟩
  | none =>
    simp only [hfail]
    cases href : w.refusal with
    | some e =>
      exact ⟨StepOf.refused hfail (by simp [href]), trivial⟩
    | none =>
      by_cases hfree : w.account.Free tx.nonce
      · simp only [hfree, dif_pos]
        exact ⟨StepOf.accepted hp href hfree, trivial⟩
      · simp only [hfree, dif_neg, not_false_eq_true]
        exact ⟨StepOf.refused hfail (by simp [hfree]), trivial⟩

theorem always_signed {txData : Str}
    (hdata : ethers.encodeFunctionData r.proof r.publicInputs r.newCommitment = .ok txData) :
    (answer (signTx ethers r.contractAddress r.senderAddress txData >>= fun signedTx =>
      sendRawTransaction ethers signedTx >>= fun res => .ret ⟨none, result res⟩)).Always
        (StepOf ethers r) := by
  simp only [signTx, Proc.bind_assoc]
  refine always_query (by simp) (fun w => rfl) fun w nonce hcount => ⟨?_, ?_⟩
  · obtain rfl : w.account.transactionCount = nonce := Except.ok.inj hcount
    refine .kept (by simp) (by rintro reply ⟨⟩) ?_
    rintro n ⟨⟩
    exact .inr ⟨rfl, rfl⟩
  refine always_query (by simp) (fun w => rfl) fun w gasPrice _ => ⟨?_, ?_⟩
  · refine .kept (by simp) (by rintro reply ⟨⟩) ?_
    rintro n ⟨⟩
    exact .inl rfl
  refine always_query (by simp) (fun w => rfl) fun w gasEstimate _ => ?_
  cases ethers.signTransaction _ with
  | error err => exact ⟨StepOf.thrown err (by simp), trivial⟩
  | ok signature =>
    refine ⟨.kept (by simp) (by rintro reply ⟨⟩) ?_, ?_⟩
    · rintro n ⟨⟩
      exact .inl rfl
    · exact always_send ⟨rfl, rfl, hdata⟩

/-- Whatever happens in between. -/
theorem verifyAndPush_always : (baseline_verifyAndPush ethers r).Always (StepOf ethers r) := by
  intro w
  dsimp only
  cases w.db.findOne (docId r.contractAddress 0) with
  | none =>
    refine ⟨.kept (by simp) ?_ (by rintro n ⟨⟩), trivial⟩
    rintro reply ⟨⟩ ⟨⟩
  | some record =>
    unfold insertLeaf
    cases hdata : ethers.encodeFunctionData r.proof r.publicInputs r.newCommitment with
    | error err => exact ⟨StepOf.thrown err (by simp), trivial⟩
    | ok txData =>
      refine ⟨.kept (by simp) (by rintro reply ⟨⟩) (by rintro n ⟨⟩), always_signed hdata⟩

theorem endsIn_query {α : Type} {l : Point} {op : State → Except Thrown α × State} {n : ℕ}
    {f : α → Proc Point State Thrown InsertResult} (hf : ∀ a, (answer (f a)).EndsIn n) :
    (answer (query l op >>= f)).EndsIn (n + 1) := by
  rintro (err | a)
  · exact Proc.endsIn_ret _ n
  · exact hf a

theorem verifyAndPush_endsIn : (baseline_verifyAndPush ethers r).EndsIn 5 := by
  rintro (- | record)
  · trivial
  dsimp only
  unfold insertLeaf
  cases ethers.encodeFunctionData r.proof r.publicInputs r.newCommitment with
  | error err => trivial
  | ok txData =>
    show (answer (signTx ethers _ _ txData >>= fun _ => _)).EndsIn 4
    simp only [signTx, Proc.bind_assoc]
    refine endsIn_query fun nonce => endsIn_query fun gasPrice => endsIn_query fun gasEstimate => ?_
    cases ethers.signTransaction _ with
    | error err => trivial
    | ok signature => exact endsIn_query fun res => trivial

end Request

/-! ## Requests together -/

namespace Server

variable {ethers : Ethers} {s : Server}

/-- Every call is at some point of its request. -/
def Sound (ethers : Ethers) (s : Server) : Prop :=
  ∀ c ∈ s.calls, c.proc.EndsIn 5 ∧ c.proc.Always (StepOf ethers c.request)

theorem boot_sound (w : State) : Sound ethers (boot w) := by simp [Sound, boot]

/-- The calls once call `i` is at a point further on. -/
theorem getElem?_moved {i j : ℕ} {c c' : Call} (hi : s.calls[i]? = some c) :
    (s.calls.set i c')[j]? = if i = j then some c' else s.calls[j]? := by
  obtain ⟨hlt, -⟩ := List.getElem?_eq_some_iff.1 hi
  rw [List.getElem?_set]
  simp only [hlt, if_true]

theorem getElem?_arrived {i : ℕ} {c c' : Call} (hi : (s.calls ++ [c'])[i]? = some c) :
    s.calls[i]? = some c ∨ c = c' := by
  rcases lt_or_ge i s.calls.length with hlt | hge
  · exact .inl (by rwa [List.getElem?_append_left hlt] at hi)
  · rw [List.getElem?_append_right hge] at hi
    exact .inr (List.mem_singleton.1 (List.mem_of_getElem? hi))

/-- What serving a call can do. -/
theorem serve_cases (hs : Sound ethers s) (i : ℕ) :
    (happen ethers s (.serve i) = s ∧ ∀ c ∈ s.calls[i]?, c.proc.point = none) ∨
      ∃ c l w p, s.calls[i]? = some c ∧ c.proc.point = some l ∧
        StepOf ethers c.request l s.world w p ∧ p.EndsIn 5 ∧ p.Always (StepOf ethers c.request) ∧
        happen ethers s (.serve i) = ⟨w, s.calls.set i ⟨c.request, p⟩⟩ := by
  rcases hi : s.calls[i]? with - | c
  · exact .inl ⟨by simp only [happen, hi], by rintro c ⟨⟩⟩
  have hmem := List.mem_of_getElem? hi
  obtain ⟨hlt, hget⟩ := List.getElem?_eq_some_iff.1 hi
  rcases hp : c.proc.point with - | l
  · refine .inl ⟨?_, by rintro c' ⟨⟩; exact hp⟩
    simp only [happen, hi, Proc.serve_of_ended hp]
    rw [← hget, List.set_getElem_self]
  · obtain ⟨hends, halways⟩ := hs c hmem
    obtain ⟨hstep, hrest⟩ := halways.serve hp s.world
    refine .inr ⟨c, l, _, _, rfl, hp, hstep, hends.serve _, hrest, ?_⟩
    simp only [happen, hi]

theorem Sound.happen (hs : Sound ethers s) (e : Event) : Sound ethers (happen ethers s e) := by
  cases e with
  | request r =>
    intro c hc
    rcases List.mem_append.1 hc with hc | hc
    · exact hs c hc
    · obtain rfl := List.mem_singleton.1 hc
      exact ⟨verifyAndPush_endsIn, verifyAndPush_always⟩
  | serve i =>
    rcases serve_cases hs i with ⟨h, -⟩ | ⟨c, l, w, p, -, -, -, hends, halways, h⟩
    · rwa [h]
    · rw [h]
      intro c' hc'
      rcases List.mem_or_eq_of_mem_set hc' with hc' | rfl
      · exact hs c' hc'
      · exact ⟨hends, halways⟩
  | mine n => exact hs
  | outside => exact hs

/-! ## What is dropped -/

variable {own : ℕ → Option SignedTx}

theorem Owns.congr {s' : Server} (h : Owns ethers s own) (hcalls : s'.calls = s.calls)
    (hknown : ∀ tx ∈ s.world.account.known, tx ∈ s'.world.account.known) : Owns ethers s' own where
  known i tx htx := hknown tx (h.known i tx htx)
  inj := h.inj
  pushes := by
    rw [hcalls]
    exact h.pushes

theorem Owns.request (h : Owns ethers s own) (r : Request) :
    Owns ethers (happen ethers s (.request r)) own where
  known := h.known
  inj := h.inj
  pushes i c hc reply hret := by
    rcases getElem?_arrived hc with hc | rfl
    · exact h.pushes i c hc reply hret
    · cases hret

theorem Owns.kept {i : ℕ} {c : Call} {p : Proc Point State Empty PushReply} (h : Owns ethers s own)
    (hi : s.calls[i]? = some c) (hend : ∀ reply, p = .ret reply → reply.error ≠ none) :
    Owns ethers ⟨s.world, s.calls.set i ⟨c.request, p⟩⟩ own where
  known := h.known
  inj := h.inj
  pushes j c' hc' reply hret herr := by
    rw [getElem?_moved hi] at hc'
    split_ifs at hc' with hij
    · obtain rfl := Option.some.inj hc'
      exact absurd herr (hend reply hret)
    · exact h.pushes j c' hc' reply hret herr

theorem Owns.accepted {i : ℕ} {c : Call} {tx : SignedTx} (h : Owns ethers s own)
    (hi : s.calls[i]? = some c) (hp : Pushes ethers c.request tx)
    (hfree : s.world.account.Free tx.nonce) :
    Owns ethers ⟨s.world.accept tx hfree,
        s.calls.set i ⟨c.request, .ret ⟨none, some (some (ethers.txHash tx))⟩⟩⟩
      (Function.update own i (some tx)) := by
  have hnew : ∀ j, tx ∉ own j := fun j hj => hfree tx (h.known j tx hj) rfl
  constructor
  · intro j tx' htx'
    rcases eq_or_ne j i with rfl | hne
    · rw [Function.update_self] at htx'
      exact (Account.mem_known_accept hfree).2 (.inr (Option.some.inj htx').symm)
    · rw [Function.update_of_ne hne] at htx'
      exact (Account.mem_known_accept hfree).2 (.inl (h.known j tx' htx'))
  · intro j k tx' hj hk
    by_cases hji : j = i <;> by_cases hki : k = i
    · rw [hji, hki]
    · rw [hji, Function.update_self] at hj
      rw [Function.update_of_ne hki, ← Option.some.inj hj] at hk
      exact absurd hk (hnew k)
    · rw [hki, Function.update_self] at hk
      rw [Function.update_of_ne hji, ← Option.some.inj hk] at hj
      exact absurd hj (hnew j)
    · rw [Function.update_of_ne hji] at hj
      rw [Function.update_of_ne hki] at hk
      exact h.inj j k tx' hj hk
  · intro j c' hc' reply hret herr
    rw [getElem?_moved hi] at hc'
    split_ifs at hc' with hij
    · obtain rfl := Option.some.inj hc'
      obtain rfl := Proc.ret.inj hret
      exact ⟨tx, by rw [hij, Function.update_self]; rfl, hp, rfl⟩
    · rw [Function.update_of_ne (Ne.symm hij)]
      exact h.pushes j c' hc' reply hret herr

theorem NoneDropped.happen (hs : Sound ethers s) (h : NoneDropped ethers s) {e : Event}
    (he : Heeds s e) : NoneDropped ethers (happen ethers s e) := by
  obtain ⟨-, own, hown⟩ := h
  refine ⟨fun c hc => (hs.happen e c hc).1, ?_⟩
  cases e with
  | request r => exact ⟨own, hown.request r⟩
  | mine n => exact ⟨own, hown.congr rfl fun tx htx => (Account.mem_known_mine n).2 htx⟩
  | outside => exact ⟨own, hown.congr rfl fun tx htx => htx⟩
  | serve i =>
    rcases serve_cases hs i with ⟨hsame, -⟩ | ⟨c, l, w, p, hi, hl, hstep, -, -, hnext⟩
    · exact ⟨own, by rwa [hsame]⟩
    have hheeds := he c hi l hl
    rw [hnext]
    cases hstep with
    | kept _ hend _ => exact ⟨own, hown.kept hi hend⟩
    | accepted hp _ hfree => exact ⟨_, hown.accepted hi hp hfree⟩
    | refused hf hno => exact absurd (hheeds hf) hno

/-- A transaction that is not accepted is dropped. -/
theorem heeds_of_noneDropped (hs : Sound ethers s) {e : Event}
    (h : NoneDropped ethers (Server.happen ethers s e)) : Heeds s e := by
  cases e with
  | serve i =>
    intro c hi l hl
    obtain ⟨-, own, hown⟩ := h
    rcases serve_cases hs i with ⟨-, hend⟩ | ⟨c', l', w, p, hi', hl', hstep, -, -, hnext⟩
    · cases hl.symm.trans (hend c hi)
    cases hi.symm.trans hi'
    cases hl.symm.trans hl'
    rw [hnext] at hown
    cases hstep with
    | kept hsend _ _ =>
      cases l with
      | sendRawTransaction tx => exact fun hf => absurd hf (hsend tx rfl)
      | _ => trivial
    | accepted _ hr hfree => exact fun _ => ⟨hr, hfree⟩
    | refused _ _ =>
      have hmoved : (s.calls.set i ⟨c.request, .ret ⟨none, some none⟩⟩)[i]?
          = some ⟨c.request, .ret ⟨none, some none⟩⟩ := by
        rw [getElem?_moved hi, if_pos rfl]
      obtain ⟨_, _, _, hhash⟩ := hown.pushes i _ hmoved _ rfl rfl
      cases hhash
  | _ => trivial

theorem noneDropped_iff_of_sound : ∀ (events : List Event) {s : Server}, Sound ethers s →
    NoneDropped ethers s →
      ((∀ n, NoneDropped ethers (runs ethers s (events.take n))) ↔
        Along (happen ethers) Heeds s events)
  | [], s, hs, h => ⟨fun _ => trivial, fun _ n => by simpa [runs] using h⟩
  | e :: events, s, hs, h => by
    constructor
    · intro hall
      have hnext : NoneDropped ethers (Server.happen ethers s e) := hall 1
      exact ⟨heeds_of_noneDropped hs hnext,
        (noneDropped_iff_of_sound events (hs.happen e) hnext).1 fun n => hall (n + 1)⟩
    · rintro ⟨he, hrest⟩ n
      cases n with
      | zero => exact h
      | succ n =>
        exact (noneDropped_iff_of_sound events (hs.happen e) (h.happen hs he)).2 hrest n

theorem boot_noneDropped (w : State) : NoneDropped ethers (boot w) := by
  have hs : Sound ethers (boot w) := boot_sound w
  refine ⟨fun c hc => (hs c hc).1, fun _ => none, ?_, ?_, ?_⟩
  · rintro i tx ⟨⟩
  · rintro i j tx ⟨⟩
  · rintro i c ⟨⟩

theorem noneDropped_iff (ethers : Ethers) (w : State) (events : List Event) :
    (∀ n, NoneDropped ethers (runs ethers (boot w) (events.take n))) ↔
      Along (happen ethers) Heeds (boot w) events :=
  noneDropped_iff_of_sound events (boot_sound w) (boot_noneDropped w)

/-- A wallet that has sent nothing, and one tracked contract. -/
def freshWallet : State where
  db := (trackedWorld (contractOf '1') 4).db
  account := ⟨[], [], rfl, List.nodup_nil⟩
  gasPrice := 20
  gasEstimate _ := .ok 500000
  failure := none
  refusal := none

/-- Everything succeeds, and a commitment is its own call data. -/
def plainEthers : Ethers where
  encodeFunctionData _ _ newCommitment := .ok newCommitment
  signTransaction tx := .ok tx.data
  chainId := 1337
  gasPriceSet gasPrice := (gasPrice * 12 + 9) / 10
  gasLimitSet gasEstimate := (gasEstimate * 11 + 9) / 10
  txHash tx := Nat.toDigits 10 tx.nonce ++ tx.data
  nonceError _ := ⟨-32000, "nonce too low".toList, none⟩

def requestOf (newCommitment : Str) : Request :=
  ⟨contractOf 'a', contractOf '1', [], [], newCommitment⟩

/-- Two requests one after the other, and no block in between. -/
def twoRequests : List Event :=
  .request (requestOf ['u']) :: List.replicate 5 (.serve 0) ++
    .request (requestOf ['v']) :: List.replicate 5 (.serve 1)

/-- The second is answered without a hash and without an error, and one transaction is known. -/
theorem second_dropped :
    (runs plainEthers (boot freshWallet) twoRequests).calls[1]?
        = some ⟨requestOf ['v'], .ret ⟨none, some none⟩⟩ ∧
      (runs plainEthers (boot freshWallet) twoRequests).world.account.known.map (·.data) = [['u']] ∧
      ¬ NoneDropped plainEthers (runs plainEthers (boot freshWallet) twoRequests) := by
  have hcall : (runs plainEthers (boot freshWallet) twoRequests).calls[1]?
      = some ⟨requestOf ['v'], .ret ⟨none, some none⟩⟩ := rfl
  have hknown : (runs plainEthers (boot freshWallet) twoRequests).world.account.known.map (·.data)
      = [['u']] := rfl
  refine ⟨hcall, hknown, ?_⟩
  rintro ⟨-, own, hown⟩
  obtain ⟨tx, htx, ⟨-, -, hdata⟩, -⟩ := hown.pushes 1 _ hcall _ rfl rfl
  have hmem := List.mem_map_of_mem (f := (·.data)) (hown.known 1 tx htx)
  rw [hknown, ← Except.ok.inj hdata, List.mem_singleton] at hmem
  cases hmem

/-! ## Requests that keep apart -/

/-- The nonces that requests hold are free. -/
def HeldFree (s : Server) : Prop := ∀ i, ∀ n ∈ s.nonceOf i, s.world.account.Free n

theorem nonceOf_moved {i j : ℕ} {c c' : Call} {w : State} (hi : s.calls[i]? = some c) :
    (⟨w, s.calls.set i c'⟩ : Server).nonceOf j
      = if i = j then c'.proc.point.bind Point.nonce else s.nonceOf j := by
  simp only [nonceOf, getElem?_moved hi]
  split_ifs <;> rfl

theorem nonceOf_point {i : ℕ} {c : Call} {l : Point} (hi : s.calls[i]? = some c)
    (hl : c.proc.point = some l) : s.nonceOf i = l.nonce := by
  simp only [nonceOf, hi, hl, Option.bind_some]

theorem heeds_of_heldFree (hf : HeldFree s) {e : Event} (ha : Apart s e) : Heeds s e := by
  cases e with
  | serve i =>
    intro c hi l hl
    have happ := ha c hi l hl
    cases l with
    | sendRawTransaction tx =>
      exact fun hfail => ⟨happ.1 hfail, hf i tx.nonce (nonceOf_point hi hl)⟩
    | _ => trivial
  | _ => trivial

theorem HeldFree.happen (hs : Sound ethers s) (hf : HeldFree s) {e : Event} (ha : Apart s e) :
    HeldFree (Server.happen ethers s e) := by
  cases e with
  | request r =>
    intro i n hn
    obtain ⟨c, hc, hheld⟩ := Option.bind_eq_some_iff.1 hn
    rcases getElem?_arrived hc with hc | rfl
    · exact hf i n (Option.bind_eq_some_iff.2 ⟨c, hc, hheld⟩)
    · cases hheld
  | mine m => exact fun i n hn tx htx => hf i n hn tx ((Account.mem_known_mine m).1 htx)
  | outside => exact hf
  | serve i =>
    rcases serve_cases hs i with ⟨hsame, -⟩ | ⟨c, l, w, p, hi, hl, hstep, -, -, hnext⟩
    · rwa [hsame]
    have happ := ha c hi l hl
    rw [hnext]
    intro j n hn
    rw [nonceOf_moved hi] at hn
    cases hstep with
    | kept _ _ hnonce =>
      split_ifs at hn with hij
      · rcases hnonce n hn with hsame | ⟨rfl, rfl⟩
        · exact hf i n ((nonceOf_point hi hl).trans hsame)
        · exact happ
      · exact hf j n hn
    | accepted _ _ hfree =>
      split_ifs at hn with hij
      · cases hn
      · intro tx' htx'
        rcases (Account.mem_known_accept hfree).1 htx' with hold | rfl
        · exact hf j n hn tx' hold
        · rintro rfl
          exact happ.2 j (Ne.symm hij) hn
    | refused _ _ =>
      split_ifs at hn with hij
      · cases hn
      · exact hf j n hn

theorem heeds_of_apart (ethers : Ethers) (w : State) {events : List Event}
    (h : Along (happen ethers) Apart (boot w) events) :
    Along (happen ethers) Heeds (boot w) events := by
  refine Along.of_inv (I := fun s => Sound ethers s ∧ HeldFree s) ?_ ?_ h ⟨boot_sound w, ?_⟩
  · exact fun s e hs ha => heeds_of_heldFree hs.2 ha
  · exact fun s e hs ha => ⟨hs.1.happen e, hs.2.happen hs.1 ha⟩
  · rintro i n ⟨⟩

end Server

end TxManager

end Baseline
