import Baseline.ERC1820Registry
import Baseline.Registers

/-!
# Who says what an address implements

A transaction that is not reverted sets one implementer, one manager or one answer in the cache
(`StepOf`), the first two only for an address that its sender manages. So each of the three is a
register of its own over a run (`implementers`, `managers`, `cached`). The registry takes a
contract to implement an interface of ERC165 just when its three answers are as the standard has
them, where an answer of less than 32 bytes is filled up by the question
(`implementsERC165InterfaceNoCache_iff`).
-/

namespace Baseline

namespace ERC1820Registry

variable {keccak256 : List UInt8 → Bytes 32} {s : ERC1820Registry}

/-! ## One transaction -/

variable (keccak256) in
/-- What a transaction can do, with the events of it. -/
inductive StepOf (s : ERC1820Registry) : Transaction → ERC1820Registry → List Event → Prop
  | implementer (accounts : Accounts) (msgSender asked addr : Address) (interfaceHash : Bytes 32)
      (implementer : Address) (haddr : addr = if asked = 0 then msgSender else asked)
      (hmanager : s.getManager addr = msgSender)
      (hplain : isERC165Interface interfaceHash = false)
      (haccepts : accepts keccak256 accounts msgSender addr interfaceHash implementer = true) :
      StepOf s ⟨accounts, msgSender, .setInterfaceImplementer asked interfaceHash implementer⟩
        { s with
          interfaces := Function.update s.interfaces addr
            (Function.update (s.interfaces addr) interfaceHash implementer) }
        [.InterfaceImplementerSet addr interfaceHash implementer]
  | manager (accounts : Accounts) (addr newManager : Address) :
      StepOf s ⟨accounts, s.getManager addr, .setManager addr newManager⟩
        { s with
          managers :=
            Function.update s.managers addr (if newManager = addr then 0 else newManager) }
        [.ManagerChanged addr newManager]
  | cache (accounts : Accounts) (msgSender contract : Address) (interfaceId : Bytes 4) :
      StepOf s ⟨accounts, msgSender, .updateERC165Cache contract interfaceId⟩
        (s.updateERC165Cache accounts contract interfaceId) []
  | reverted {tx : Transaction} (hcall : ∀ contract interfaceId,
      tx.call ≠ .updateERC165Cache contract interfaceId) : StepOf s tx s []

variable (keccak256) in
theorem stepOf (s : ERC1820Registry) : ∀ tx : Transaction,
    StepOf keccak256 s tx (s.step keccak256 tx) (s.logs keccak256 tx)
  | ⟨accounts, msgSender, .setInterfaceImplementer asked interfaceHash implementer⟩ => by
    generalize haddr : (if asked = 0 then msgSender else asked) = addr
    by_cases h : s.getManager addr = msgSender ∧ isERC165Interface interfaceHash = false ∧
        accepts keccak256 accounts msgSender addr interfaceHash implementer = true
    · have ⟨hmanager, hplain, haccepts⟩ := h
      simp only [step, logs, exec, setInterfaceImplementer, haddr, hmanager, hplain, haccepts]
      exact .implementer accounts msgSender asked addr interfaceHash implementer haddr.symm
        hmanager hplain haccepts
    · have hnone : s.exec keccak256 ⟨accounts, msgSender,
          .setInterfaceImplementer asked interfaceHash implementer⟩ = none := by
        simp only [exec, setInterfaceImplementer, haddr, guard]
        split_ifs <;> simp_all
      simp only [step, logs, hnone, Option.map_none, Option.getD_none]
      exact .reverted (by simp)
  | ⟨accounts, msgSender, .setManager addr newManager⟩ => by
    by_cases h : s.getManager addr = msgSender
    · subst h
      simp only [step, logs, exec, setManager, if_pos]
      exact .manager accounts addr newManager
    · have hnone : s.exec keccak256 ⟨accounts, msgSender, .setManager addr newManager⟩ = none :=
        if_neg h
      simp only [step, logs, hnone, Option.map_none, Option.getD_none]
      exact .reverted (by simp)
  | ⟨accounts, msgSender, .updateERC165Cache contract interfaceId⟩ =>
    .cache accounts msgSender contract interfaceId

/-! ## Three registers -/

/-- The implementer of an interface that an event tells of. -/
def Event.implementerOf (addr : Address) (interfaceHash : Bytes 32) : Event → Option Address
  | InterfaceImplementerSet addr' interfaceHash' implementer =>
    if addr' = addr ∧ interfaceHash' = interfaceHash then some implementer else none
  | _ => none

/-- The manager of an address that an event tells of; the zero address is for the address itself. -/
def Event.managerOf (addr : Address) : Event → Option Address
  | ManagerChanged addr' newManager =>
    if addr' = addr then some (if newManager = 0 then addr else newManager) else none
  | _ => none

theorem isERC165Interface_toBytes32 (interfaceId : Bytes 4) :
    isERC165Interface (toBytes32 interfaceId) = true := by
  simp [isERC165Interface, toBytes32, Bytes.append, Bytes.zeros, interfaceId.2]

theorem toBytes32_inj {a b : Bytes 4} : toBytes32 a = toBytes32 b ↔ a = b := by
  constructor
  · intro h
    exact Subtype.ext (List.append_inj_left (congrArg Subtype.val h) (a.2.trans b.2.symm))
  · rintro rfl
    rfl

theorem getManager_update (addr newManager other : Address) :
    getManager { s with
      managers := Function.update s.managers addr (if newManager = addr then 0 else newManager) }
      other
      = if addr = other then (if newManager = 0 then other else newManager)
        else s.getManager other := by
  by_cases haddr : addr = other
  · subst haddr
    by_cases hself : newManager = addr
    · simp [getManager, hself]
    · simp [getManager, hself]
  · simp [getManager, haddr, Ne.symm haddr]

variable (keccak256) in
/-- The implementer of an interface that is not one of ERC165. -/
def implementers (addr : Address) (interfaceHash : Bytes 32)
    (hplain : isERC165Interface interfaceHash = false) :
    Register ERC1820Registry Transaction Address where
  step := step keccak256
  get s := s.interfaces addr interfaceHash
  set s tx := (s.logs keccak256 tx).findSome? (Event.implementerOf addr interfaceHash)
  get_step s tx := by
    have hstep := stepOf keccak256 s tx
    generalize s.step keccak256 tx = s' at hstep
    generalize s.logs keccak256 tx = events at hstep
    cases hstep with
    | implementer _ _ _ addr' interfaceHash' =>
      by_cases haddr : addr' = addr
      · subst haddr
        by_cases hhash : interfaceHash' = interfaceHash
        · simp [Event.implementerOf, hhash]
        · simp [Event.implementerOf, hhash, Ne.symm hhash]
      · simp [Event.implementerOf, haddr, Ne.symm haddr]
    | manager => simp [Event.implementerOf]
    | cache _ _ contract interfaceId =>
      have hne : interfaceHash ≠ toBytes32 interfaceId := by
        rintro rfl
        simp [isERC165Interface_toBytes32] at hplain
      by_cases haddr : addr = contract
      · simp [updateERC165Cache, haddr, hne]
      · simp [updateERC165Cache, haddr]
    | reverted => simp

variable (keccak256) in
/-- The manager of an address. -/
def managerRegister (addr : Address) : Register ERC1820Registry Transaction Address where
  step := step keccak256
  get s := s.getManager addr
  set s tx := (s.logs keccak256 tx).findSome? (Event.managerOf addr)
  get_step s tx := by
    have hstep := stepOf keccak256 s tx
    generalize s.step keccak256 tx = s' at hstep
    generalize s.logs keccak256 tx = events at hstep
    cases hstep with
    | manager _ addr' newManager =>
      rw [getManager_update]
      by_cases haddr : addr' = addr <;> simp [Event.managerOf, haddr]
    | implementer => simp [Event.managerOf, getManager]
    | cache => simp [updateERC165Cache, getManager]
    | reverted => simp

/-- What a transaction puts in the cache. A contract that is not an implementer is cached as the
zero address, which is how the zero address becomes one. -/
def Transaction.caching (contract : Address) (interfaceId : Bytes 4) (tx : Transaction) :
    Option Bool :=
  match tx.call with
  | .updateERC165Cache contract' interfaceId' =>
    if contract' = contract ∧ interfaceId' = interfaceId then
      some (contract == 0 || implementsERC165InterfaceNoCache tx.accounts contract interfaceId)
    else none
  | _ => none

theorem caching_eq_none {tx : Transaction} (contract : Address) (interfaceId : Bytes 4)
    (hcall : tx.call ≠ .updateERC165Cache contract interfaceId) :
    tx.caching contract interfaceId = none := by
  rcases tx with ⟨accounts, msgSender, call⟩
  cases call with
  | updateERC165Cache contract' interfaceId' =>
    refine if_neg ?_
    rintro ⟨rfl, rfl⟩
    exact hcall rfl
  | _ => rfl

variable (keccak256) in
/-- What the cache has on an interface of ERC165, if anything. -/
def cached (contract : Address) (interfaceId : Bytes 4) :
    Register ERC1820Registry Transaction (Option Bool) where
  step := step keccak256
  get s := if s.erc165Cached contract interfaceId then
    some (s.interfaces contract (toBytes32 interfaceId) == contract) else none
  set _ tx := (tx.caching contract interfaceId).map some
  get_step s tx := by
    have hstep := stepOf keccak256 s tx
    generalize s.step keccak256 tx = s' at hstep
    generalize s.logs keccak256 tx = events at hstep
    cases hstep with
    | implementer _ _ _ addr' interfaceHash' _ _ _ hplain =>
      have hne : toBytes32 interfaceId ≠ interfaceHash' := by
        rintro rfl
        simp [isERC165Interface_toBytes32] at hplain
      by_cases haddr : contract = addr'
      · simp [Transaction.caching, haddr, hne]
      · simp [Transaction.caching, haddr]
    | manager => simp [Transaction.caching]
    | cache accounts _ contract' interfaceId' =>
      by_cases hcontract : contract' = contract
      · subst hcontract
        by_cases hid : interfaceId' = interfaceId
        · subst hid
          by_cases himpl : implementsERC165InterfaceNoCache accounts contract' interfaceId' = true
          · simp [updateERC165Cache, Transaction.caching, himpl]
          · simp [updateERC165Cache, Transaction.caching, himpl, BEq.comm]
        · simp [updateERC165Cache, Transaction.caching, hid, Ne.symm hid, toBytes32_inj]
      · simp [updateERC165Cache, Transaction.caching, hcontract, Ne.symm hcontract]
    | reverted hcall => simp [caching_eq_none contract interfaceId (hcall contract interfaceId)]

/-! ## Runs -/

theorem of_implementerOf_logs {addr implementer : Address} {interfaceHash : Bytes 32} :
    ∀ {tx : Transaction},
    (s.logs keccak256 tx).findSome? (Event.implementerOf addr interfaceHash) = some implementer →
    (∃ asked, tx.call = .setInterfaceImplementer asked interfaceHash implementer ∧
      addr = if asked = 0 then tx.msgSender else asked) ∧
    tx.msgSender = s.getManager addr ∧
    accepts keccak256 tx.accounts tx.msgSender addr interfaceHash implementer = true
  | tx, h => by
    have hstep := stepOf keccak256 s tx
    generalize s.step keccak256 tx = s' at hstep
    generalize s.logs keccak256 tx = events at hstep h
    cases hstep with
    | implementer _ _ asked addr' _ _ haddr hmanager _ haccepts =>
      simp only [List.findSome?_cons, List.findSome?_nil, Event.implementerOf] at h
      split_ifs at h with heq
      obtain ⟨rfl, rfl⟩ := heq
      obtain rfl := Option.some.inj h
      exact ⟨⟨asked, rfl, haddr⟩, hmanager.symm, haccepts⟩
    | _ => simp [Event.implementerOf] at h

theorem of_managerOf_logs {addr manager : Address} : ∀ {tx : Transaction},
    (s.logs keccak256 tx).findSome? (Event.managerOf addr) = some manager →
    (∃ newManager, tx.call = .setManager addr newManager ∧
      manager = if newManager = 0 then addr else newManager) ∧
    tx.msgSender = s.getManager addr
  | tx, h => by
    have hstep := stepOf keccak256 s tx
    generalize s.step keccak256 tx = s' at hstep
    generalize s.logs keccak256 tx = events at hstep h
    cases hstep with
    | manager _ addr' newManager =>
      simp only [List.findSome?_cons, List.findSome?_nil, Event.managerOf] at h
      split_ifs at h with heq hzero
      · subst heq hzero
        obtain rfl := Option.some.inj h
        exact ⟨⟨0, rfl, rfl⟩, rfl⟩
      · subst heq
        obtain rfl := Option.some.inj h
        exact ⟨⟨newManager, rfl, (if_neg hzero).symm⟩, rfl⟩
    | _ => simp [Event.managerOf] at h

variable (keccak256) in
/-- What the registry answers for an interface that is not one of ERC165 is what the last event
for it says, from a transaction of whoever managed the address then. -/
theorem getInterfaceImplementer_of_runs (txs : List Transaction) (accounts : Accounts)
    (msgSender asked : Address) (interfaceHash : Bytes 32)
    (hplain : isERC165Interface interfaceHash = false) :
    let addr := if asked = 0 then msgSender else asked
    let answer :=
      (deploy.runs keccak256 txs).getInterfaceImplementer accounts msgSender asked interfaceHash
    let R := implementers keccak256 addr interfaceHash hplain
    R.Quiet deploy txs ∧ answer = 0 ∨
      ∃ before tx after, txs = before ++ tx :: after ∧
        R.LastSet deploy before tx after answer ∧
        (∃ asked, tx.call = .setInterfaceImplementer asked interfaceHash answer ∧
          addr = if asked = 0 then tx.msgSender else asked) ∧
        tx.msgSender = (deploy.runs keccak256 before).getManager addr ∧
        accepts keccak256 tx.accounts tx.msgSender addr interfaceHash answer = true := by
  intro addr answer R
  have hanswer : answer = R.get (R.run deploy txs) := by
    simp only [answer, getInterfaceImplementer, hplain]
    rfl
  rcases R.quiet_or_lastSet txs deploy with hquiet | ⟨before, tx, after, v, rfl, hlast⟩
  · exact .inl ⟨hquiet, hanswer.trans (R.get_run_of_quiet txs hquiet)⟩
  · obtain rfl : answer = v := hanswer.trans (R.get_run_of_lastSet hlast)
    have ⟨hcall, hmanager, haccepts⟩ := of_implementerOf_logs hlast.set_eq
    exact .inr ⟨before, tx, after, rfl, hlast, hcall, hmanager, haccepts⟩

/-- No account has code: a static call succeeds and returns nothing. -/
def codeless : Accounts := ⟨fun _ _ => (true, []), fun _ _ _ => none⟩

theorem getInterfaceImplementer_of_own_entry :
    isERC165Interface (.fill 32 1) = false ∧ ∀ keccak256 : List UInt8 → Bytes 32,
      ∃ before tx after,
        [⟨codeless, 5, .setManager 5 6⟩, ⟨codeless, 6, .setInterfaceImplementer 5 (.fill 32 1) 6⟩]
          = before ++ tx :: after ∧
        tx.msgSender = (deploy.runs keccak256 before).getManager 5 := by
  refine ⟨rfl, fun keccak256 => ?_⟩
  rcases getInterfaceImplementer_of_runs keccak256
    [⟨codeless, 5, .setManager 5 6⟩, ⟨codeless, 6, .setInterfaceImplementer 5 (.fill 32 1) 6⟩]
    codeless 5 0 (.fill 32 1) rfl with
    ⟨⟨_, hset, _⟩, _⟩ | ⟨before, tx, after, heq, _, _, hsender, _⟩
  · exact absurd hset (Option.some_ne_none 6)
  · exact ⟨before, tx, after, heq, hsender⟩

variable (keccak256) in
/-- While the manager of an address sends nothing, its manager and implementers stay. -/
theorem custody (txs : List Transaction) (addr : Address)
    (hsilent : ∀ tx ∈ txs, tx.msgSender ≠ s.getManager addr) :
    (s.runs keccak256 txs).getManager addr = s.getManager addr ∧
      ∀ interfaceHash, isERC165Interface interfaceHash = false →
        (s.runs keccak256 txs).interfaces addr interfaceHash = s.interfaces addr interfaceHash := by
  have hkeeps : ∀ t tx, t.getManager addr = s.getManager addr →
      tx.msgSender ≠ s.getManager addr →
      (managerRegister keccak256 addr).set t tx = none ∧
        (t.step keccak256 tx).getManager addr = s.getManager addr := by
    intro t tx ht htx
    have hnone : (managerRegister keccak256 addr).set t tx = none := by
      refine Option.eq_none_iff_forall_ne_some.mpr fun m hm => htx ?_
      rw [← ht]
      exact (of_managerOf_logs hm).2
    have hget := (managerRegister keccak256 addr).get_step t tx
    rw [hnone, Option.getD_none] at hget
    exact ⟨hnone, hget.trans ht⟩
  have hmanager := (managerRegister keccak256 addr).quiet_of_invariant hkeeps txs rfl hsilent
  refine ⟨hmanager.2, fun interfaceHash hplain => ?_⟩
  have hquiet := (implementers keccak256 addr interfaceHash hplain).quiet_of_invariant
    (I := fun t => t.getManager addr = s.getManager addr) (fun t tx ht htx => by
      refine ⟨Option.eq_none_iff_forall_ne_some.mpr fun v hv => htx ?_, (hkeeps t tx ht htx).2⟩
      rw [← ht]
      exact (of_implementerOf_logs hv).2.1) txs rfl hsilent
  exact (implementers keccak256 addr interfaceHash hplain).get_run_of_quiet txs hquiet.1

theorem custody_of_handed_over :
    let txs : List Transaction :=
      [⟨codeless, 5, .setManager 5 5⟩, ⟨codeless, 7, .setInterfaceImplementer 5 (.fill 32 1) 7⟩]
    (∀ tx ∈ txs, tx.msgSender ≠ 6) ∧ ∀ keccak256 : List UInt8 → Bytes 32,
      ((deploy.step keccak256 ⟨codeless, 5, .setManager 5 6⟩).runs keccak256 txs).getManager 5
        = 6 := by
  intro txs
  have hsilent : ∀ tx ∈ txs, tx.msgSender ≠ 6 := by simp [txs]
  exact ⟨hsilent, fun keccak256 =>
    (custody keccak256 (s := deploy.step keccak256 ⟨codeless, 5, .setManager 5 6⟩) txs 5
      hsilent).1⟩

theorem caching_of_quiet {contract : Address} {interfaceId : Bytes 4} :
    ∀ (txs : List Transaction) {s : ERC1820Registry},
    (cached keccak256 contract interfaceId).Quiet s txs →
    ∀ tx ∈ txs, tx.call ≠ .updateERC165Cache contract interfaceId
  | tx :: txs, _, ⟨hset, hrest⟩, u, hu => by
    rcases List.mem_cons.mp hu with rfl | hu
    · intro hcall
      simp [cached, Transaction.caching, hcall] at hset
    · exact caching_of_quiet txs hrest u hu

theorem implementsERC165Interface_eq (s : ERC1820Registry) (accounts : Accounts)
    (contract : Address) (interfaceId : Bytes 4) :
    s.implementsERC165Interface accounts contract interfaceId
      = ((cached keccak256 contract interfaceId).get s).getD
          (implementsERC165InterfaceNoCache accounts contract interfaceId) := by
  by_cases h : s.erc165Cached contract interfaceId = true
  · simp [implementsERC165Interface, cached, h]
  · simp [implementsERC165Interface, cached, h]

/-- An interface of ERC165 is looked up where nobody ever asked for it to be cached, and otherwise
is as it was when it was last cached, but for the zero address, which then has it anyway. -/
theorem implementsERC165Interface_of_runs (txs : List Transaction) (accounts : Accounts)
    (contract : Address) (interfaceId : Bytes 4) :
    let answer :=
      (deploy.runs keccak256 txs).implementsERC165Interface accounts contract interfaceId
    (∀ tx ∈ txs, tx.call ≠ .updateERC165Cache contract interfaceId) ∧
        answer = implementsERC165InterfaceNoCache accounts contract interfaceId ∨
      ∃ before tx after, txs = before ++ tx :: after ∧
        tx.call = .updateERC165Cache contract interfaceId ∧
        (∀ later ∈ after, later.call ≠ .updateERC165Cache contract interfaceId) ∧
        answer = (contract == 0 ||
          implementsERC165InterfaceNoCache tx.accounts contract interfaceId) := by
  intro answer
  generalize hR : cached keccak256 contract interfaceId = R
  have hanswer : answer = (R.get (R.run deploy txs)).getD
      (implementsERC165InterfaceNoCache accounts contract interfaceId) := by
    subst hR
    exact implementsERC165Interface_eq _ accounts contract interfaceId
  rcases R.quiet_or_lastSet txs deploy with hquiet | ⟨before, tx, after, v, rfl, hlast⟩
  · rw [R.get_run_of_quiet txs hquiet] at hanswer
    subst hR
    exact .inl ⟨caching_of_quiet txs hquiet, hanswer⟩
  · rw [R.get_run_of_lastSet hlast] at hanswer
    subst hR
    have hcall : tx.call = .updateERC165Cache contract interfaceId := by
      by_contra hne
      have hset := hlast.set_eq
      simp [cached, caching_eq_none contract interfaceId hne] at hset
    have hset := hlast.set_eq
    simp only [cached, Transaction.caching, hcall, and_self, if_true, Option.map_some,
      Option.some.injEq] at hset
    rw [← hset, Option.getD_some] at hanswer
    exact .inr ⟨before, tx, after, rfl, hcall, caching_of_quiet after hlast.quiet, hanswer⟩

/-! ## What a contract has to answer -/

section

variable {input : Bytes 32} {output : List UInt8} {accounts : Accounts} {contract : Address}
  {interfaceId : Bytes 4}

/-- The first 32 bytes of a question. -/
def question (interfaceId : Bytes 4) : List UInt8 :=
  ERC165ID.1 ++ interfaceId.1 ++ List.replicate 24 0

/-- What a contract answers when it is asked for an interface. -/
def answer (accounts : Accounts) (contract : Address) (interfaceId : Bytes 4) :
    Bool × List UInt8 :=
  accounts.staticcall contract (ERC165ID.1 ++ interfaceId.1 ++ List.replicate 28 0)

theorem noThrowCall_fst (accounts : Accounts) (contract : Address) (interfaceId : Bytes 4) :
    (noThrowCall accounts contract interfaceId).1 = (answer accounts contract interfaceId).1 := rfl

theorem noThrowCall_snd (accounts : Accounts) (contract : Address) (interfaceId : Bytes 4) :
    (noThrowCall accounts contract interfaceId).2.1
      = (answer accounts contract interfaceId).2.take 32
        ++ (question interfaceId).drop
            ((answer accounts contract interfaceId).2.take 32).length := by
  have hinput : (ERC165ID.1 ++ interfaceId.1 ++ List.replicate 28 0).take 32
      = question interfaceId := by
    have hlen : (ERC165ID.1 ++ interfaceId.1).length = 8 := by simp [ERC165ID, interfaceId.2]
    rw [question, List.take_append, hlen, List.take_of_length_le (by omega), List.take_replicate]
    rfl
  simp only [noThrowCall, overwrite, hinput]
  rfl

theorem question_eq (interfaceId : Bytes 4) :
    question interfaceId = (ERC165ID.1 ++ interfaceId.1) ++ List.replicate 24 0 := rfl

theorem length_idBytes (interfaceId : Bytes 4) : (ERC165ID.1 ++ interfaceId.1).length = 8 := by
  simp [ERC165ID, interfaceId.2]

/-- A question that is left standing from a byte of its identifier on is not zero. -/
theorem drop_question_eq_zero (hid : interfaceId.1.getLast? ≠ some 0) (k : ℕ) :
    (∀ b ∈ (question interfaceId).drop k, b = 0) ↔ 8 ≤ k := by
  have hlen := length_idBytes interfaceId
  constructor
  · intro hzero
    by_contra hk
    obtain ⟨b, hb⟩ : ∃ b, interfaceId.1.getLast? = some b := by
      have hne : interfaceId.1 ≠ [] := by simp [← List.length_pos_iff, interfaceId.2]
      exact ⟨_, List.getLast?_eq_some_getLast hne⟩
    have hmem : b ∈ (question interfaceId).drop k := by
      rw [question_eq, List.drop_append_of_le_length (by omega)]
      refine List.mem_append_left _ (List.mem_of_getLast? ?_)
      rw [List.getLast?_drop, if_neg (by omega), List.getLast?_append, hb]
      rfl
    exact hid (hb.trans (congrArg some (hzero b hmem)))
  · intro hk b hb
    rw [question_eq, List.drop_append, List.drop_eq_nil_of_le (by omega), List.nil_append] at hb
    exact List.eq_of_mem_replicate (List.mem_of_mem_drop hb)

theorem word_eq_zeros (hid : interfaceId.1.getLast? ≠ some 0) :
    (noThrowCall accounts contract interfaceId).2 = .zeros 32 ↔
      8 ≤ (answer accounts contract interfaceId).2.length ∧
        ∀ b ∈ (answer accounts contract interfaceId).2.take 32, b = 0 := by
  have hval : (noThrowCall accounts contract interfaceId).2 = .zeros 32 ↔
      ∀ b ∈ (noThrowCall accounts contract interfaceId).2.1, b = 0 := by
    refine Subtype.ext_iff.trans (List.eq_replicate_iff.trans ?_)
    exact and_iff_right (noThrowCall accounts contract interfaceId).2.2
  rw [hval, noThrowCall_snd]
  simp only [List.forall_mem_append, drop_question_eq_zero hid, List.length_take]
  rw [and_comm]
  refine and_congr_left' ?_
  omega

theorem word_eq_one :
    (noThrowCall accounts contract interfaceId).2 = wordOne ↔
      (answer accounts contract interfaceId).2.take 32 = wordOne.1 := by
  refine Subtype.ext_iff.trans ?_
  rw [noThrowCall_snd]
  generalize hout : (answer accounts contract interfaceId).2.take 32 = out
  have hlen : out.length ≤ 32 := by simp [← hout]
  have hquestion : (question interfaceId).length = 32 := by
    simp [question_eq, ERC165ID, interfaceId.2]
  constructor
  · intro heq
    -- the last byte is one, and a question ends with a zero
    have hfull : out.length = 32 := by
      by_contra hshort
      have hlast := congrArg List.getLast? heq
      rw [List.getLast?_append, List.getLast?_drop, if_neg (by omega), question_eq,
        List.getLast?_append, List.getLast?_replicate] at hlast
      exact absurd hlast (by simp [wordOne, Bytes.append, Bytes.fill])
    rwa [List.drop_eq_nil_of_le (by omega), List.append_nil] at heq
  · intro heq
    have hfull : out.length = 32 := heq ▸ wordOne.2
    rw [List.drop_eq_nil_of_le (by omega), List.append_nil, heq]

/-- The first answer may be cut short, the second may have no less than 8 bytes and the third has
to be whole. -/
theorem implementsERC165InterfaceNoCache_iff (accounts : Accounts) (contract : Address)
    (interfaceId : Bytes 4) :
    implementsERC165InterfaceNoCache accounts contract interfaceId = true ↔
      ((answer accounts contract ERC165ID).1 = true ∧
        ((answer accounts contract ERC165ID).2.length < 8 ∨
          ∃ b ∈ (answer accounts contract ERC165ID).2.take 32, b ≠ 0)) ∧
      ((answer accounts contract INVALID_ID).1 = true ∧
        8 ≤ (answer accounts contract INVALID_ID).2.length ∧
          ∀ b ∈ (answer accounts contract INVALID_ID).2.take 32, b = 0) ∧
      (answer accounts contract interfaceId).1 = true ∧
        (answer accounts contract interfaceId).2.take 32 = wordOne.1 := by
  have hfirst : (noThrowCall accounts contract ERC165ID).2 ≠ .zeros 32 ↔
      (answer accounts contract ERC165ID).2.length < 8 ∨
        ∃ b ∈ (answer accounts contract ERC165ID).2.take 32, b ≠ 0 := by
    rw [ne_eq, word_eq_zeros (by decide), not_and_or, not_le]
    simp
  rw [← hfirst, ← word_eq_zeros (by decide), ← word_eq_one]
  simp only [implementsERC165InterfaceNoCache, noThrowCall_fst]
  simp [and_assoc]

end

end ERC1820Registry

end Baseline
