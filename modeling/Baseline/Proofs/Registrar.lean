import Baseline.Registrar
import Baseline.Proofs.ERC1820Registry
import Baseline.Proofs.OrgRegistry

/-!
# Handing over the management of the registry of organisations

Seen from the registry of interfaces, a run of the two contracts is a run of its own transactions
and of the one that the owner has the other contract send (`erc1820_runs`). The contract asks for
nothing but a new manager after its deployment, so its entry stays while it manages itself, and
once somebody else does it is out of the owner's hands (`handing_over`).
-/

namespace Baseline

open ERC1820Registry

namespace Registries

variable {keccak256 : List UInt8 → Bytes 32} {self : Address} {O : Ownable} {s : Registries}

variable (self) in
/-- What an action sends to the registry of interfaces. -/
def sends (s : Registries) : Action O → List ERC1820Registry.Transaction
  | .erc1820 tx => [tx]
  | .orgRegistry _ => []
  | .assignManager accounts msgSender newManager =>
    if msgSender = s.orgRegistry.owner then
      [⟨accounts, self, .setManager self newManager⟩] else []

variable (keccak256 self) in
def sent : Registries → List (Action O) → List ERC1820Registry.Transaction
  | _, [] => []
  | s, action :: actions => s.sends self action ++ sent (s.step keccak256 self action) actions

theorem erc1820_step (s : Registries) : ∀ action : Action O,
    (s.step keccak256 self action).erc1820 = s.erc1820.runs keccak256 (s.sends self action)
  | .erc1820 _ => rfl
  | .orgRegistry _ => rfl
  | .assignManager accounts msgSender newManager => by
    by_cases howner : msgSender = s.orgRegistry.owner
    · simp only [step, assignManager, sends, if_pos howner, ERC1820Registry.runs, List.foldl_cons,
        List.foldl_nil, ERC1820Registry.step, exec, Registrar.assignManagement]
      cases s.erc1820.setManager self self newManager <;> rfl
    · simp [step, assignManager, sends, howner, ERC1820Registry.runs]

theorem erc1820_runs : ∀ (actions : List (Action O)) (s : Registries),
    (s.runs keccak256 self actions).erc1820
      = s.erc1820.runs keccak256 (s.sent keccak256 self actions)
  | [], _ => rfl
  | action :: actions, s => by
    have hrest := erc1820_runs actions (s.step keccak256 self action)
    rw [erc1820_step] at hrest
    simpa [runs, sent, ERC1820Registry.runs, List.foldl_append] using hrest

/-- What is sent to the registry of interfaces is sent by an account, or is the contract's request
for another manager. -/
theorem mem_sent : ∀ (actions : List (Action O)) {s : Registries}
    {tx : ERC1820Registry.Transaction}, tx ∈ s.sent keccak256 self actions →
    .erc1820 tx ∈ actions ∨
      ∃ newManager, tx.msgSender = self ∧ tx.call = .setManager self newManager
  | [], _, _, h => absurd h (by simp [sent])
  | action :: actions, s, tx, h => by
    rcases List.mem_append.mp h with hfirst | hrest
    · cases action with
      | erc1820 tx' =>
        obtain rfl := List.mem_singleton.mp hfirst
        exact .inl List.mem_cons_self
      | orgRegistry => cases hfirst
      | assignManager accounts msgSender newManager =>
        simp only [sends] at hfirst
        split_ifs at hfirst with howner
        · obtain rfl := List.mem_singleton.mp hfirst
          exact .inr ⟨newManager, rfl, rfl⟩
        · cases hfirst
    · exact (mem_sent actions hrest).imp_left (List.mem_cons_of_mem action)

/-- Whoever manages an address can name the registry of organisations for anything. -/
theorem accepts_registry {accounts : Accounts} {msgSender addr : Address} {interfaceHash : Bytes 32}
    (hself : accounts.canImplementInterfaceForAddress self interfaceHash addr
      = some (canImplementInterfaceForAddress keccak256 interfaceHash addr)) :
    accepts keccak256 accounts msgSender addr interfaceHash self = true := by
  unfold accepts
  split_ifs
  · simp [hself, canImplementInterfaceForAddress]
  · rfl

/-- While the contract manages itself, its entries stay. -/
theorem interfaces_step (hself : s.erc1820.getManager self = self) {interfaceHash : Bytes 32}
    (hplain : isERC165Interface interfaceHash = false) : ∀ {action : Action O},
    (∀ tx, action = .erc1820 tx → tx.msgSender ≠ self) →
    (s.step keccak256 self action).erc1820.interfaces self interfaceHash
      = s.erc1820.interfaces self interfaceHash
  | .erc1820 tx, haction => by
    have hget := (implementers keccak256 self interfaceHash hplain).get_step s.erc1820 tx
    have hnone : (implementers keccak256 self interfaceHash hplain).set s.erc1820 tx = none := by
      refine Option.eq_none_iff_forall_ne_some.mpr fun v hv => haction tx rfl ?_
      exact (of_implementerOf_logs hv).2.1.trans hself
    rw [hnone, Option.getD_none] at hget
    exact hget
  | .orgRegistry _, _ => rfl
  | .assignManager accounts msgSender newManager, _ => by
    by_cases howner : msgSender = s.orgRegistry.owner
    · simp [step, assignManager, howner, Registrar.assignManagement, setManager, hself]
    · simp [step, assignManager, howner]

theorem interfaces_runs {interfaceHash : Bytes 32}
    (hplain : isERC165Interface interfaceHash = false) :
    ∀ (actions : List (Action O)) {s : Registries},
    (∀ n, (s.runs keccak256 self (actions.take n)).erc1820.getManager self = self) →
    (∀ tx, .erc1820 tx ∈ actions → tx.msgSender ≠ self) →
    (s.runs keccak256 self actions).erc1820.interfaces self interfaceHash
      = s.erc1820.interfaces self interfaceHash
  | [], _, _, _ => rfl
  | action :: actions, s, hself, hsender => by
    have hrest := interfaces_runs hplain actions (s := s.step keccak256 self action)
      (fun n => hself (n + 1)) fun tx htx => hsender tx (List.mem_cons_of_mem action htx)
    refine hrest.trans (interfaces_step (hself 0) hplain fun tx htx => hsender tx ?_)
    exact htx ▸ List.mem_cons_self

theorem constructor_eq {r : ERC1820Registry} (hself : r.getManager self = self)
    (hplain : isERC165Interface (keccak256 label) = false) (accounts : Accounts)
    (deployer : Address) :
    constructor keccak256 self r accounts deployer
      = some ⟨{ r with
          interfaces := Function.update r.interfaces self
            (Function.update (r.interfaces self) (keccak256 label) self) },
        OrgRegistry.deploy deployer⟩ := by
  simp [constructor, Registrar.setInterfaceImplementation, setInterfaceImplementer, accepts, hself,
    hplain]

variable (keccak256) in
/-- Once somebody else manages the contract, only they can change that. -/
theorem managed_elsewhere {manager : Address} (hother : manager ≠ self)
    (hmanager : Registrar.getManager self s.erc1820 = manager) {later : List (Action O)}
    (hlater : ∀ tx, .erc1820 tx ∈ later → tx.msgSender ≠ self ∧ tx.msgSender ≠ manager) :
    Registrar.getManager self (s.runs keccak256 self later).erc1820 = manager ∧
      (∀ interfaceHash, isERC165Interface interfaceHash = false →
        (s.runs keccak256 self later).erc1820.interfaces self interfaceHash
          = s.erc1820.interfaces self interfaceHash) ∧
      ∀ msgSender newManager,
        (s.runs keccak256 self later).assignManager self msgSender newManager = none := by
  have hsilent : ∀ tx ∈ s.sent keccak256 self later, tx.msgSender ≠ s.erc1820.getManager self := by
    intro tx htx
    rw [show s.erc1820.getManager self = manager from hmanager]
    rcases mem_sent later htx with hmem | ⟨newManager, hsender, _⟩
    · exact (hlater tx hmem).2
    · exact hsender ▸ hother.symm
  obtain ⟨hkept, hentries⟩ := custody keccak256 _ self hsilent
  rw [← erc1820_runs] at hkept hentries
  have hstill : (s.runs keccak256 self later).erc1820.getManager self = manager :=
    hkept.trans hmanager
  refine ⟨hstill, hentries, fun msgSender newManager => ?_⟩
  simp [assignManager, Registrar.assignManagement, setManager, hstill, hother]

variable (keccak256 self) in
/-- The registry of organisations is its own implementer for as long as it manages itself, and
whoever it hands this over to has to give it back before the owner can hand it over again. -/
theorem handing_over (before : List ERC1820Registry.Transaction) (accounts : Accounts)
    (deployer : Address) (hplain : isERC165Interface (keccak256 label) = false)
    (hbefore : ∀ tx ∈ before, tx.msgSender ≠ self) :
    ∃ s, constructor keccak256 self (deploy.runs keccak256 before) accounts deployer = some s ∧
      Registrar.getManager self s.erc1820 = self ∧
      ∀ actions : List (Action O), (∀ tx, .erc1820 tx ∈ actions → tx.msgSender ≠ self) →
        ((∀ n, Registrar.getManager self (s.runs keccak256 self (actions.take n)).erc1820 = self) →
          ∀ accounts, Registrar.interfaceAddr keccak256 self
            (s.runs keccak256 self actions).erc1820 accounts self label = self) ∧
        ∀ (later : List (Action O)) (manager : Address), manager ≠ self →
          Registrar.getManager self (s.runs keccak256 self actions).erc1820 = manager →
          (∀ tx, .erc1820 tx ∈ later → tx.msgSender ≠ self ∧ tx.msgSender ≠ manager) →
          let t := (s.runs keccak256 self actions).runs keccak256 self later
          Registrar.getManager self t.erc1820 = manager ∧
            (∀ accounts, Registrar.interfaceAddr keccak256 self t.erc1820 accounts self label
              = Registrar.interfaceAddr keccak256 self (s.runs keccak256 self actions).erc1820
                  accounts self label) ∧
            ∀ msgSender newManager, t.assignManager self msgSender newManager = none := by
  have hself : (deploy.runs keccak256 before).getManager self = self :=
    (custody keccak256 (s := deploy) before self hbefore).1
  have haddr : ∀ (r : ERC1820Registry) (accounts : Accounts),
      Registrar.interfaceAddr keccak256 self r accounts self label
        = r.interfaces self (keccak256 label) := by
    intro r accounts
    simp [Registrar.interfaceAddr, getInterfaceImplementer, hplain]
  refine ⟨_, constructor_eq hself hplain accounts deployer, hself, ?_⟩
  intro actions hactions
  refine ⟨fun hmanaged accounts => ?_, fun later manager hother hmanager hlater => ?_⟩
  · rw [haddr, interfaces_runs hplain actions hmanaged hactions]
    simp
  · intro t
    obtain ⟨hstill, hentries, hreverts⟩ :=
      managed_elsewhere keccak256 hother hmanager hlater
    refine ⟨hstill, fun accounts => ?_, hreverts⟩
    rw [haddr, haddr]
    exact hentries _ hplain

/-- The hash of the label. -/
def labelHash : Bytes 32 :=
  ⟨[0x94, 0x72, 0x8c, 0xf8, 0xf2, 0x4d, 0x69, 0xf5, 0xea, 0xe1, 0x57, 0xcb, 0x2f, 0x39, 0x9f, 0x0f,
    0x42, 0xab, 0x7c, 0x48, 0x35, 0x25, 0x3a, 0xcd, 0x5e, 0xec, 0x92, 0xa3, 0x9a, 0x22, 0xb2, 0x50],
    rfl⟩

/-- The contract at address 7 is deployed by address 5, which hands it over to address 6. -/
theorem handing_over_to_another :
    isERC165Interface labelHash = false ∧
    ∃ s, constructor (fun _ => labelHash) 7 deploy codeless 5 = some s ∧
      ∀ msgSender newManager, (s.runs (fun _ => labelHash) 7
        [Action.assignManager (O := OrgRegistry.ownable) codeless 5 6]).assignManager 7
          msgSender newManager = none := by
  obtain ⟨s, hs, _, hruns⟩ := handing_over (fun _ => labelHash) 7 (O := OrgRegistry.ownable) []
    codeless 5 rfl (fun _ htx => absurd htx List.not_mem_nil)
  refine ⟨rfl, s, hs, ?_⟩
  have hmanager : Registrar.getManager 7 (s.runs (fun _ => labelHash) 7
      [Action.assignManager (O := OrgRegistry.ownable) codeless 5 6]).erc1820 = 6 := by
    obtain rfl := Option.some.inj hs
    rfl
  exact ((hruns [.assignManager codeless 5 6] (by simp)).2 [] 6 (by decide) hmanager
    (by simp)).2.2

end Registries

end Baseline
