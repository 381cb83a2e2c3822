import Baseline.ERC1820Registry

/-!
# The registry of organisations as a client of the registry of interfaces

`Registrar.sol` and the parts of `OrgRegistry.sol` that inherit from it: the contract, deployed at
the address `self`, names itself as its implementer of `IOrgRegistry` and may hand over its own
management. A run interleaves the transactions sent to the two contracts.
-/

namespace Baseline

open ERC1820Registry

/-- The two contracts, the second one at the address `self`. -/
structure Registries where
  erc1820 : ERC1820Registry
  orgRegistry : OrgRegistry

/-- A transaction to one of the two contracts. -/
inductive Action (O : Ownable)
  | erc1820 (tx : ERC1820Registry.Transaction)
  | orgRegistry (tx : OrgRegistry.Transaction O)
  | assignManager (accounts : Accounts) (msgSender newManager : Address)

namespace Registrar

variable (keccak256 : List UInt8 → Bytes 32) (self : Address)

def setInterfaceImplementation (r : ERC1820Registry) (accounts : Accounts)
    (interfaceLabel : List UInt8) (implementation : Address) : Option ERC1820Registry :=
  let interfaceHash := keccak256 interfaceLabel
  (r.setInterfaceImplementer keccak256 accounts self self interfaceHash implementation).map
    Receipt.state

def interfaceAddr (r : ERC1820Registry) (accounts : Accounts) (addr : Address)
    (interfaceLabel : List UInt8) : Address :=
  let interfaceHash := keccak256 interfaceLabel
  r.getInterfaceImplementer accounts self addr interfaceHash

def assignManagement (r : ERC1820Registry) (newManager : Address) : Option ERC1820Registry :=
  (r.setManager self self newManager).map Receipt.state

def getManager (r : ERC1820Registry) : Address := r.getManager self

end Registrar

namespace Registries

variable (keccak256 : List UInt8 → Bytes 32) (self : Address)

/-- `"IOrgRegistry"`. -/
def label : List UInt8 := Utf8.encode "IOrgRegistry".toList

/-- The registry of organisations is deployed beside a registry of interfaces. -/
def constructor (r : ERC1820Registry) (accounts : Accounts) (msgSender : Address) :
    Option Registries := do
  let r ← Registrar.setInterfaceImplementation keccak256 self r accounts label self
  return ⟨r, OrgRegistry.deploy msgSender⟩

/-- It accepts to implement anything for anyone. -/
def canImplementInterfaceForAddress (_interfaceHash : Bytes 32) (_addr : Address) : Bytes 32 :=
  ERC1820_ACCEPT_MAGIC keccak256

def assignManager (s : Registries) (msgSender newManager : Address) : Option Registries :=
  -- `onlyOwner`
  if msgSender = s.orgRegistry.owner then
    (Registrar.assignManagement self s.erc1820 newManager).map fun erc1820 => { s with erc1820 }
  else none

variable {O : Ownable}

/-- A transaction that reverts leaves the storage of both as it was. -/
def step (s : Registries) : Action O → Registries
  | .erc1820 tx => { s with erc1820 := s.erc1820.step keccak256 tx }
  | .orgRegistry tx => { s with orgRegistry := s.orgRegistry.step tx }
  | .assignManager _ msgSender newManager => (s.assignManager self msgSender newManager).getD s

def runs (s : Registries) (actions : List (Action O)) : Registries :=
  actions.foldl (step keccak256 self) s

end Registries

end Baseline
