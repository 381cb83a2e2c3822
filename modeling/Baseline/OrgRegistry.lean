import Baseline.Shield
import Mathlib.Logic.Function.Basic

/-!
# The registry of organisations

`OrgRegistry.sol`: a record is kept for each address in a mapping, and in an array in the order
of the registrations. The owner registers an organisation, which then updates its own record; who
the owner is and how it changes is up to `Ownable`, a package the contract inherits from.
-/

namespace Baseline

/-- `address`. -/
abbrev Address : Type := BitVec 160

/-- What the functions of `Ownable` do to the owner when an address calls them; `none` is a
revert. -/
structure Ownable where
  Call : Type
  run : Call → (owner msgSender : Address) → Option Address

/-- `struct Org`. -/
structure Org where
  orgAddress : Address
  name : Bytes 32
  messagingEndpoint : List UInt8
  whisperKey : List UInt8
  zkpPublicKey : List UInt8
  metadata : List UInt8
  deriving DecidableEq

/-- `struct OrgInterfaces`. -/
structure OrgInterfaces where
  groupName : Bytes 32
  tokenAddress : Address
  shieldAddress : Address
  verifierAddress : Address
  deriving DecidableEq

/-- What a mapping holds where nothing was stored. -/
def Org.unset : Org := ⟨0, .zeros 32, [], [], [], []⟩

def OrgInterfaces.unset : OrgInterfaces := ⟨.zeros 32, 0, 0, 0⟩

structure OrgRegistry where
  owner : Address
  orgMap : Address → Org
  orgInterfaceMap : Uint256 → OrgInterfaces
  orgInterfaceCount : Uint256
  orgs : List Org

namespace OrgRegistry

/-- The events of the contract. -/
inductive Event
  | RegisterOrg (name : Bytes 32) (address : Address)
      (messagingEndpoint whisperKey zkpPublicKey metadata : List UInt8)
  | UpdateOrg (name : Bytes 32) (address : Address)
      (messagingEndpoint whisperKey zkpPublicKey metadata : List UInt8)
  deriving DecidableEq

/-- The storage, the logs and the value returned after a call that does not revert. -/
structure Receipt where
  state : OrgRegistry
  logs : List Event
  returned : Bool

/-- The registry as its deployer leaves it. -/
def deploy (deployer : Address) : OrgRegistry :=
  ⟨deployer, fun _ => .unset, fun _ => .unset, 0, []⟩

def registerOrg (s : OrgRegistry) (msgSender address : Address) (name : Bytes 32)
    (messagingEndpoint whisperKey zkpPublicKey metadata : List UInt8) : Option Receipt :=
  -- `onlyOwner`
  if msgSender = s.owner then
    let org : Org := ⟨address, name, messagingEndpoint, whisperKey, zkpPublicKey, metadata⟩
    some ⟨{ s with orgMap := Function.update s.orgMap address org, orgs := s.orgs ++ [org] },
      [.RegisterOrg name address messagingEndpoint whisperKey zkpPublicKey metadata], true⟩
  else none

def updateOrg (s : OrgRegistry) (msgSender address : Address) (name : Bytes 32)
    (messagingEndpoint whisperKey zkpPublicKey metadata : List UInt8) : Option Receipt :=
  if msgSender = (s.orgMap address).orgAddress then
    let org : Org := { s.orgMap address with name, messagingEndpoint, whisperKey, zkpPublicKey,
                                             metadata }
    some ⟨{ s with orgMap := Function.update s.orgMap address org },
      [.UpdateOrg name address messagingEndpoint whisperKey zkpPublicKey metadata], true⟩
  else none

def registerInterfaces (s : OrgRegistry) (msgSender : Address) (groupName : Bytes 32)
    (tokenAddress shieldAddress verifierAddress : Address) : Option Receipt :=
  -- `onlyOwner`
  if msgSender = s.owner then
    some ⟨{ s with
      orgInterfaceMap := Function.update s.orgInterfaceMap s.orgInterfaceCount
        ⟨groupName, tokenAddress, shieldAddress, verifierAddress⟩
      orgInterfaceCount := s.orgInterfaceCount + 1 }, [], true⟩
  else none

def getOrgCount (s : OrgRegistry) : ℕ := s.orgs.length

/-- A tuple of all six fields. -/
def getOrg (s : OrgRegistry) (address : Address) : Org := s.orgMap address

/-- The four arrays that the loop fills. -/
def getInterfaceAddresses (s : OrgRegistry) :
    List (Bytes 32) × List Address × List Address × List Address :=
  let orgInterfaces := (List.range s.orgInterfaceCount.toNat).map fun i =>
    s.orgInterfaceMap (BitVec.ofNat 256 i)
  (orgInterfaces.map OrgInterfaces.groupName, orgInterfaces.map OrgInterfaces.tokenAddress,
    orgInterfaces.map OrgInterfaces.shieldAddress, orgInterfaces.map OrgInterfaces.verifierAddress)

/-! ## Runs of transactions -/

inductive Call (O : Ownable)
  | registerOrg (address : Address) (name : Bytes 32)
      (messagingEndpoint whisperKey zkpPublicKey metadata : List UInt8)
  | updateOrg (address : Address) (name : Bytes 32)
      (messagingEndpoint whisperKey zkpPublicKey metadata : List UInt8)
  | registerInterfaces (groupName : Bytes 32)
      (tokenAddress shieldAddress verifierAddress : Address)
  | ownable (call : O.Call)

/-- The address that a call is to register. -/
def Call.registering {O : Ownable} : Call O → Option Address
  | registerOrg address .. => some address
  | _ => none

/-- The address whose record a call is to update. -/
def Call.updating {O : Ownable} : Call O → Option Address
  | updateOrg address .. => some address
  | _ => none

structure Transaction (O : Ownable) where
  msgSender : Address
  call : Call O

variable {O : Ownable}

def exec (s : OrgRegistry) (tx : Transaction O) : Option Receipt :=
  match tx.call with
  | .registerOrg address name messagingEndpoint whisperKey zkpPublicKey metadata =>
    s.registerOrg tx.msgSender address name messagingEndpoint whisperKey zkpPublicKey metadata
  | .updateOrg address name messagingEndpoint whisperKey zkpPublicKey metadata =>
    s.updateOrg tx.msgSender address name messagingEndpoint whisperKey zkpPublicKey metadata
  | .registerInterfaces groupName tokenAddress shieldAddress verifierAddress =>
    s.registerInterfaces tx.msgSender groupName tokenAddress shieldAddress verifierAddress
  | .ownable call =>
    (O.run call s.owner tx.msgSender).map fun owner => ⟨{ s with owner }, [], true⟩

/-- A transaction that reverts leaves the storage as it was. -/
def step (s : OrgRegistry) (tx : Transaction O) : OrgRegistry :=
  ((s.exec tx).map Receipt.state).getD s

def runs (s : OrgRegistry) (txs : List (Transaction O)) : OrgRegistry := txs.foldl step s

/-- The address that a transaction registers, if it does not revert. -/
def registers (s : OrgRegistry) (tx : Transaction O) : List Address :=
  match tx.call.registering with
  | some address => if tx.msgSender = s.owner then [address] else []
  | none => []

/-- The addresses registered in a run, one for each registration. -/
def everRegistered : OrgRegistry → List (Transaction O) → List Address
  | _, [] => []
  | s, tx :: txs => s.registers tx ++ everRegistered (s.step tx) txs

/-- The interfaces that a transaction registers, if it does not revert. -/
def registersInterfaces (s : OrgRegistry) (tx : Transaction O) : List OrgInterfaces :=
  match tx.call with
  | .registerInterfaces groupName tokenAddress shieldAddress verifierAddress =>
    if tx.msgSender = s.owner then
      [⟨groupName, tokenAddress, shieldAddress, verifierAddress⟩] else []
  | _ => []

/-- The interfaces registered in a run, in their order. -/
def everRegisteredInterfaces : OrgRegistry → List (Transaction O) → List OrgInterfaces
  | _, [] => []
  | s, tx :: txs => s.registersInterfaces tx ++ everRegisteredInterfaces (s.step tx) txs

end OrgRegistry

end Baseline
