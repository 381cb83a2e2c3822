import Baseline.OrgRegistry
import Baseline.Utf8

/-!
# The registry of interfaces

`ERC1820Registry.sol`: for each address, which contract implements an interface on its behalf. The
manager of an address, which is the address itself until it names another, sets the implementers;
for the interfaces of ERC165, which are the hashes that end with 28 zeroes, the registry asks the
contract and may keep its answer. The calls to other contracts are static calls: what they answer
in a transaction is given with it (`Accounts`).
-/

namespace Baseline

/-- What the accounts answer to the static calls of one transaction. -/
structure Accounts where
  /-- Whether a call succeeds, and the bytes it returns. -/
  staticcall : Address → List UInt8 → Bool × List UInt8
  /-- `none` where the typed call reverts, as it does without code at the address. -/
  canImplementInterfaceForAddress : Address → Bytes 32 → Address → Option (Bytes 32)

structure ERC1820Registry where
  interfaces : Address → Bytes 32 → Address
  managers : Address → Address
  erc165Cached : Address → Bytes 4 → Bool

namespace ERC1820Registry

def INVALID_ID : Bytes 4 := .fill 4 0xff

def ERC165ID : Bytes 4 := ⟨[0x01, 0xff, 0xc9, 0xa7], rfl⟩

def ERC1820_ACCEPT_MAGIC (keccak256 : List UInt8 → Bytes 32) : Bytes 32 :=
  keccak256 (Utf8.encode "ERC1820_ACCEPT_MAGIC".toList)

/-- `bytes32(_interfaceId)`, which keeps the bytes in front. -/
def toBytes32 (interfaceId : Bytes 4) : Bytes 32 := interfaceId.append (.zeros 28)

/-- `bytes4(_interfaceHash)`. -/
def toBytes4 (interfaceHash : Bytes 32) : Bytes 4 :=
  ⟨interfaceHash.1.take 4, by simp [interfaceHash.2]⟩

/-- The word of the number one. -/
def wordOne : Bytes 32 := (Bytes.zeros 31).append (.fill 1 1)

/-- The 32 bytes in memory after a call that is to leave up to 32 bytes over its own input. -/
def overwrite (input : Bytes 32) (output : List UInt8) : Bytes 32 :=
  ⟨output.take 32 ++ input.1.drop (output.take 32).length, by
    simp only [List.length_append, List.length_take, List.length_drop, input.2]
    omega⟩

inductive Event
  | InterfaceImplementerSet (addr : Address) (interfaceHash : Bytes 32) (implementer : Address)
  | ManagerChanged (addr newManager : Address)
  deriving DecidableEq

/-- The storage and the logs after a call that does not revert. -/
structure Receipt where
  state : ERC1820Registry
  logs : List Event

/-- The registry as it is deployed. -/
def deploy : ERC1820Registry := ⟨fun _ _ => 0, fun _ => 0, fun _ _ => false⟩

def getManager (s : ERC1820Registry) (addr : Address) : Address :=
  if s.managers addr = 0 then addr else s.managers addr

def isERC165Interface (interfaceHash : Bytes 32) : Bool :=
  interfaceHash.1.drop 4 == List.replicate 28 0

/-- Whether the call succeeded, and the word that is then where its input was. -/
def noThrowCall (accounts : Accounts) (contract : Address) (interfaceId : Bytes 4) :
    Bool × Bytes 32 :=
  -- 36 bytes of input, the first 32 of which the output is written over
  let x := ERC165ID.1 ++ interfaceId.1 ++ List.replicate 28 0
  let (success, output) := accounts.staticcall contract x
  (success, overwrite ⟨x.take 32, by simp [x, ERC165ID, interfaceId.2]⟩ output)

def implementsERC165InterfaceNoCache (accounts : Accounts) (contract : Address)
    (interfaceId : Bytes 4) : Bool :=
  let (success, result) := noThrowCall accounts contract ERC165ID
  if !success || result == .zeros 32 then false
  else
    let (success, result) := noThrowCall accounts contract INVALID_ID
    if !success || result != .zeros 32 then false
    else
      let (success, result) := noThrowCall accounts contract interfaceId
      if success && result == wordOne then true else false

def implementsERC165Interface (s : ERC1820Registry) (accounts : Accounts) (contract : Address)
    (interfaceId : Bytes 4) : Bool :=
  if !s.erc165Cached contract interfaceId then
    implementsERC165InterfaceNoCache accounts contract interfaceId
  else s.interfaces contract (toBytes32 interfaceId) == contract

def getInterfaceImplementer (s : ERC1820Registry) (accounts : Accounts) (msgSender addr : Address)
    (interfaceHash : Bytes 32) : Address :=
  let addr := if addr = 0 then msgSender else addr
  if isERC165Interface interfaceHash then
    if s.implementsERC165Interface accounts addr (toBytes4 interfaceHash) then addr else 0
  else s.interfaces addr interfaceHash

def setManager (s : ERC1820Registry) (msgSender addr newManager : Address) : Option Receipt :=
  if s.getManager addr = msgSender then
    some ⟨{ s with managers :=
      Function.update s.managers addr (if newManager = addr then 0 else newManager) },
      [.ManagerChanged addr newManager]⟩
  else none

def updateERC165Cache (s : ERC1820Registry) (accounts : Accounts) (contract : Address)
    (interfaceId : Bytes 4) : ERC1820Registry where
  interfaces := Function.update s.interfaces contract
    (Function.update (s.interfaces contract) (toBytes32 interfaceId)
      (if implementsERC165InterfaceNoCache accounts contract interfaceId then contract else 0))
  managers := s.managers
  erc165Cached := Function.update s.erc165Cached contract
    (Function.update (s.erc165Cached contract) interfaceId true)

section

variable (keccak256 : List UInt8 → Bytes 32)

/-- The hash of the name, a `string`, whose bytes need not be text. -/
def interfaceHash (interfaceName : List UInt8) : Bytes 32 := keccak256 interfaceName

/-- The call to the implementer, which is left out for none at all and for the sender. -/
def accepts (accounts : Accounts) (msgSender addr : Address) (interfaceHash : Bytes 32)
    (implementer : Address) : Bool :=
  if implementer ≠ 0 ∧ implementer ≠ msgSender then
    accounts.canImplementInterfaceForAddress implementer interfaceHash addr
      == some (ERC1820_ACCEPT_MAGIC keccak256)
  else true

def setInterfaceImplementer (s : ERC1820Registry) (accounts : Accounts)
    (msgSender addr : Address) (interfaceHash : Bytes 32) (implementer : Address) :
    Option Receipt := do
  let addr := if addr = 0 then msgSender else addr
  guard (s.getManager addr = msgSender)
  guard (!isERC165Interface interfaceHash)
  guard (accepts keccak256 accounts msgSender addr interfaceHash implementer)
  let interfaces :=
    Function.update s.interfaces addr
      (Function.update (s.interfaces addr) interfaceHash implementer)
  return ⟨{ s with interfaces }, [.InterfaceImplementerSet addr interfaceHash implementer]⟩

/-! ## Runs of transactions -/

inductive Call
  | setInterfaceImplementer (addr : Address) (interfaceHash : Bytes 32) (implementer : Address)
  | setManager (addr newManager : Address)
  | updateERC165Cache (contract : Address) (interfaceId : Bytes 4)

structure Transaction where
  accounts : Accounts
  msgSender : Address
  call : Call

def exec (s : ERC1820Registry) (tx : Transaction) : Option Receipt :=
  match tx.call with
  | .setInterfaceImplementer addr interfaceHash implementer =>
    s.setInterfaceImplementer keccak256 tx.accounts tx.msgSender addr interfaceHash implementer
  | .setManager addr newManager => s.setManager tx.msgSender addr newManager
  | .updateERC165Cache contract interfaceId =>
    some ⟨s.updateERC165Cache tx.accounts contract interfaceId, []⟩

/-- A transaction that reverts leaves the storage as it was. -/
def step (s : ERC1820Registry) (tx : Transaction) : ERC1820Registry :=
  ((s.exec keccak256 tx).map Receipt.state).getD s

/-- The events that a transaction leaves in the log. -/
def logs (s : ERC1820Registry) (tx : Transaction) : List Event :=
  ((s.exec keccak256 tx).map Receipt.logs).getD []

def runs (s : ERC1820Registry) (txs : List Transaction) : ERC1820Registry :=
  txs.foldl (step keccak256) s

end

end ERC1820Registry

end Baseline
