import Baseline.Avail
import Baseline.JsonText
import Baseline.Objects
import Baseline.Privacy
import Baseline.Protocol
import Mathlib.Logic.Function.Basic

/-!
# The messages of a workgroup

What the participants of `base-example` send to each other over their NATS servers. Who accepts an
invite answers it with a `JOIN`, a supplier who is asked for its availability responds, and one who
is notified of its selection returns the proposal with a second signature. A handler runs up to
where it first waits when its message comes in, and each further stretch of it is a task; a task
whose wait is not fulfilled is dropped with what would have followed it.
-/

namespace Baseline

namespace Workgroup

open JsonText Jobs Protocol

/-- The values of the enums that the types package adds for the example, which are texts. -/
structure Types where
  /-- `Opcode.Availability`. -/
  availability : Str
  /-- `Intention.Request`. -/
  request : Str
  /-- `Intention.Response`. -/
  response : Str

/-- What a participant is configured with, and what its vault signs. -/
structure Participant where
  /-- `keys[2].address`. -/
  address : Str
  /-- `natsConfig.natsServers[0]`. -/
  natsServer : Str
  initiator : Bool
  /-- What `vendNatsAuthorization` gives. -/
  bearerToken : Str
  /-- The signature of a payload, with the key of `hdwallet`. -/
  signature : Str → Str
  /-- The signature of a message, with the key of `babyJubJub`. -/
  signMessage : Str → Str

/-- `invite.prvd.data.params`. -/
structure Invite where
  shield_contract_address : Str
  invitor_organization_address : Str
  authorized_bearer_token : Str
  workflow_identifier : Str

/-- What a handler still has to do after what it waits for. -/
inductive Task
  /-- A `JOIN`, once the endpoint of its address is resolved. -/
  | join (payload : Value)
  /-- A request for availability, once the first commit and the files are read. -/
  | answer (mj job : Value)
  /-- A notification, once the proposal is signed a second time. -/
  | doubleSigned (message proposal : Str) (signatures : List Value)
  /-- `sendProtocolMessage`, once the endpoint of the recipient is resolved. -/
  | send (recipient opcode : Str) (msg : Value)
  /-- `sendProtocolMessage`, once it is connected and the message is signed. -/
  | publish (messagingEndpoint recipient opcode : Str) (msg : Value)
  /-- `acceptWorkgroupInvite`, once the workgroup is created. -/
  | created (invite : Invite)
  /-- `acceptWorkgroupInvite`, once the endpoint of the invitor is resolved. -/
  | resolved (invite : Invite)
  /-- `acceptWorkgroupInvite`, once the organization is registered. -/
  | registered (invite : Invite)

/-- The state of a `ParticipantStack`, as far as messages go. -/
structure Stack where
  workgroup : Bool := false
  /-- `contracts["shield"].address`. -/
  shield : Option Str := none
  workflowIdentifier : Option Str := none
  workgroupCounterparties : List Str := []
  natsBearerTokens : List (Str × Str) := []
  availabilityData : List (Str × Value) := []
  protocolMessagesRx : ℕ := 0
  protocolMessagesTx : ℕ := 0
  tasks : List Task := []

def Stack.start (s : Stack) (task : Task) : Stack := { s with tasks := s.tasks ++ [task] }

/-! ## Texts and values -/

section Texts

mutual

/-- `String(value)`. -/
def toText : Value → Str
  | .string s => s
  | .array elements => joined elements
  | .object _ => Privacy.objectText
  | value => stringify value

/-- What `join` makes of the elements of an array. -/
def joined : List Value → Str
  | [] => []
  | [.null] => []
  | [element] => toText element
  | .null :: elements => ',' :: joined elements
  | element :: elements => toText element ++ ',' :: joined elements

end

/-- The text of a property that may be missing. -/
def templateText (value : Option Value) : Str := (value.map toText).getD "undefined".toList

def SupplierType.number : SupplierType → ℤ
  | .PORT => 1
  | .SPARE => 2
  | .TECHNICIAN => 3
  | .VESSEL => 4

/-- A supplier with the metadata of its request. -/
def fileStructure (timeWindow : ℤ × ℤ) (taskLength : ℕ) (supplier : FileStructure) : Value :=
  .object [("_type".toList, .number (SupplierType.number supplier.type)),
    ("_metaData".toList, .object [
      ("timeWindow".toList, .array [.number timeWindow.1, .number timeWindow.2]),
      ("taskLength".toList, .number taskLength)]),
    ("_content".toList, .object [
      ("supplierId".toList, .string supplier.content.supplierId),
      ("supplierCost".toList, .number supplier.content.supplierCost),
      ("supplierReputation".toList, .number supplier.content.supplierReputation),
      ("supplierAvailability".toList,
        .array (supplier.content.supplierAvailability.map fun day : ℕ => .number day))])]

/-- `job.tw` and `job.reqs.taskLength`, where they are integers. -/
def windowOf (job : Value) : Option ((ℤ × ℤ) × ℕ) := do
  let tw ← (job.get "tw".toList).bind Value.asArray
  let start ← tw[0]?.bind Value.asNumber
  let stop ← tw[1]?.bind Value.asNumber
  let reqs ← job.get "reqs".toList
  let taskLength ← (reqs.get "taskLength".toList).bind Value.asNumber
  if 0 ≤ taskLength then some ((start, stop), taskLength.toNat) else none

end Texts

section Payloads

variable (types : Types)

/-- An identifier that is undefined is left out of the text. -/
def joinPayload (me : Participant) (workflowIdentifier : Option Str) : Value :=
  .object (("address".toList, .string me.address)
    :: ("authorized_bearer_token".toList, .string me.bearerToken)
    :: (workflowIdentifier.map fun identifier =>
      ("workflow_identifier".toList, .string identifier)).toList)

/-- What `e2e.spec.ts` asks a supplier for. -/
def requestMJ (id date : Str) (job commitmentMeta : Value) : Value :=
  .object [("id".toList, .string id), ("date".toList, .string date),
    ("name".toList, .string "Avail-001".toList), ("intention".toList, .string types.request),
    ("mj".toList, .object [("data".toList, .string (stringify job))]),
    ("meta".toList, .object [("data".toList, .string (stringify commitmentMeta))])]

def responseMJ (id date : Str) (supplierAvail : Value) : Value :=
  .object [("id".toList, .string id), ("intention".toList, .string types.response),
    ("date".toList, .string date),
    ("availability".toList, .string (stringify supplierAvail))]

def mjPayload (mj : Value) : Value := .object [("MJ".toList, mj)]

def notifyPayload (selection : Value) : Value := .object [("NS".toList, selection)]

def returnPayload (proposal : Str) (signatures : List Value) : Value :=
  .object [("RN".toList, .object [("initSignedDoc".toList, .string proposal),
    ("signatureCollection".toList, .string (stringify (.array signatures)))])]

end Payloads

/-! ## What comes in -/

section Dispatch

variable (sha256 : List UInt8 → Bytes 32) (types : Types)

/-- The `MJ` branch up to where it waits. The `if` for a request assigns, and no value of the enum
is empty, so it always holds. -/
def dispatchMJ (s : Stack) (sender : Str) (mj : Value) : Stack :=
  if (mj.get "intention".toList).bind Value.asString = some types.response then
    match parse (templateText (mj.get "availability".toList)) with
    | some availability =>
      { s with availabilityData := Objects.set sender availability s.availabilityData }
    | none => s
  else
    let data (name : String) : Option Value :=
      (mj.get name.toList).bind fun value => parse (templateText (value.get "data".toList))
    match data "mj", data "meta", s.shield with
    | some job, some _, some _ => s.start (.answer mj job)
    | _, _, _ => s

/-- The `NS` branch up to where it waits, for a proposal and signatures that are strings. -/
def dispatchNS (s : Stack) (ns : Value) : Stack :=
  if (ns.get "status".toList).bind Value.asBoolean = some true then
    match (ns.get "proposal".toList).bind Value.asString,
        (ns.get "signatures".toList).bind Value.asArray with
    | some proposal, some signatures =>
      let signature := match signatures[0]?.bind Value.asString with
        | some signature => .string signature
        | none => .undefined
      match Privacy.concatenateThenHash sha256 [.string proposal, signature] with
      | some doubleSigned => s.start (.doubleSigned (doubleSigned.drop 2) proposal signatures)
      | none => s
    | _, _ => s
  else s

def dispatchProtocolMessage (s : Stack) (msg : Message) : Stack :=
  match parse (Utf8.decode msg.payload) with
  | none => s
  | some payload =>
    if msg.opcode = Opcode.join.value then s.start (.join payload)
    else if msg.opcode = types.availability then
      match payload.get "MJ".toList, payload.get "NS".toList with
      | some mj, _ => dispatchMJ types s msg.sender mj
      | none, some ns => dispatchNS sha256 s ns
      -- a returned proposal is only logged
      | none, none => s
    else s

/-- The callback of the subscription. -/
def receive (s : Stack) (data : List UInt8) : Stack :=
  dispatchProtocolMessage sha256 types { s with protocolMessagesRx := s.protocolMessagesRx + 1 }
    (unmarshalProtocolMessage data)

end Dispatch

/-! ## What is done later -/

/-- What a task finds. -/
structure Env where
  /-- What is waited for is fulfilled. -/
  fulfilled : Bool
  /-- The hash of the first of the commits, if there is one. -/
  firstLeaf : Option Str
  readdir : Str → Option (List (Option Str))
  /-- `new Date().toDateString()`. -/
  date : Str

/-- What a task does, beside what it does to its own stack. -/
structure Outcome where
  stack : Stack
  published : Option (Str × List UInt8) := none
  /-- Whether the participant's organization is registered. -/
  registers : Bool := false

section Perform

variable (sha256 : List UInt8 → Bytes 32) (types : Types) (organizations : Str → Option Str)

/-- The endpoint of an organization that is registered with one. -/
def resolveMessagingEndpoint (address : Str) : Option Str :=
  (organizations address).filter fun endpoint => endpoint ≠ []

/-- What the promise of a commitment is hashed to. -/
def commitmentHash : Option Str :=
  Privacy.concatenateThenHash sha256 [.string (stringify (.object []))]

def sendEach (s : Stack) (opcode : Str) (msg : Value) : Stack :=
  s.workgroupCounterparties.foldl (fun s recipient => s.start (.send recipient opcode msg)) s

/-- The message that `protocolMessageFactory` makes. -/
def protocolMessage (me : Participant) (recipient opcode shield identifier : Str) (msg : Value) :
    Message where
  opcode := opcode
  sender := me.address
  recipient := recipient
  shield := shield
  identifier := identifier
  signature := me.signature (stringify msg)
  type := some .text
  payload := Utf8.encode (stringify msg)

def performJoin (s : Stack) (payload : Value) : Stack :=
  match (payload.get "address".toList).bind Value.asString,
      (payload.get "authorized_bearer_token".toList).bind Value.asString with
  | some address, some token =>
    match resolveMessagingEndpoint organizations address with
    | some messagingEndpoint =>
      if address = [] ∨ token = [] then s
      else { s with
        workgroupCounterparties := s.workgroupCounterparties ++ [address]
        natsBearerTokens := Objects.set messagingEndpoint token s.natsBearerTokens }
    | none => s
  | _, _ => s

def performAnswer (env : Env) (s : Stack) (mj job : Value) : Stack :=
  if env.firstLeaf ≠ none ∧ env.firstLeaf = commitmentHash sha256 then
    match windowOf job with
    | some (timeWindow, taskLength) =>
      match Avail.requestAvailability env.readdir [.TECHNICIAN] timeWindow taskLength with
      | some (supplierAvail :: _) =>
        sendEach s types.availability (mjPayload (responseMJ types
          (templateText (mj.get "id".toList)) env.date
          (fileStructure timeWindow taskLength supplierAvail)))
      | _ => s
    | none => s
  else s

/-- A task that is not fulfilled has been dropped before. -/
def perform (me : Participant) (env : Env) (s : Stack) : Task → Outcome
  | .join payload => { stack := performJoin organizations s payload }
  | .answer mj job => { stack := performAnswer sha256 types env s mj job }
  | .doubleSigned message proposal signatures =>
    { stack := sendEach s types.availability
        (returnPayload proposal (signatures ++ [.string (me.signMessage message)])) }
  | .send recipient opcode msg =>
    match resolveMessagingEndpoint organizations recipient with
    | some messagingEndpoint =>
      match Objects.get messagingEndpoint s.natsBearerTokens with
      | some (_ :: _) => { stack := s.start (.publish messagingEndpoint recipient opcode msg) }
      | _ => { stack := s }
    | none => { stack := s }
  | .publish messagingEndpoint recipient opcode msg =>
    match s.shield, s.workflowIdentifier with
    | some shield, some identifier =>
      match marshalProtocolMessage
          (protocolMessage me recipient opcode shield identifier msg) with
      | some wiremsg =>
        { stack := { s with protocolMessagesTx := s.protocolMessagesTx + 1 }
          published := some (messagingEndpoint, wiremsg) }
      | none => { stack := s }
    | _, _ => { stack := s }
  | .created invite =>
    { stack := Stack.start { s with
        workgroup := true
        shield := some invite.shield_contract_address
        workgroupCounterparties :=
          s.workgroupCounterparties ++ [invite.invitor_organization_address] }
        (.resolved invite) }
  | .resolved invite =>
    match resolveMessagingEndpoint organizations invite.invitor_organization_address with
    | some messagingEndpoint =>
      { stack := Stack.start { s with
          natsBearerTokens :=
            Objects.set messagingEndpoint invite.authorized_bearer_token s.natsBearerTokens
          workflowIdentifier := some invite.workflow_identifier }
          (.registered invite) }
    | none => { stack := s }
  | .registered invite =>
    { stack := s.start (.send invite.invitor_organization_address Opcode.join.value
        (joinPayload me s.workflowIdentifier))
      registers := true }

end Perform

/-! ## The network -/

structure Network (ι : Type) where
  parties : ι → Stack
  /-- The messaging endpoints in the registry. -/
  organizations : Str → Option Str
  invites : List Invite
  /-- What has been published, each with its server. -/
  published : List (Str × List UInt8)

inductive Event (ι : Type)
  /-- `inviteWorkgroupParticipant`. -/
  | invite (i : ι)
  /-- `acceptWorkgroupInvite`, of one of the invites. -/
  | accept (i : ι) (k : ℕ)
  /-- A request for availability is sent. -/
  | request (i : ι) (supplier id date : Str) (job commitmentMeta : Value)
  /-- A notification of a selection is sent. -/
  | notify (i : ι) (supplier : Str) (selection : Value)
  /-- One of the messages reaches a participant, if it is on its server. -/
  | deliver (i : ι) (k : ℕ)
  | perform (i : ι) (k : ℕ) (env : Env)

section Steps

variable {ι : Type} [DecidableEq ι] (sha256 : List UInt8 → Bytes 32) (types : Types)
  (participants : ι → Participant)

def Network.setStack (n : Network ι) (i : ι) (s : Stack) : Network ι :=
  { n with parties := Function.update n.parties i s }

def Network.apply (n : Network ι) (i : ι) (me : Participant) (outcome : Outcome) : Network ι :=
  { n.setStack i outcome.stack with
    published := n.published ++ outcome.published.toList
    organizations :=
      if outcome.registers then
        Function.update n.organizations me.address (some me.natsServer)
      else n.organizations }

/-- The workgroup, its token and the organization of a stack that has accepted are set before
anything else is. -/
def acceptWorkgroupInvite (me : Participant) (s : Stack) (invite : Invite) : Stack :=
  if s.workgroup ∨ me.initiator then s else s.start (.created invite)

/-- The invite of a participant whose contracts are deployed. -/
def inviteWorkgroupParticipant (me : Participant) (s : Stack) : Option Invite :=
  match s.shield, s.workflowIdentifier with
  | some shield, some identifier =>
    some { shield_contract_address := shield
           invitor_organization_address := me.address
           authorized_bearer_token := me.bearerToken
           workflow_identifier := identifier }
  | _, _ => none

def performTask (n : Network ι) (i : ι) (k : ℕ) (env : Env) : Network ι :=
  match (n.parties i).tasks[k]? with
  | none => n
  | some task =>
    let s := { n.parties i with tasks := (n.parties i).tasks.eraseIdx k }
    if env.fulfilled then
      n.apply i (participants i) (perform sha256 types n.organizations (participants i) env s task)
    else n.setStack i s

def step (n : Network ι) : Event ι → Network ι
  | .invite i =>
    { n with invites := n.invites ++
        (inviteWorkgroupParticipant (participants i) (n.parties i)).toList }
  | .accept i k =>
    match n.invites[k]? with
    | some invite => n.setStack i (acceptWorkgroupInvite (participants i) (n.parties i) invite)
    | none => n
  | .request i supplier id date job commitmentMeta =>
    n.setStack i ((n.parties i).start (.send supplier types.availability
      (mjPayload (requestMJ types id date job commitmentMeta))))
  | .notify i supplier selection =>
    n.setStack i ((n.parties i).start (.send supplier types.availability
      (notifyPayload selection)))
  | .deliver i k =>
    match n.published[k]? with
    | some (server, data) =>
      if server = (participants i).natsServer then
        n.setStack i (receive sha256 types (n.parties i) data)
      else n
    | none => n
  | .perform i k env => performTask sha256 types participants n i k env

def runs (n : Network ι) (events : List (Event ι)) : Network ι :=
  events.foldl (step sha256 types participants) n

end Steps

end Workgroup

end Baseline
