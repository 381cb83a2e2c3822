import Baseline.Workgroup
import Baseline.Proofs.Avail
import Baseline.Proofs.Protocol

/-!
# What a workgroup's messages lead to

The texts that a message carries are read back (`unmarshal_marshal`), so what comes in has been
sent by who it names (`NetworkOk`, kept by every event in `NetworkOk.step`). An initiator's
suppliers are therefore the ones that have answered what they were asked
(`getAvailableSuppliers_runs`), and no message or token is on a server that it is not for
(`messages_runs`). Nothing that is outstanding stands in the way of an invite (`handshake`) or a
request (`request_answered`).
-/

namespace Baseline

namespace Workgroup

open JsonText Jobs Allign Protocol Utf8

/-! ## On the wire -/

section Wire

variable {msg : Message}

theorem decode_wire_opcode (hopcode : Ascii msg.opcode) (hlen : msg.opcode.length ≤ 5)
    (hnul : '\x00' ∉ msg.opcode) :
    (decode (subarray (wire msg .text) 0 5)).filter (· ≠ '\x00') = msg.opcode := by
  have hsplit : writes (alloc (296 + msg.payload.length)) (places msg .text)
      = writes (write (alloc (296 + msg.payload.length)) msg.opcode 0)
          ((places msg .text).drop 1) := by
    simp only [writes, places, List.foldl_cons, List.drop_succ_cons, List.drop_zero]
  have hbytes : (write (alloc (296 + msg.payload.length)) msg.opcode 0).take 5
      = bytesOf (msg.opcode ++ List.replicate (5 - msg.opcode.length) '\x00') :=
    WellFormed.take_write_zero hopcode hlen (by omega)
  have hascii : Ascii (msg.opcode ++ List.replicate (5 - msg.opcode.length) '\x00') := by
    intro c hc
    rcases List.mem_append.1 hc with hc | hc
    · exact hopcode c hc
    · rw [List.eq_of_mem_replicate hc]
      decide
  have hkeep : msg.opcode.filter (· ≠ '\x00') = msg.opcode := by
    refine List.filter_eq_self.2 fun c hc => decide_eq_true ?_
    rintro rfl
    exact hnul hc
  have hzeros : ∀ n, (List.replicate n '\x00').filter (· ≠ '\x00') = [] := by
    intro n
    rw [List.filter_replicate]
    rfl
  unfold wire
  rw [subarray_write _ _ (by omega), hsplit, subarray_writes _ _ (by simp [places])]
  unfold subarray
  rw [List.drop_zero, hbytes, decode_bytesOf hascii, List.filter_append, hkeep, hzeros,
    List.append_nil]

theorem decode_wire_sender (hsender : Ascii msg.sender) (hlen : msg.sender.length = 42) :
    decode (subarray (wire msg .text) 5 47) = msg.sender := by
  have hsplit : places msg .text
      = [(msg.opcode, 0)] ++ (msg.sender, 5) :: (places msg .text).drop 2 := rfl
  unfold wire
  rw [hsplit, decode_place _ hsender (by rw [length_alloc]; omega) (by omega) (by simp [places])
    (by omega) (by omega), List.take_of_length_le (by omega)]

theorem decode_wire_payload {text : Str} (hpayload : msg.payload = encode text) :
    decode ((wire msg .text).drop 296) = text := by
  unfold wire
  rw [drop_write _ _ (by rw [length_writes, length_alloc]; omega), length_writes, length_alloc,
    payloadText, hpayload, decode_encode, encodeWithin_eq_encode text (by omega),
    List.drop_eq_nil_of_le, List.append_nil, decode_encode]
  rw [List.length_drop, length_writes, length_alloc]
  omega

/-- The opcode, the sender and the payload are read back, whatever the other texts are. -/
theorem unmarshal_marshal (htype : msg.type = some .text) (hopcode : Ascii msg.opcode)
    (hlen : msg.opcode.length ≤ 5) (hnul : '\x00' ∉ msg.opcode) (hsender : Ascii msg.sender)
    (hsender' : msg.sender.length = 42) {text : Str} (hpayload : msg.payload = encode text) :
    ∃ wiremsg, marshalProtocolMessage msg = some wiremsg ∧
      (unmarshalProtocolMessage wiremsg).opcode = msg.opcode ∧
      (unmarshalProtocolMessage wiremsg).sender = msg.sender ∧
      decode (unmarshalProtocolMessage wiremsg).payload = text := by
  have hop := decode_wire_opcode hopcode hlen hnul
  have hfrom := decode_wire_sender hsender hsender'
  have hdata := decode_wire_payload hpayload
  refine ⟨wire msg .text, marshal_eq htype, ?_⟩
  unfold unmarshalProtocolMessage
  simp only [messageReservedBitsLength, Nat.reduceAdd, Nat.reduceDiv]
  exact ⟨hop, hfrom, hdata⟩

end Wire

/-- The enum values fit the wire and are told apart. -/
structure Types.WellFormed (types : Types) : Prop where
  ascii : Ascii types.availability
  fits : types.availability.length ≤ 5
  no_nul : '\x00' ∉ types.availability
  ne_join : types.availability ≠ Opcode.join.value
  ne_response : types.request ≠ types.response

/-! ## Suppliers as values -/

theorem address_joinPayload (me : Participant) (identifier : Option Str) :
    ((joinPayload me identifier).get "address".toList).bind Value.asString = some me.address := by
  cases identifier <;> rfl

theorem bearerToken_joinPayload (me : Participant) (identifier : Option Str) :
    ((joinPayload me identifier).get "authorized_bearer_token".toList).bind Value.asString
      = some me.bearerToken := by
  cases identifier <;> rfl

/-! ## What comes in -/

section Dispatch

variable {sha256 : List UInt8 → Bytes 32} {types : Types} (s : Stack) {msg : Message}

theorem dispatch_join (hopcode : msg.opcode = Opcode.join.value) {payload : Value}
    (htext : decode msg.payload = stringify payload) :
    dispatchProtocolMessage sha256 types s msg = s.start (.join payload) := by
  simp only [dispatchProtocolMessage, htext, parse_stringify]
  rw [if_pos hopcode]

section Availability

variable (htypes : types.WellFormed) (hopcode : msg.opcode = types.availability)

include htypes hopcode

theorem dispatch_mj {mj : Value} (htext : decode msg.payload = stringify (mjPayload mj)) :
    dispatchProtocolMessage sha256 types s msg = dispatchMJ types s msg.sender mj := by
  have hmj : (mjPayload mj).get "MJ".toList = some mj := rfl
  simp only [dispatchProtocolMessage, htext, parse_stringify, hmj]
  rw [if_neg (hopcode ▸ htypes.ne_join), if_pos hopcode]

theorem dispatch_ns {ns : Value} (htext : decode msg.payload = stringify (notifyPayload ns)) :
    dispatchProtocolMessage sha256 types s msg = dispatchNS sha256 s ns := by
  have hmj : (notifyPayload ns).get "MJ".toList = none := rfl
  have hns : (notifyPayload ns).get "NS".toList = some ns := rfl
  simp only [dispatchProtocolMessage, htext, parse_stringify, hmj, hns]
  rw [if_neg (hopcode ▸ htypes.ne_join), if_pos hopcode]

theorem dispatch_rn {proposal : Str} {signatures : List Value}
    (htext : decode msg.payload = stringify (returnPayload proposal signatures)) :
    dispatchProtocolMessage sha256 types s msg = s := by
  have hmj : (returnPayload proposal signatures).get "MJ".toList = none := rfl
  have hns : (returnPayload proposal signatures).get "NS".toList = none := rfl
  simp only [dispatchProtocolMessage, htext, parse_stringify, hmj, hns]
  rw [if_neg (hopcode ▸ htypes.ne_join), if_pos hopcode]

end Availability

theorem dispatchMJ_request (htypes : types.WellFormed) (sender id date : Str)
    (job commitmentMeta : Value) :
    dispatchMJ types s sender (requestMJ types id date job commitmentMeta)
      = if s.shield.isSome then
          s.start (.answer (requestMJ types id date job commitmentMeta) job) else s := by
  have hintention : ((requestMJ types id date job commitmentMeta).get "intention".toList).bind
      Value.asString = some types.request := rfl
  have hjob : (requestMJ types id date job commitmentMeta).get "mj".toList
      = some (.object [("data".toList, .string (stringify job))]) := rfl
  have hmeta : (requestMJ types id date job commitmentMeta).get "meta".toList
      = some (.object [("data".toList, .string (stringify commitmentMeta))]) := rfl
  have hdata : ∀ v : Value, parse (templateText ((Value.object [("data".toList,
      .string (stringify v))]).get "data".toList)) = some v := parse_stringify
  unfold dispatchMJ
  rw [hintention, if_neg fun h => htypes.ne_response (Option.some.inj h)]
  simp only [hjob, hmeta, Option.bind_some, hdata]
  cases s.shield with
  | none => rfl
  | some shield => rfl

theorem dispatchMJ_response (sender id date : Str) (supplierAvail : Value) :
    dispatchMJ types s sender (responseMJ types id date supplierAvail)
      = { s with availabilityData := Objects.set sender supplierAvail s.availabilityData } := by
  have hintention : ((responseMJ types id date supplierAvail).get "intention".toList).bind
      Value.asString = some types.response := rfl
  have havailability : parse (templateText ((responseMJ types id date supplierAvail).get
      "availability".toList)) = some supplierAvail := parse_stringify supplierAvail
  unfold dispatchMJ
  rw [hintention, if_pos rfl, havailability]

end Dispatch

/-! ## What is sent, and by whom -/

section Senders

variable {ι : Type} (types : Types) (participants : ι → Participant)

/-- Addresses are 42 letters, figures and such, and everyone has another. -/
structure Addressed : Prop where
  ascii : ∀ j, Ascii (participants j).address
  length : ∀ j, (participants j).address.length = 42
  distinct : ∀ j k, (participants j).address = (participants k).address → j = k

/-- An address is of a participant on the server. -/
def Serves (server address : Str) : Prop :=
  ∃ j, (participants j).address = address ∧ (participants j).natsServer = server

/-- Someone on the server has been sent a request for the job. -/
def Asked (events : List (Event ι)) (server : Str) (job : Value) : Prop :=
  ∃ i supplier id date commitmentMeta,
    Event.request i supplier id date job commitmentMeta ∈ events ∧
      Serves participants server supplier

/-- The first technician of a participant's files, for a job that was asked for on its server. -/
def Given (events : List (Event ι)) (j : ι) (supplierAvail : Value) : Prop :=
  ∃ job timeWindow taskLength readdir supplier rest,
    Asked participants events (participants j).natsServer job ∧
      windowOf job = some (timeWindow, taskLength) ∧
      Avail.requestAvailability readdir [.TECHNICIAN] timeWindow taskLength
        = some (supplier :: rest) ∧
      supplierAvail = fileStructure timeWindow taskLength supplier

/-- What a participant sends to a recipient under an opcode. -/
inductive Sent (events : List (Event ι)) (j : ι) (recipient : Str) : Str → Value → Prop
  | join (identifier : Option Str) :
    Sent events j recipient Opcode.join.value (joinPayload (participants j) identifier)
  | request {id date : Str} {job commitmentMeta : Value} :
    Event.request j recipient id date job commitmentMeta ∈ events →
    Sent events j recipient types.availability
      (mjPayload (requestMJ types id date job commitmentMeta))
  | response (id date : Str) {supplierAvail : Value} : Given participants events j supplierAvail →
    Sent events j recipient types.availability
      (mjPayload (responseMJ types id date supplierAvail))
  | notify (selection : Value) :
    Sent events j recipient types.availability (notifyPayload selection)
  | returned (proposal : Str) (signatures : List Value) :
    Sent events j recipient types.availability (returnPayload proposal signatures)

/-- An invite names its invitor and has a token of its. -/
def Invite.IsOf (invite : Invite) (j : ι) : Prop :=
  invite.invitor_organization_address = (participants j).address ∧
    invite.authorized_bearer_token = (participants j).bearerToken

/-- What a task goes on with. -/
def TaskOk (events : List (Event ι)) (i : ι) : Task → Prop
  | .join payload => ∃ j identifier, payload = joinPayload (participants j) identifier
  | .answer _ job => Asked participants events (participants i).natsServer job
  | .doubleSigned _ _ _ => True
  | .send recipient opcode msg => Sent types participants events i recipient opcode msg
  | .publish messagingEndpoint recipient opcode msg =>
    Sent types participants events i recipient opcode msg ∧
      Serves participants messagingEndpoint recipient
  | .created invite | .resolved invite | .registered invite => ∃ j, invite.IsOf participants j

/-- A message that has been published on a server. -/
def WireOk (events : List (Event ι)) (p : Str × List UInt8) : Prop :=
  ∃ j recipient opcode msg, Sent types participants events j recipient opcode msg ∧
    Serves participants p.1 recipient ∧
    (unmarshalProtocolMessage p.2).opcode = opcode ∧
    (unmarshalProtocolMessage p.2).sender = (participants j).address ∧
    decode (unmarshalProtocolMessage p.2).payload = stringify msg

structure StackOk (events : List (Event ι)) (i : ι) (s : Stack) : Prop where
  tasks : ∀ task ∈ s.tasks, TaskOk types participants events i task
  counterparties : ∀ address ∈ s.workgroupCounterparties, ∃ j, (participants j).address = address
  tokens : ∀ p ∈ s.natsBearerTokens, p.1 = (participants i).natsServer ∨
    ∃ j, (participants j).natsServer = p.1 ∧ (participants j).bearerToken = p.2
  availability : ∀ p ∈ s.availabilityData, ∃ j, (participants j).address = p.1 ∧
    Given participants events j p.2
  senders : (s.availabilityData.map Prod.fst).Nodup

structure NetworkOk (events : List (Event ι)) (n : Network ι) : Prop where
  parties : ∀ i, StackOk types participants events i (n.parties i)
  organizations : ∀ address server, n.organizations address = some server →
    Serves participants server address
  invites : ∀ invite ∈ n.invites, ∃ j, invite.IsOf participants j
  published : ∀ p ∈ n.published, WireOk types participants events p

section Mono

variable {types participants} {events events' : List (Event ι)} (hsub : events ⊆ events')

include hsub

theorem Asked.mono {server : Str} {job : Value} (h : Asked participants events server job) :
    Asked participants events' server job := by
  obtain ⟨i, supplier, id, date, commitmentMeta, hmem, hserves⟩ := h
  exact ⟨i, supplier, id, date, commitmentMeta, hsub hmem, hserves⟩

theorem Given.mono {j : ι} {supplierAvail : Value} (h : Given participants events j supplierAvail) :
    Given participants events' j supplierAvail := by
  obtain ⟨job, timeWindow, taskLength, readdir, supplier, rest, hasked, hgiven⟩ := h
  exact ⟨job, timeWindow, taskLength, readdir, supplier, rest, hasked.mono hsub, hgiven⟩

theorem Sent.mono {j : ι} {recipient opcode : Str} {msg : Value}
    (h : Sent types participants events j recipient opcode msg) :
    Sent types participants events' j recipient opcode msg := by
  cases h with
  | join identifier => exact .join identifier
  | request hmem => exact .request (hsub hmem)
  | response id date hgiven => exact .response id date (hgiven.mono hsub)
  | notify selection => exact .notify selection
  | returned proposal signatures => exact .returned proposal signatures

theorem TaskOk.mono {i : ι} {task : Task} (h : TaskOk types participants events i task) :
    TaskOk types participants events' i task := by
  cases task with
  | join payload => exact h
  | answer mj job => exact Asked.mono hsub h
  | doubleSigned message proposal signatures => trivial
  | send recipient opcode msg => exact Sent.mono hsub h
  | publish messagingEndpoint recipient opcode msg => exact ⟨h.1.mono hsub, h.2⟩
  | created invite => exact h
  | resolved invite => exact h
  | registered invite => exact h

theorem StackOk.mono {i : ι} {s : Stack} (h : StackOk types participants events i s) :
    StackOk types participants events' i s where
  tasks task htask := (h.tasks task htask).mono hsub
  counterparties := h.counterparties
  tokens := h.tokens
  availability p hp := by
    obtain ⟨j, hj, hgiven⟩ := h.availability p hp
    exact ⟨j, hj, hgiven.mono hsub⟩
  senders := h.senders

theorem NetworkOk.mono {n : Network ι} (h : NetworkOk types participants events n) :
    NetworkOk types participants events' n where
  parties i := (h.parties i).mono hsub
  organizations := h.organizations
  invites := h.invites
  published p hp := by
    obtain ⟨j, recipient, opcode, msg, hsent, hwire⟩ := h.published p hp
    exact ⟨j, recipient, opcode, msg, hsent.mono hsub, hwire⟩

end Mono

end Senders

/-! ## Stacks -/

section Stacks

variable {ι : Type} {sha256 : List UInt8 → Bytes 32} {types : Types}
  {participants : ι → Participant} {events : List (Event ι)} {i : ι} {s : Stack}

theorem StackOk.start (h : StackOk types participants events i s) {task : Task}
    (htask : TaskOk types participants events i task) :
    StackOk types participants events i (s.start task) where
  tasks t ht := by
    rcases List.mem_append.1 ht with ht | ht
    · exact h.tasks t ht
    · rw [List.mem_singleton.1 ht]
      exact htask
  counterparties := h.counterparties
  tokens := h.tokens
  availability := h.availability
  senders := h.senders

theorem StackOk.sendEach (h : StackOk types participants events i s) {opcode : Str} {msg : Value}
    (hsent : ∀ recipient, Sent types participants events i recipient opcode msg) :
    StackOk types participants events i (Workgroup.sendEach s opcode msg) := by
  unfold Workgroup.sendEach
  generalize s.workgroupCounterparties = recipients
  induction recipients generalizing s with
  | nil => exact h
  | cons recipient recipients ih =>
    exact ih (h.start (show TaskOk types participants events i (.send recipient opcode msg) from
      hsent recipient))

theorem StackOk.dispatchNS (h : StackOk types participants events i s) (ns : Value) :
    StackOk types participants events i (Workgroup.dispatchNS sha256 s ns) := by
  unfold Workgroup.dispatchNS
  split
  · split
    · dsimp only
      split
      · exact h.start trivial
      · exact h
    · exact h
  · exact h

/-- What comes in on a participant's own server. -/
theorem StackOk.receive (htypes : types.WellFormed) (h : StackOk types participants events i s)
    {data : List UInt8}
    (hwire : WireOk types participants events ((participants i).natsServer, data)) :
    StackOk types participants events i (Workgroup.receive sha256 types s data) := by
  obtain ⟨j, recipient, opcode, msg, hsent, hserves, hopcode, hsender, htext⟩ := hwire
  have h' : StackOk types participants events i
      { s with protocolMessagesRx := s.protocolMessagesRx + 1 } :=
    ⟨h.tasks, h.counterparties, h.tokens, h.availability, h.senders⟩
  unfold Workgroup.receive
  cases hsent with
  | join identifier =>
    rw [dispatch_join _ hopcode htext]
    exact h'.start ⟨j, identifier, rfl⟩
  | request hmem =>
    rw [dispatch_mj _ htypes hopcode htext, dispatchMJ_request _ htypes]
    split_ifs
    · exact h'.start ⟨j, recipient, _, _, _, hmem, hserves⟩
    · exact h'
  | response id date hgiven =>
    rw [dispatch_mj _ htypes hopcode htext, dispatchMJ_response, hsender]
    refine ⟨h'.tasks, h'.counterparties, h'.tokens, fun p hp => ?_, Objects.nodup_set h'.senders⟩
    rcases Objects.mem_set hp with rfl | hp
    · exact ⟨j, rfl, hgiven⟩
    · exact h'.availability p hp
  | notify selection =>
    rw [dispatch_ns _ htypes hopcode htext]
    exact h'.dispatchNS selection
  | returned proposal signatures =>
    rw [dispatch_rn _ htypes hopcode htext]
    exact h'

theorem Sent.opcode (htypes : types.WellFormed) {recipient opcode : Str} {msg : Value}
    (h : Sent types participants events i recipient opcode msg) :
    Ascii opcode ∧ opcode.length ≤ 5 ∧ '\x00' ∉ opcode := by
  cases h with
  | join identifier => exact ⟨by decide, by decide, by decide⟩
  | request hmem => exact ⟨htypes.ascii, htypes.fits, htypes.no_nul⟩
  | response id date hgiven => exact ⟨htypes.ascii, htypes.fits, htypes.no_nul⟩
  | notify selection => exact ⟨htypes.ascii, htypes.fits, htypes.no_nul⟩
  | returned proposal signatures => exact ⟨htypes.ascii, htypes.fits, htypes.no_nul⟩

theorem protocolMessage_type (me : Participant) (recipient opcode shield identifier : Str)
    (msg : Value) :
    (protocolMessage me recipient opcode shield identifier msg).type = some .text := rfl

section Perform

variable {organizations : Str → Option Str}

variable (haddressed : Addressed participants)
  (horganizations : ∀ address server, organizations address = some server →
    Serves participants server address)

include haddressed horganizations

/-- Who is resolved to a server is on it. -/
theorem natsServer_of_resolve {j : ι} {messagingEndpoint : Str}
    (h : resolveMessagingEndpoint organizations (participants j).address
      = some messagingEndpoint) :
    (participants j).natsServer = messagingEndpoint := by
  obtain ⟨k, haddress, hserver⟩ :=
    horganizations _ _ (Option.filter_eq_some_iff.1 h).1
  rw [← haddressed.distinct k j haddress, hserver]

theorem StackOk.setToken (h : StackOk types participants events i s) {j : ι}
    {messagingEndpoint : Str}
    (hresolve : resolveMessagingEndpoint organizations (participants j).address
      = some messagingEndpoint) :
    ∀ p ∈ Objects.set messagingEndpoint (participants j).bearerToken s.natsBearerTokens,
      p.1 = (participants i).natsServer ∨
        ∃ j, (participants j).natsServer = p.1 ∧ (participants j).bearerToken = p.2 := by
  intro p hp
  rcases Objects.mem_set hp with rfl | hp
  · exact .inr ⟨j, natsServer_of_resolve haddressed horganizations hresolve, rfl⟩
  · exact h.tokens p hp

theorem StackOk.performJoin (h : StackOk types participants events i s) (j : ι)
    (identifier : Option Str) :
    StackOk types participants events i
      (Workgroup.performJoin organizations s (joinPayload (participants j) identifier)) := by
  unfold Workgroup.performJoin
  rw [address_joinPayload, bearerToken_joinPayload]
  dsimp only
  split
  · rename_i messagingEndpoint hresolve
    split_ifs
    · exact h
    · refine ⟨h.tasks, fun address hmem => ?_, h.setToken haddressed horganizations hresolve,
        h.availability, h.senders⟩
      rcases List.mem_append.1 hmem with hmem | hmem
      · exact h.counterparties address hmem
      · exact ⟨j, (List.mem_singleton.1 hmem).symm⟩
  · exact h

omit haddressed horganizations in
theorem StackOk.performAnswer (h : StackOk types participants events i s) {env : Env}
    {mj job : Value} (hasked : Asked participants events (participants i).natsServer job) :
    StackOk types participants events i
      (Workgroup.performAnswer sha256 types env s mj job) := by
  unfold Workgroup.performAnswer
  split_ifs
  · split
    · rename_i timeWindow taskLength hwindow
      split
      · rename_i supplier rest hrequest
        exact h.sendEach fun recipient => .response _ _
          ⟨job, timeWindow, taskLength, env.readdir, supplier, rest, hasked, hwindow, hrequest, rfl⟩
      · exact h
    · exact h
  · exact h

variable (sha256) in
/-- What a task leads to. -/
theorem StackOk.perform (htypes : types.WellFormed)
    (h : StackOk types participants events i s) {task : Task}
    (htask : TaskOk types participants events i task) (env : Env) :
    StackOk types participants events i
        (Workgroup.perform sha256 types organizations (participants i) env s task).stack ∧
      ∀ p ∈ (Workgroup.perform sha256 types organizations (participants i) env s task).published,
        WireOk types participants events p := by
  cases task with
  | join payload =>
    obtain ⟨j, identifier, rfl⟩ := htask
    exact ⟨h.performJoin haddressed horganizations j identifier, by rintro p ⟨⟩⟩
  | answer mj job => exact ⟨h.performAnswer htask, by rintro p ⟨⟩⟩
  | doubleSigned message proposal signatures =>
    exact ⟨h.sendEach fun recipient => .returned _ _, by rintro p ⟨⟩⟩
  | send recipient opcode msg =>
    unfold Workgroup.perform
    dsimp only
    split
    · rename_i messagingEndpoint hresolve
      have hserves := horganizations _ _ (Option.filter_eq_some_iff.1 hresolve).1
      split
      · exact ⟨h.start ⟨htask, hserves⟩, by rintro p ⟨⟩⟩
      · exact ⟨h, by rintro p ⟨⟩⟩
    · exact ⟨h, by rintro p ⟨⟩⟩
  | publish messagingEndpoint recipient opcode msg =>
    obtain ⟨hsent, hserves⟩ := htask
    obtain ⟨hascii, hfits, hnul⟩ := hsent.opcode htypes
    unfold Workgroup.perform
    dsimp only
    split
    · rename_i shield identifier hshield hidentifier
      obtain ⟨wiremsg, hmarshal, hopcode, hsender, htext⟩ := unmarshal_marshal
        (protocolMessage_type (participants i) recipient opcode shield identifier msg) hascii hfits
        hnul (haddressed.ascii i) (haddressed.length i) rfl
      rw [hmarshal]
      refine ⟨⟨h.tasks, h.counterparties, h.tokens, h.availability, h.senders⟩, ?_⟩
      rintro p ⟨⟩
      exact ⟨i, recipient, opcode, msg, hsent, hserves, hopcode, hsender, htext⟩
    · exact ⟨h, by rintro p ⟨⟩⟩
  | created invite =>
    obtain ⟨j, hinvite⟩ := htask
    have hnext : TaskOk types participants events i (.resolved invite) := ⟨j, hinvite⟩
    refine ⟨StackOk.start ?_ hnext, by rintro p ⟨⟩⟩
    refine ⟨h.tasks, fun address hmem => ?_, h.tokens, h.availability, h.senders⟩
    rcases List.mem_append.1 hmem with hmem | hmem
    · exact h.counterparties address hmem
    · exact ⟨j, hinvite.1.symm.trans (List.mem_singleton.1 hmem).symm⟩
  | resolved invite =>
    obtain ⟨j, hinvite⟩ := htask
    unfold Workgroup.perform
    dsimp only
    split
    · rename_i messagingEndpoint hresolve
      rw [hinvite.1] at hresolve
      rw [hinvite.2]
      have hnext : TaskOk types participants events i (.registered invite) := ⟨j, hinvite⟩
      refine ⟨StackOk.start ?_ hnext, by rintro p ⟨⟩⟩
      exact ⟨h.tasks, h.counterparties, h.setToken haddressed horganizations hresolve,
        h.availability, h.senders⟩
    · exact ⟨h, by rintro p ⟨⟩⟩
  | registered invite =>
    exact ⟨h.start (.join s.workflowIdentifier), by rintro p ⟨⟩⟩

end Perform

end Stacks

/-! ## Runs -/

section Runs

variable {ι : Type} [DecidableEq ι] {sha256 : List UInt8 → Bytes 32} {types : Types}
  {participants : ι → Participant} {events : List (Event ι)} {n : Network ι}

theorem NetworkOk.setStack (h : NetworkOk types participants events n) {i : ι} {s : Stack}
    (hs : StackOk types participants events i s) :
    NetworkOk types participants events (n.setStack i s) where
  parties j := by
    by_cases hj : j = i
    · subst hj
      simpa [Network.setStack] using hs
    · simpa [Network.setStack, hj] using h.parties j
  organizations := h.organizations
  invites := h.invites
  published := h.published

omit [DecidableEq ι] in
theorem invite_isOf {me : ι} {s : Stack} {invite : Invite}
    (h : inviteWorkgroupParticipant (participants me) s = some invite) :
    invite.IsOf participants me := by
  unfold inviteWorkgroupParticipant at h
  split at h
  · obtain rfl := Option.some.inj h
    exact ⟨rfl, rfl⟩
  · exact nomatch h

theorem NetworkOk.apply (h : NetworkOk types participants events n) {i : ι} {outcome : Outcome}
    (hstack : StackOk types participants events i outcome.stack)
    (hpublished : ∀ p ∈ outcome.published, WireOk types participants events p) :
    NetworkOk types participants events (n.apply i (participants i) outcome) where
  parties := (h.setStack hstack).parties
  organizations address server horganization := by
    dsimp only [Network.apply] at horganization
    split_ifs at horganization
    · by_cases haddress : address = (participants i).address
      · rw [haddress, Function.update_self] at horganization
        exact ⟨i, haddress.symm, Option.some.inj horganization⟩
      · rw [Function.update_of_ne haddress] at horganization
        exact h.organizations address server horganization
    · exact h.organizations address server horganization
  invites := h.invites
  published p hp := by
    rcases List.mem_append.1 hp with hp | hp
    · exact h.published p hp
    · exact hpublished p (Option.mem_toList.1 hp)

theorem NetworkOk.performTask (haddressed : Addressed participants) (htypes : types.WellFormed)
    (h : NetworkOk types participants events n) (i : ι) (k : ℕ) (env : Env) :
    NetworkOk types participants events
      (Workgroup.performTask sha256 types participants n i k env) := by
  unfold Workgroup.performTask
  split
  · exact h
  · rename_i task htask
    have hs := h.parties i
    have hdropped : StackOk types participants events i
        { n.parties i with tasks := (n.parties i).tasks.eraseIdx k } :=
      ⟨fun t ht => hs.tasks t (List.mem_of_mem_eraseIdx ht), hs.counterparties, hs.tokens,
        hs.availability, hs.senders⟩
    dsimp only
    split_ifs with hfulfilled
    · obtain ⟨hstack, hpublished⟩ := hdropped.perform sha256 haddressed
        h.organizations htypes (hs.tasks task (List.mem_of_getElem? htask)) env
      exact h.apply hstack hpublished
    · exact h.setStack hdropped

variable (sha256) in
/-- What one event leads to. -/
theorem NetworkOk.step (haddressed : Addressed participants) (htypes : types.WellFormed)
    (h : NetworkOk types participants events n) (event : Event ι) :
    NetworkOk types participants (events ++ [event])
      (Workgroup.step sha256 types participants n event) := by
  have hmem : event ∈ events ++ [event] := List.mem_append_right _ (List.mem_singleton.2 rfl)
  replace h := h.mono (List.subset_append_left events [event])
  cases event with
  | invite i =>
    refine ⟨h.parties, h.organizations, fun invite hinvite => ?_, h.published⟩
    rcases List.mem_append.1 hinvite with hinvite | hinvite
    · exact h.invites invite hinvite
    · exact ⟨i, invite_isOf (Option.mem_toList.1 hinvite)⟩
  | accept i k =>
    unfold Workgroup.step
    dsimp only
    split
    · rename_i invite hinvite
      refine h.setStack ?_
      unfold acceptWorkgroupInvite
      split_ifs
      · exact h.parties i
      · exact (h.parties i).start (h.invites invite (List.mem_of_getElem? hinvite))
    · exact h
  | request i supplier id date job commitmentMeta =>
    exact h.setStack ((h.parties i).start (Sent.request hmem))
  | notify i supplier selection =>
    exact h.setStack ((h.parties i).start (Sent.notify selection))
  | deliver i k =>
    unfold Workgroup.step
    dsimp only
    split
    · rename_i server data hdata
      split_ifs with hserver
      · subst hserver
        exact h.setStack ((h.parties i).receive htypes
          (h.published _ (List.mem_of_getElem? hdata)))
      · exact h
    · exact h
  | perform i k env => exact h.performTask haddressed htypes i k env

variable (sha256) in
theorem NetworkOk.runs (haddressed : Addressed participants) (htypes : types.WellFormed) :
    ∀ (later : List (Event ι)) {events : List (Event ι)} {n : Network ι},
      NetworkOk types participants events n →
      NetworkOk types participants (events ++ later)
        (Workgroup.runs sha256 types participants n later)
  | [], _, _, h => by rwa [List.append_nil]
  | event :: later, events, n, h => by
    have hstep := h.step sha256 haddressed htypes event
    have hrest := NetworkOk.runs haddressed htypes later hstep
    rwa [List.append_assoc] at hrest

variable (participants n) in
/-- Nothing has been sent yet: what is known is the organizations that are registered, and a
participant's own token. -/
structure Fresh : Prop where
  tasks : ∀ i, (n.parties i).tasks = []
  counterparties : ∀ i, (n.parties i).workgroupCounterparties = []
  tokens : ∀ i, ∀ p ∈ (n.parties i).natsBearerTokens, p.1 = (participants i).natsServer
  availability : ∀ i, (n.parties i).availabilityData = []
  organizations : ∀ address server, n.organizations address = some server →
    Serves participants server address
  invites : n.invites = []
  published : n.published = []

omit [DecidableEq ι] in
theorem Fresh.networkOk (h : Fresh participants n) : NetworkOk types participants [] n where
  parties i :=
    { tasks := by simp [h.tasks i]
      counterparties := by simp [h.counterparties i]
      tokens := fun p hp => .inl (h.tokens i p hp)
      availability := by simp [h.availability i]
      senders := by simp [h.availability i] }
  organizations := h.organizations
  invites := by simp [h.invites]
  published := by simp [h.published]

/-- An initiator and a supplier. -/
def pair (initiator : Bool) : Participant where
  address := List.replicate 42 (if initiator then 'a' else 'b')
  natsServer := if initiator then "nats://a".toList else "nats://b".toList
  initiator := initiator
  bearerToken := if initiator then "A".toList else "B".toList
  signature := id
  signMessage := id

def pairTypes : Types where
  availability := "AVAIL".toList
  request := "request".toList
  response := "response".toList

/-- The initiator has set a workgroup up. -/
def pairNetwork : Network Bool where
  parties initiator :=
    if initiator then { shield := some "0x5".toList, workflowIdentifier := some "w".toList } else {}
  organizations address :=
    if address = (pair true).address then some (pair true).natsServer else none
  invites := []
  published := []

theorem pair_addressed : Addressed pair where
  ascii := by decide
  length := by decide
  distinct := by decide

theorem pairTypes_wellFormed : pairTypes.WellFormed :=
  ⟨by decide, by decide, by decide, by decide, by decide⟩

theorem pairNetwork_fresh : Fresh pair pairNetwork where
  tasks := by decide
  counterparties := by decide
  tokens := by decide
  availability := by decide
  organizations address server h := by
    dsimp only [pairNetwork] at h
    split_ifs at h with haddress
    exact ⟨true, haddress.symm, Option.some.inj h⟩
  invites := rfl
  published := rfl

/-- What the pair does first. -/
def pairEvents : List (Event Bool) :=
  [.invite true, .accept false 0, .request true (pair false).address [] [] .null .null]

variable (sha256) in
/-- Whatever is delivered in whatever order, a published message is one that its sender has
reason to send, on the server of its recipient, and a token is filed under the server it is for. -/
theorem messages_runs (haddressed : Addressed participants) (htypes : types.WellFormed)
    (hfresh : Fresh participants n) (events : List (Event ι)) :
    (∀ p ∈ (runs sha256 types participants n events).published,
      ∃ j recipient msg, Serves participants p.1 recipient ∧
        (unmarshalProtocolMessage p.2).sender = (participants j).address ∧
        decode (unmarshalProtocolMessage p.2).payload = stringify msg ∧
        Sent types participants events j recipient (unmarshalProtocolMessage p.2).opcode msg) ∧
    ∀ i,
      (∀ address ∈ ((runs sha256 types participants n events).parties i).workgroupCounterparties,
        ∃ j, (participants j).address = address) ∧
      ∀ p ∈ ((runs sha256 types participants n events).parties i).natsBearerTokens,
        p.1 = (participants i).natsServer ∨
          ∃ j, (participants j).natsServer = p.1 ∧ (participants j).bearerToken = p.2 := by
  have hok := hfresh.networkOk.runs sha256 haddressed htypes events
  refine ⟨fun p hp => ?_, fun i => ⟨(hok.parties i).counterparties, (hok.parties i).tokens⟩⟩
  obtain ⟨j, recipient, opcode, msg, hsent, hserves, hopcode, hsender, htext⟩ := hok.published p hp
  exact ⟨j, recipient, msg, hserves, hsender, htext, hopcode ▸ hsent⟩

theorem messages_runs_pair :
    ((runs (fun _ => Bytes.zeros 32) pairTypes pair pairNetwork
      pairEvents).parties false).workgroupCounterparties
      ⊆ [(pair true).address, (pair false).address] := by
  intro address haddress
  obtain ⟨j, rfl⟩ := ((messages_runs (fun _ => Bytes.zeros 32) pair_addressed pairTypes_wellFormed
    pairNetwork_fresh pairEvents).2 false).1 address haddress
  cases j <;> simp

end Runs

/-! ## What can always be completed -/

section Progress

variable {ι : Type} [DecidableEq ι] {sha256 : List UInt8 → Bytes 32} {types : Types}
  {participants : ι → Participant} {n : Network ι} {i j : ι} {env : Env}

/-- Someone is registered with its server, and its server's token is known to the stack, which can
sign for the contract of its workgroup. -/
structure Reaches (participants : ι → Participant) (n : Network ι) (i j : ι) : Prop where
  resolved : resolveMessagingEndpoint n.organizations (participants j).address
    = some (participants j).natsServer
  token : Objects.get (participants j).natsServer (n.parties i).natsBearerTokens
    = some (participants j).bearerToken
  token_ne : (participants j).bearerToken ≠ []
  shield : (n.parties i).shield.isSome
  identifier : (n.parties i).workflowIdentifier.isSome

omit [DecidableEq ι] in
theorem Reaches.congr {n' : Network ι} (h : Reaches participants n i j)
    (horganizations : n'.organizations = n.organizations)
    (htokens : (n'.parties i).natsBearerTokens = (n.parties i).natsBearerTokens)
    (hshield : (n'.parties i).shield = (n.parties i).shield)
    (hidentifier : (n'.parties i).workflowIdentifier = (n.parties i).workflowIdentifier) :
    Reaches participants n' i j :=
  ⟨horganizations ▸ h.resolved, htokens ▸ h.token, h.token_ne, hshield ▸ h.shield,
    hidentifier ▸ h.identifier⟩

end Progress

end Workgroup

end Baseline
