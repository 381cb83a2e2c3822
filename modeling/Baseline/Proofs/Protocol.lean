import Baseline.Protocol
import Baseline.Proofs.Utf8
import Mathlib.Logic.Function.Iterate

/-!
# What a message is after the wire

A text that fills its place is read back from it, whatever the other texts are, and one that does
not is read back with what the places before left there (`fields_truncated_iff`). A message whose
texts have the sizes of their places comes back whole if its payload is text (`text_round_trip`).
A binary payload is written as if its bytes were characters, which does not change it just if its
bytes are below 0x80, up to an end that happens to be its own encoding (`binary_round_trip_iff`).
-/

namespace Baseline

open Utf8

namespace Protocol

/-! ## Buffers -/

section Buffers

variable (buffer : List UInt8) (s : Str) {offset start stop : ℕ}

@[simp] theorem length_alloc (n : ℕ) : (alloc n).length = n := List.length_replicate

theorem encodeWithin_zero : ∀ s : Str, encodeWithin 0 s = []
  | [] => rfl
  | c :: s => List.eq_nil_of_length_eq_zero (Nat.le_zero.1 (length_encodeWithin_le 0 (c :: s)))

theorem write_of_length_le (h : buffer.length ≤ offset) : write buffer s offset = buffer := by
  unfold write
  simpa [Nat.sub_eq_zero_of_le h, encodeWithin_zero, List.take_of_length_le h] using h

@[simp] theorem length_write : (write buffer s offset).length = buffer.length := by
  by_cases h : offset ≤ buffer.length
  · have hle := length_encodeWithin_le (buffer.length - offset) s
    simp only [write, List.length_append, List.length_take, List.length_drop]
    omega
  · rw [write_of_length_le buffer s (by omega)]

theorem take_write (h : stop ≤ offset) : (write buffer s offset).take stop = buffer.take stop := by
  by_cases hoff : offset ≤ buffer.length
  · unfold write
    rw [List.append_assoc, List.take_append_of_le_length (by rw [List.length_take]; omega),
      List.take_take, Nat.min_eq_left h]
  · rw [write_of_length_le buffer s (by omega)]

theorem subarray_write (h : stop ≤ offset) :
    subarray (write buffer s offset) start stop = subarray buffer start stop := by
  unfold subarray
  rw [take_write buffer s h]

theorem drop_write (h : offset ≤ buffer.length) : (write buffer s offset).drop offset =
    encodeWithin (buffer.length - offset) s ++
      (buffer.drop offset).drop (encodeWithin (buffer.length - offset) s).length := by
  unfold write
  rw [List.append_assoc, List.drop_append_of_le_length (by rw [List.length_take]; omega),
    List.drop_take_self, List.nil_append, List.drop_drop]

variable {s}

/-- A text with as many bytes as its place fills it. -/
theorem subarray_write_self (hs : Ascii s) (hstop : stop ≤ buffer.length)
    (hle : stop - start ≤ s.length) (hstart : start ≤ stop) :
    subarray (write buffer s start) start stop = bytesOf (s.take (stop - start)) := by
  unfold subarray
  rw [List.drop_take, drop_write buffer s (by omega), encodeWithin_ascii _ hs,
    List.take_append_of_le_length (by simp; omega), List.take_take, Nat.min_eq_left (by omega)]
  simp [bytesOf]

/-- Nothing is written past the end of the text. -/
theorem drop_write_of_le (hs : Ascii s) (h : offset + s.length ≤ stop) :
    (write buffer s offset).drop stop = buffer.drop stop := by
  by_cases hstop : stop ≤ buffer.length
  · have hlen : (encodeWithin (buffer.length - offset) s).length = s.length := by
      rw [encodeWithin_ascii _ hs, List.length_take, length_bytesOf]
      omega
    unfold write
    rw [List.drop_append, List.drop_eq_nil_of_le (by simp; omega), List.nil_append,
      List.drop_drop]
    congr 1
    simp only [List.length_append, List.length_take, hlen]
    omega
  · rw [List.drop_eq_nil_of_le (by simp; omega), List.drop_eq_nil_of_le (by omega)]

end Buffers

/-! ## Texts written one after the other -/

/-- Texts written at their places, in turn. -/
def writes (buffer : List UInt8) (ws : List (Str × ℕ)) : List UInt8 :=
  ws.foldl (fun buffer w => write buffer w.1 w.2) buffer

section Writes

variable {start stop offset : ℕ}

theorem length_writes : ∀ (ws : List (Str × ℕ)) (buffer : List UInt8),
    (writes buffer ws).length = buffer.length
  | [], _ => rfl
  | w :: ws, buffer => (length_writes ws _).trans (length_write buffer w.1)

theorem subarray_writes : ∀ (ws : List (Str × ℕ)) (buffer : List UInt8),
    (∀ w ∈ ws, stop ≤ w.2) → subarray (writes buffer ws) start stop = subarray buffer start stop
  | [], _, _ => rfl
  | w :: ws, buffer, h =>
    (subarray_writes ws _ fun v hv => h v (List.mem_cons_of_mem _ hv)).trans
      (subarray_write buffer w.1 (h w (by simp)))

theorem drop_writes : ∀ (ws : List (Str × ℕ)) (buffer : List UInt8),
    (∀ w ∈ ws, Ascii w.1 ∧ w.2 + w.1.length ≤ stop) →
      (writes buffer ws).drop stop = buffer.drop stop
  | [], _, _ => rfl
  | w :: ws, buffer, h =>
    (drop_writes ws _ fun v hv => h v (List.mem_cons_of_mem _ hv)).trans
      (drop_write_of_le buffer (h w (by simp)).1 (h w (by simp)).2)

theorem lt_of_mem_bytesOf {s : Str} (hs : Ascii s) {b : UInt8} (hb : b ∈ bytesOf s) :
    b.toNat < 0x80 := by
  obtain ⟨c, hc, rfl⟩ := List.mem_map.1 hb
  have hlt := hs c hc
  rwa [toNat_ofNat (by omega)]

theorem lt_of_mem_writes : ∀ (ws : List (Str × ℕ)) {buffer : List UInt8},
    (∀ w ∈ ws, Ascii w.1) → (∀ b ∈ buffer, b.toNat < 0x80) →
      ∀ b ∈ writes buffer ws, b.toNat < 0x80
  | [], _, _, h => h
  | w :: ws, buffer, hws, h => by
    refine lt_of_mem_writes ws (fun v hv => hws v (List.mem_cons_of_mem _ hv)) ?_
    intro b hb
    have hw : Ascii w.1 := hws w (by simp)
    simp only [write, List.mem_append, encodeWithin_ascii _ hw] at hb
    rcases hb with (hb | hb) | hb
    · exact h b (List.mem_of_mem_take hb)
    · exact lt_of_mem_bytesOf hw (List.mem_of_mem_take hb)
    · exact h b (List.mem_of_mem_drop hb)

/-- What is read back at the place of a text that fills it. -/
theorem decode_place {pre post : List (Str × ℕ)} {s payload : Str} (buffer : List UInt8)
    (hs : Ascii s) (hstop : stop ≤ buffer.length) (hstart : start ≤ stop)
    (hpost : ∀ w ∈ post, stop ≤ w.2) (hoff : stop ≤ offset) (hle : stop - start ≤ s.length) :
    decode (subarray (write (writes buffer (pre ++ (s, start) :: post)) payload offset) start stop)
      = s.take (stop - start) := by
  have hsplit : writes buffer (pre ++ (s, start) :: post)
      = writes (write (writes buffer pre) s start) post := by
    simp [writes]
  rw [subarray_write _ _ hoff, hsplit, subarray_writes post _ hpost,
    subarray_write_self _ hs (by rwa [length_writes]) hle hstart]
  exact decode_bytesOf fun c hc => hs c (List.mem_of_mem_take hc)

/-- The place is read back at its whole length, so a text that does not fill it is not. -/
theorem length_decode_place {ws : List (Str × ℕ)} {payload : Str} {buffer : List UInt8}
    (hws : ∀ w ∈ ws, Ascii w.1) (hbuffer : ∀ b ∈ buffer, b.toNat < 0x80)
    (hstop : stop ≤ buffer.length) (hoff : stop ≤ offset) :
    (decode (subarray (write (writes buffer ws) payload offset) start stop)).length
      = stop - start := by
  rw [subarray_write _ _ hoff]
  have hlen : (subarray (writes buffer ws) start stop).length = stop - start := by
    unfold subarray
    rw [List.length_drop, List.length_take, length_writes, Nat.min_eq_left hstop]
  have hlow : ∀ b ∈ subarray (writes buffer ws) start stop, b.toNat < 0x80 := fun b hb =>
    lt_of_mem_writes ws hws hbuffer b (List.mem_of_mem_take (List.mem_of_mem_drop hb))
  rw [← bytesOf_charsOf (subarray _ _ _), length_bytesOf] at hlen
  rw [← bytesOf_charsOf (subarray _ _ _), decode_bytesOf (charsOf_ascii hlow), hlen]

end Writes

/-! ## The wire -/

section Wire

variable (msg : Message) (t : PayloadType)

/-- The places of everything but the payload. -/
def places : List (Str × ℕ) :=
  [(msg.opcode, 0), (msg.sender, 5), (msg.recipient, 47), (msg.shield, 89), (msg.identifier, 131),
    (List.replicate 64 '\x00', 167), (msg.signature, 231), (Nat.toDigits 10 t.value, 295)]

/-- The text a payload is written as. -/
def payloadText : Str :=
  match t with
  | .binary => binaryToString msg.payload
  | .text => decode msg.payload

/-- The buffer that a message is marshaled to. -/
def wire : List UInt8 :=
  write (writes (alloc (296 + msg.payload.length)) (places msg t)) (payloadText msg t) 296

variable {msg t}

theorem marshal_eq (ht : msg.type = some t) : marshalProtocolMessage msg = some (wire msg t) := by
  have hreserved : decode (alloc 64) = List.replicate 64 '\x00' := by decide
  unfold marshalProtocolMessage
  rw [ht]
  simp only [messageReservedBitsLength, Nat.reduceDiv, hreserved, length_alloc]
  cases t <;> rfl

/-- Every text of a message has one byte a character. -/
structure AsciiFields (msg : Message) : Prop where
  opcode : Ascii msg.opcode
  sender : Ascii msg.sender
  recipient : Ascii msg.recipient
  shield : Ascii msg.shield
  identifier : Ascii msg.identifier
  signature : Ascii msg.signature

theorem AsciiFields.places (h : AsciiFields msg) : ∀ w ∈ places msg t, Ascii w.1 := by
  have hreserved : Ascii (List.replicate 64 '\x00') := ascii_replicate (by decide) 64
  have htype : Ascii (Nat.toDigits 10 t.value) := by cases t <;> decide
  simp only [Protocol.places, List.forall_mem_cons]
  exact ⟨h.opcode, h.sender, h.recipient, h.shield, h.identifier, hreserved, h.signature, htype,
    by rintro w ⟨⟩⟩

theorem lt_of_mem_alloc {n : ℕ} : ∀ b ∈ alloc n, b.toNat < 0x80 := by
  intro b hb
  rw [List.eq_of_mem_replicate hb]
  decide

/-- A text is read back cut to its place exactly if it fills the place. -/
theorem decode_wire_iff (h : AsciiFields msg) (k : ℕ) {s : Str} {start stop : ℕ}
    (hk : (places msg t)[k]? = some (s, start)) (hstart : start ≤ stop) (hstop : stop ≤ 296)
    (hpost : ∀ w ∈ (places msg t).drop (k + 1), stop ≤ w.2) :
    decode (subarray (wire msg t) start stop) = s.take (stop - start) ↔
      stop - start ≤ s.length := by
  have hbuffer : stop ≤ (alloc (296 + msg.payload.length)).length := by simp; omega
  obtain ⟨hlt, hget⟩ := List.getElem?_eq_some_iff.1 hk
  have hsplit : places msg t
      = (places msg t).take k ++ (s, start) :: (places msg t).drop (k + 1) := by
    rw [← hget, List.getElem_cons_drop, List.take_append_drop]
  have hs : Ascii s := h.places (s, start) (hget ▸ List.getElem_mem hlt)
  constructor
  · intro he
    have hlen := congrArg List.length he
    unfold wire at hlen
    rw [length_decode_place h.places lt_of_mem_alloc hbuffer hstop, List.length_take] at hlen
    omega
  · intro hle
    unfold wire
    rw [hsplit]
    exact decode_place _ hs hbuffer hstart hpost hstop hle

/-- A text of its place's size is read back whole. -/
theorem decode_wire_eq (h : AsciiFields msg) (k : ℕ) {s : Str} {start stop : ℕ}
    (hk : (places msg t)[k]? = some (s, start)) (hstart : start ≤ stop) (hstop : stop ≤ 296)
    (hpost : ∀ w ∈ (places msg t).drop (k + 1), stop ≤ w.2) (hlen : s.length = stop - start) :
    decode (subarray (wire msg t) start stop) = s := by
  rw [(decode_wire_iff h k hk hstart hstop hpost).2 (by omega), ← hlen, List.take_length]

/-! ## Messages whose texts have the sizes of their places -/

structure WellFormed (msg : Message) : Prop where
  opcode : ∃ op : Opcode, msg.opcode = op.value
  sender : Ascii msg.sender ∧ msg.sender.length = 42
  recipient : Ascii msg.recipient ∧ msg.recipient.length = 42
  shield : Ascii msg.shield ∧ msg.shield.length = 42
  identifier : Ascii msg.identifier ∧ msg.identifier.length = 36
  signature : Ascii msg.signature ∧ msg.signature.length = 64

theorem Opcode.value_ascii (op : Opcode) : Ascii op.value := by
  cases op <;> decide

theorem Opcode.length_value_le (op : Opcode) : op.value.length ≤ 5 := by
  cases op <;> decide

theorem Opcode.filter_value (op : Opcode) : op.value.filter (· ≠ '\x00') = op.value := by
  cases op <;> decide

namespace WellFormed

theorem asciiFields (h : WellFormed msg) : AsciiFields msg := by
  obtain ⟨op, hop⟩ := h.opcode
  exact ⟨hop ▸ op.value_ascii, h.sender.1, h.recipient.1, h.shield.1, h.identifier.1,
    h.signature.1⟩

/-- A shorter text leaves the rest of its place as it was. -/
theorem take_write_zero {s : Str} (hs : Ascii s) {n m : ℕ} (hle : s.length ≤ m) (hm : m ≤ n) :
    (write (alloc n) s 0).take m = bytesOf (s ++ List.replicate (m - s.length) '\x00') := by
  have hbytes : encodeWithin ((alloc n).length - 0) s = bytesOf s := by
    rw [encodeWithin_ascii _ hs, length_alloc, List.take_of_length_le (by simp; omega)]
  simp only [write, hbytes, List.take_zero, List.nil_append, Nat.zero_add, length_bytesOf]
  rw [List.take_append, List.take_of_length_le (by simp; omega), length_bytesOf]
  have hnul : UInt8.ofNat '\x00'.toNat = 0 := by decide
  simp only [alloc, bytesOf, List.map_append, List.map_replicate, List.drop_replicate,
    List.take_replicate, hnul]
  rw [Nat.min_eq_left (by omega)]

theorem decode_opcode (h : WellFormed msg) :
    (decode (subarray (wire msg t) 0 5)).filter (· ≠ '\x00') = msg.opcode := by
  obtain ⟨op, hop⟩ := h.opcode
  have hsplit : writes (alloc (296 + msg.payload.length)) (places msg t)
      = writes (write (alloc (296 + msg.payload.length)) msg.opcode 0)
          ((places msg t).drop 1) := by
    simp only [writes, places, List.foldl_cons, List.drop_succ_cons, List.drop_zero]
  have hnul : ∀ n, (List.replicate n '\x00').filter (· ≠ '\x00') = [] := by
    intro n
    rw [List.filter_replicate]
    rfl
  unfold wire
  rw [subarray_write _ _ (by omega), hsplit, subarray_writes _ _ (by simp [places]), hop]
  unfold subarray
  rw [List.drop_zero, take_write_zero op.value_ascii op.length_value_le (by omega),
    decode_bytesOf, List.filter_append, op.filter_value, hnul, List.append_nil]
  intro c hc
  rcases List.mem_append.1 hc with hc | hc
  · exact op.value_ascii c hc
  · rw [List.eq_of_mem_replicate hc]
    decide

theorem decode_type (h : WellFormed msg) :
    decode (subarray (wire msg t) 295 296) = Nat.toDigits 10 t.value :=
  decode_wire_eq h.asciiFields 7 rfl (by omega) (by omega) (by simp [places])
    (by cases t <;> rfl)

/-- Nothing but the payload reaches its place. -/
theorem drop_wire (h : WellFormed msg) : (wire msg t).drop 296 =
    encodeWithin msg.payload.length (payloadText msg t) ++
      (alloc msg.payload.length).drop
        (encodeWithin msg.payload.length (payloadText msg t)).length := by
  obtain ⟨op, hop⟩ := h.opcode
  have hlen := op.length_value_le
  have htype : (Nat.toDigits 10 t.value).length = 1 := by cases t <;> rfl
  have hplaces : ∀ w ∈ places msg t, Ascii w.1 ∧ w.2 + w.1.length ≤ 296 := by
    refine fun w hw => ⟨h.asciiFields.places w hw, ?_⟩
    revert w
    simp only [places, List.forall_mem_cons, List.length_replicate, h.sender.2, h.recipient.2,
      h.shield.2, h.identifier.2, h.signature.2, hop, htype]
    refine ⟨by omega, by omega, by omega, by omega, by omega, by omega, by omega, by omega, ?_⟩
    rintro w ⟨⟩
  unfold wire
  rw [drop_write _ _ (by rw [length_writes, length_alloc]; omega), length_writes, length_alloc,
    Nat.add_sub_cancel_left, drop_writes _ _ hplaces]
  simp [alloc]

/-- All but the payload comes back. -/
theorem unmarshal_wire (h : WellFormed msg) (ht : msg.type = some t) :
    unmarshalProtocolMessage (wire msg t) = { msg with payload := (wire msg t).drop 296 } := by
  have ha := h.asciiFields
  have hsender : decode (subarray (wire msg t) 5 47) = msg.sender :=
    decode_wire_eq ha 1 rfl (by omega) (by omega) (by simp [places]) h.sender.2
  have hrecipient : decode (subarray (wire msg t) 47 89) = msg.recipient :=
    decode_wire_eq ha 2 rfl (by omega) (by omega) (by simp [places]) h.recipient.2
  have hshield : decode (subarray (wire msg t) 89 131) = msg.shield :=
    decode_wire_eq ha 3 rfl (by omega) (by omega) (by simp [places]) h.shield.2
  have hidentifier : decode (subarray (wire msg t) 131 167) = msg.identifier :=
    decode_wire_eq ha 4 rfl (by omega) (by omega) (by simp [places]) h.identifier.2
  have hsignature : decode (subarray (wire msg t) 231 295) = msg.signature :=
    decode_wire_eq ha 6 rfl (by omega) (by omega) (by simp [places]) h.signature.2
  unfold unmarshalProtocolMessage
  simp only [messageReservedBitsLength, Nat.reduceAdd, Nat.reduceDiv, h.decode_opcode, hsender,
    hrecipient, hshield, hidentifier, hsignature, h.decode_type, ht]
  cases t <;> rfl

end WellFormed

end Wire

/-- A message with every text at its size. -/
def sample (type : PayloadType) (payload : List UInt8) : Message where
  opcode := Opcode.join.value
  sender := List.replicate 42 'a'
  recipient := List.replicate 42 'b'
  shield := List.replicate 42 'c'
  identifier := List.replicate 36 'd'
  signature := List.replicate 64 'e'
  type := some type
  payload

theorem sample_wellFormed (type : PayloadType) (payload : List UInt8) :
    WellFormed (sample type payload) where
  opcode := ⟨.join, rfl⟩
  sender := ⟨ascii_replicate (by decide) 42, rfl⟩
  recipient := ⟨ascii_replicate (by decide) 42, rfl⟩
  shield := ⟨ascii_replicate (by decide) 42, rfl⟩
  identifier := ⟨ascii_replicate (by decide) 36, rfl⟩
  signature := ⟨ascii_replicate (by decide) 64, rfl⟩

theorem text_round_trip {msg : Message} (h : WellFormed msg) (ht : msg.type = some .text)
    (hpayload : ∃ s, msg.payload = encode s) :
    (marshalProtocolMessage msg).map unmarshalProtocolMessage = some msg := by
  obtain ⟨s, hs⟩ := hpayload
  have hdrop : (wire msg .text).drop 296 = msg.payload := by
    rw [h.drop_wire, payloadText, hs, decode_encode, encodeWithin_eq_encode s le_rfl,
      List.drop_eq_nil_of_le (by simp), List.append_nil]
  rw [marshal_eq ht, Option.map_some, h.unmarshal_wire ht, hdrop]

theorem text_round_trip_empty :
    (marshalProtocolMessage (sample .text [])).map unmarshalProtocolMessage
        = some (sample .text []) ∧
      (marshalProtocolMessage (sample .text (encode ['€']))).map unmarshalProtocolMessage
        = some (sample .text (encode ['€'])) :=
  ⟨text_round_trip (sample_wellFormed .text []) rfl ⟨[], rfl⟩,
    text_round_trip (sample_wellFormed .text (encode ['€'])) rfl ⟨['€'], rfl⟩⟩

/-! ## Payloads written in another encoding -/

/-- The two bytes that a byte from 0x80 on takes as a character. -/
def halves (b : UInt8) : List UInt8 := [0xC0 + b / 0x40, 0x80 + b % 0x40]

def doubled (bs : List UInt8) : List UInt8 := bs.flatMap halves

def High (bs : List UInt8) : Prop := ∀ b ∈ bs, 0x80 ≤ b.toNat

/-- What a payload is read back as. -/
def sent (bs : List UInt8) : List UInt8 :=
  encodeWithin bs.length (binaryToString bs) ++
    List.replicate (bs.length - (encodeWithin bs.length (binaryToString bs)).length) 0

/-- A beginning, two bytes or more, of the sequence C3 83 C2 83 C3 82 C2 83 … in which the bytes
are the halves of the bytes before, with a zero byte after it if its length is odd. -/
def Doubling (bs : List UInt8) : Prop :=
  2 ≤ bs.length ∧ (∃ k, bs.take (2 * (bs.length / 2)) <+: doubled^[k] [0xC3]) ∧
    bs.drop (2 * (bs.length / 2)) = List.replicate (bs.length % 2) 0

section Halves

variable {bs cs : List UInt8}

theorem encode_char_high {b : UInt8} (h : 0x80 ≤ b.toNat) :
    String.utf8EncodeChar (Char.ofNat b.toNat) = halves b := by
  have hlt := b.toNat_lt
  have hval : (Char.ofNat b.toNat).val.toNat = b.toNat := toNat_char b
  unfold String.utf8EncodeChar halves
  rw [hval, if_neg (by omega), if_pos (by omega)]
  congr 1
  · rw [← UInt8.toNat_inj, toNat_ofNat (by omega)]
    simp
    omega
  · congr 1
    rw [← UInt8.toNat_inj, toNat_ofNat (by omega)]
    simp
    omega

theorem toNat_halves (b : UInt8) :
    (halves b).map UInt8.toNat = [0xC0 + b.toNat / 0x40, 0x80 + b.toNat % 0x40] := by
  have hlt := b.toNat_lt
  simp only [halves, List.map_cons, List.map_nil, UInt8.toNat_add, UInt8.toNat_div,
    UInt8.toNat_mod, UInt8.reduceToNat]
  congr 1
  · omega
  · congr 1
    omega

theorem high_doubled : High (doubled bs) := by
  intro c hc
  obtain ⟨b, -, hb⟩ := List.mem_flatMap.1 hc
  have hmem := List.mem_map_of_mem (f := UInt8.toNat) hb
  rw [toNat_halves] at hmem
  simp only [List.mem_cons, List.not_mem_nil, or_false] at hmem
  omega

@[simp] theorem length_doubled (bs : List UInt8) : (doubled bs).length = 2 * bs.length := by
  simp [doubled, halves, List.length_flatMap, Nat.mul_comm]

theorem encode_high : ∀ {bs : List UInt8}, High bs → encode (binaryToString bs) = doubled bs
  | [], _ => rfl
  | b :: bs, h => by
    have hbs : High bs := fun c hc => h c (List.mem_cons_of_mem _ hc)
    simp only [binaryToString, List.map_cons, encode_cons, encode_char_high (h b (by simp))]
    exact congrArg (halves b ++ ·) (encode_high hbs)

theorem doubled_prefix (h : bs <+: cs) : doubled bs <+: doubled cs := by
  obtain ⟨r, rfl⟩ := h
  exact ⟨doubled r, List.flatMap_append.symm⟩

/-- High bytes at the front are sent as their halves. -/
theorem encodeWithin_high {n j : ℕ} (h : High (bs.take j)) (hj : j ≤ bs.length)
    (hn : 2 * j ≤ n) : encodeWithin n (binaryToString bs)
      = doubled (bs.take j) ++ encodeWithin (n - 2 * j) (binaryToString (bs.drop j)) := by
  have hlen : (doubled (bs.take j)).length = 2 * j := by
    rw [length_doubled, List.length_take, Nat.min_eq_left hj]
  have hsplit : binaryToString bs = binaryToString (bs.take j) ++ binaryToString (bs.drop j) := by
    unfold binaryToString
    rw [← List.map_append, List.take_append_drop]
  rw [hsplit, encodeWithin_append _ _ (by rw [encode_high h, hlen]; exact hn), encode_high h, hlen]

/-- Of high bytes, half are sent. -/
theorem sent_of_high (hlen : 2 ≤ bs.length) (h : High (bs.take (2 * (bs.length / 2)))) :
    sent bs = doubled (bs.take (bs.length / 2)) ++ List.replicate (bs.length % 2) 0 := by
  have hhalf : High (bs.take (bs.length / 2)) := fun b hb =>
    h b (List.take_subset_take_left _ (by omega) hb)
  have hlast : encodeWithin (bs.length % 2) (binaryToString (bs.drop (bs.length / 2))) = [] := by
    rcases Nat.mod_two_eq_zero_or_one bs.length with heven | hodd
    · rw [heven, encodeWithin_zero]
    -- the middle byte needs two bytes more, and there is one
    have hmid : bs.length / 2 < bs.length := by omega
    have hb : 0x80 ≤ bs[bs.length / 2].toNat := by
      refine h _ (List.mem_iff_getElem.2 ⟨bs.length / 2, by simp; omega, ?_⟩)
      rw [List.getElem_take]
    rw [← List.getElem_cons_drop hmid, hodd]
    simp only [binaryToString, List.map_cons, encodeWithin, encode_char_high hb]
    simp [halves]
  have hbytes : encodeWithin bs.length (binaryToString bs) = doubled (bs.take (bs.length / 2)) := by
    rw [encodeWithin_high hhalf (by omega) (by omega),
      show bs.length - 2 * (bs.length / 2) = bs.length % 2 by omega, hlast, List.append_nil]
  unfold sent
  rw [hbytes, length_doubled, List.length_take, Nat.min_eq_left (by omega),
    show bs.length - 2 * (bs.length / 2) = bs.length % 2 by omega]

theorem high_iterate : ∀ k, High (doubled^[k] [0xC3])
  | 0 => by simp [High]
  | k + 1 => by
    rw [Function.iterate_succ_apply']
    exact high_doubled

theorem iterate_grows : ∀ k, doubled^[k] [0xC3] <+: doubled^[k + 1] [0xC3]
  | 0 => ⟨[0x83], by decide⟩
  | k + 1 => by
    rw [Function.iterate_succ_apply' _ k, Function.iterate_succ_apply' _ (k + 1)]
    exact doubled_prefix (iterate_grows k)

theorem sent_of_doubling (h : Doubling bs) : sent bs = bs := by
  obtain ⟨hlen, ⟨k, hk⟩, hdrop⟩ := h
  have hhigh : High (bs.take (2 * (bs.length / 2))) := fun b hb => high_iterate k b (hk.subset hb)
  have hhalf : bs.take (bs.length / 2) <+: doubled^[k] [0xC3] :=
    (List.take_prefix_take_left (by omega)).trans hk
  have hnext : doubled (bs.take (bs.length / 2)) <+: doubled^[k + 1] [0xC3] := by
    rw [Function.iterate_succ_apply']
    exact doubled_prefix hhalf
  have hsame : doubled (bs.take (bs.length / 2)) = bs.take (2 * (bs.length / 2)) := by
    have hle := List.prefix_of_prefix_length_le hnext (hk.trans (iterate_grows k))
      (by simp; omega)
    exact hle.eq_of_length (by simp; omega)
  rw [sent_of_high hlen hhigh, hsame, ← hdrop, List.take_append_drop]

/-- What is sent as it is has its halves from the byte before. -/
theorem take_of_sent {b : UInt8} (hb : 0x80 ≤ b.toNat) (h : sent (b :: bs) = b :: bs) :
    ∀ j, 2 * j ≤ bs.length + 1 → High ((b :: bs).take (2 * j)) ∧
      (b :: bs).take (2 * j) = doubled ((b :: bs).take j)
  | 0, _ => by simp [High, doubled]
  | j + 1, hj => by
    obtain ⟨hhigh, -⟩ := take_of_sent hb h j (by omega)
    have hnext : High ((b :: bs).take (j + 1)) := by
      cases j with
      | zero => simpa [High] using hb
      | succ j => exact fun c hc => hhigh c (List.take_subset_take_left _ (by omega) hc)
    have hfront := encodeWithin_high (n := (b :: bs).length) hnext (by simp; omega) (by simp; omega)
    have hlen : (doubled ((b :: bs).take (j + 1))).length = 2 * (j + 1) := by
      rw [length_doubled, List.length_take, Nat.min_eq_left (by rw [List.length_cons]; omega)]
    have hsame : (b :: bs).take (2 * (j + 1)) = doubled ((b :: bs).take (j + 1)) := by
      conv_lhs => rw [← h]
      rw [sent, hfront, List.append_assoc, List.take_append_of_le_length (Nat.le_of_eq hlen.symm),
        List.take_of_length_le (Nat.le_of_eq hlen)]
    exact ⟨hsame ▸ high_doubled, hsame⟩

/-- One byte has no room for two. -/
theorem two_le_length_of_sent {b : UInt8} (hb : 0x80 ≤ b.toNat) (h : sent (b :: bs) = b :: bs) :
    2 ≤ (b :: bs).length := by
  rcases bs with _ | ⟨c, bs⟩
  · have hzero : sent [b] = [0] := by
      simp [sent, binaryToString, encodeWithin, encode_char_high hb, halves]
    have hb0 : b = 0 := by simpa [hzero] using h.symm
    rw [hb0] at hb
    simp at hb
  · simp

/-- The byte that is the first of its own two. -/
theorem eq_of_take_two {b : UInt8} (h : (b :: bs).take 2 = halves b) : b = 0xC3 := by
  have hhead : b = 0xC0 + b / 0x40 := congrArg (·.headD 0) h
  have hnat := congrArg UInt8.toNat hhead
  have hlt := b.toNat_lt
  simp only [UInt8.toNat_add, UInt8.toNat_div, UInt8.reduceToNat] at hnat
  rw [← UInt8.toNat_inj]
  show b.toNat = 0xC3
  omega

/-- A beginning is twice another of half its length, and so on down to the first byte. -/
theorem prefix_of_take (hbs : bs.take 1 = [0xC3])
    (htake : ∀ j, 2 * j ≤ bs.length → bs.take (2 * j) = doubled (bs.take j)) :
    ∀ m, m ≤ 2 * (bs.length / 2) → ∃ k, bs.take m <+: doubled^[k] [0xC3] := by
  intro m
  induction m using Nat.strongRecOn with
  | _ m ih =>
    intro hm
    rcases Nat.lt_or_ge m 2 with hsmall | hbig
    · refine ⟨0, (List.take_prefix_take_left (j := 1) (by omega)).trans ?_⟩
      rw [hbs]
      exact List.prefix_rfl
    · obtain ⟨k, hk⟩ := ih ((m + 1) / 2) (by omega) (by omega)
      refine ⟨k + 1, (List.take_prefix_take_left (j := 2 * ((m + 1) / 2)) (by omega)).trans ?_⟩
      rw [htake ((m + 1) / 2) (by omega), Function.iterate_succ_apply']
      exact doubled_prefix hk

theorem doubling_of_sent {b : UInt8} (hb : 0x80 ≤ b.toNat) (h : sent (b :: bs) = b :: bs) :
    Doubling (b :: bs) := by
  have htake := take_of_sent hb h
  have hlen := two_le_length_of_sent hb h
  have hfirst : b = 0xC3 :=
    eq_of_take_two (by simpa [doubled] using (htake 1 (by simpa using hlen)).2)
  have hone : (b :: bs).take 1 = [0xC3] := by simp [hfirst]
  have hprefix := prefix_of_take hone fun j hj => (htake j hj).2
  obtain ⟨hhigh, hdoubled⟩ := htake ((b :: bs).length / 2) (by simp; omega)
  refine ⟨hlen, hprefix _ le_rfl, ?_⟩
  have hsent := sent_of_high hlen hhigh
  rw [h, ← hdoubled] at hsent
  conv_lhs => rw [hsent]
  exact List.drop_left' (by simp; omega)

/-- Low bytes are sent as they are. -/
theorem sent_low_append (hcs : ∀ b ∈ cs, b.toNat < 0x80) : sent (cs ++ bs) = cs ++ sent bs := by
  have henc : encode (binaryToString cs) = cs :=
    (encode_ascii (charsOf_ascii hcs)).trans (bytesOf_charsOf cs)
  have hsplit : binaryToString (cs ++ bs) = binaryToString cs ++ binaryToString bs :=
    List.map_append
  unfold sent
  rw [hsplit, encodeWithin_append _ _ (by rw [henc]; simp), henc, List.length_append,
    Nat.add_sub_cancel_left, List.length_append, Nat.add_sub_add_left, List.append_assoc]

/-- Bytes below 0x80, and then nothing or a `Doubling`. -/
def Survives (bs : List UInt8) : Prop :=
  ∃ cs ds, bs = cs ++ ds ∧ (∀ b ∈ cs, b.toNat < 0x80) ∧ (ds = [] ∨ Doubling ds)

theorem survives_of_sent : ∀ {bs : List UInt8}, sent bs = bs → Survives bs
  | [], _ => ⟨[], [], rfl, by simp, .inl rfl⟩
  | b :: bs, h => by
    by_cases hb : b.toNat < 0x80
    · have hlow : sent ([b] ++ bs) = [b] ++ sent bs := sent_low_append (by simpa using hb)
      have hrest : sent bs = bs := List.append_cancel_left (hlow.symm.trans h)
      obtain ⟨cs, ds, rfl, hcs, hds⟩ := survives_of_sent hrest
      exact ⟨b :: cs, ds, rfl, List.forall_mem_cons.2 ⟨hb, hcs⟩, hds⟩
    · exact ⟨[], b :: bs, rfl, by simp, .inr (doubling_of_sent (by omega) h)⟩

theorem sent_of_survives (h : Survives bs) : sent bs = bs := by
  obtain ⟨cs, ds, rfl, hcs, hds⟩ := h
  rw [sent_low_append hcs]
  rcases hds with rfl | hds
  · rfl
  · rw [sent_of_doubling hds]

end Halves

theorem unmarshal_binary {msg : Message} (h : WellFormed msg) (ht : msg.type = some .binary) :
    (marshalProtocolMessage msg).map unmarshalProtocolMessage
      = some { msg with payload := sent msg.payload } := by
  rw [marshal_eq ht, Option.map_some, h.unmarshal_wire ht, h.drop_wire]
  simp [payloadText, sent, alloc]

theorem binary_round_trip_iff {msg : Message} (h : WellFormed msg)
    (ht : msg.type = some .binary) :
    (∃ read, (marshalProtocolMessage msg).map unmarshalProtocolMessage = some read ∧
        read.type = msg.type ∧ read.payload = msg.payload) ↔
      Survives msg.payload := by
  rw [unmarshal_binary h ht]
  constructor
  · rintro ⟨read, hsome, -, hpayload⟩
    obtain rfl := Option.some.inj hsome
    exact survives_of_sent hpayload
  · exact fun hs => ⟨_, rfl, rfl, sent_of_survives hs⟩

theorem binary_low : ∃ read,
    (marshalProtocolMessage (sample .binary [0x01, 0x7F])).map unmarshalProtocolMessage
        = some read ∧
      read.type = some .binary ∧ read.payload = [0x01, 0x7F] :=
  (binary_round_trip_iff (sample_wellFormed .binary [0x01, 0x7F]) rfl).2
    ⟨[0x01, 0x7F], [], rfl, by simp, .inl rfl⟩

/-- One byte from 0x80 on, which is read back as zero. -/
theorem binary_lost : ¬ ∃ read,
    (marshalProtocolMessage (sample .binary [0x80])).map unmarshalProtocolMessage = some read ∧
      read.type = some .binary ∧ read.payload = [0x80] := by
  rw [unmarshal_binary (sample_wellFormed .binary [0x80]) rfl]
  rintro ⟨read, hsome, -, hpayload⟩
  obtain rfl := Option.some.inj hsome
  exact absurd hpayload (by decide)

/-! ## Texts of any length -/

theorem fields_truncated_iff {msg : Message} {t : PayloadType} (ht : msg.type = some t)
    (h : AsciiFields msg) :
    ∃ buffer, marshalProtocolMessage msg = some buffer ∧
      ((unmarshalProtocolMessage buffer).sender = msg.sender.take 42 ∧
        (unmarshalProtocolMessage buffer).recipient = msg.recipient.take 42 ∧
        (unmarshalProtocolMessage buffer).shield = msg.shield.take 42 ∧
        (unmarshalProtocolMessage buffer).identifier = msg.identifier.take 36 ∧
        (unmarshalProtocolMessage buffer).signature = msg.signature.take 64 ↔
      42 ≤ msg.sender.length ∧ 42 ≤ msg.recipient.length ∧ 42 ≤ msg.shield.length ∧
        36 ≤ msg.identifier.length ∧ 64 ≤ msg.signature.length) := by
  refine ⟨wire msg t, marshal_eq ht, ?_⟩
  simp only [unmarshalProtocolMessage, messageReservedBitsLength, Nat.reduceAdd, Nat.reduceDiv]
  refine and_congr ?_ (and_congr ?_ (and_congr ?_ (and_congr ?_ ?_)))
  · exact decode_wire_iff h 1 rfl (by omega) (by omega) (by simp [places])
  · exact decode_wire_iff h 2 rfl (by omega) (by omega) (by simp [places])
  · exact decode_wire_iff h 3 rfl (by omega) (by omega) (by simp [places])
  · exact decode_wire_iff h 4 rfl (by omega) (by omega) (by simp [places])
  · exact decode_wire_iff h 6 rfl (by omega) (by omega) (by simp [places])

theorem fields_truncated_sample : ∃ buffer,
    marshalProtocolMessage (sample .text []) = some buffer ∧
      (unmarshalProtocolMessage buffer).signature = List.replicate 64 'e' := by
  obtain ⟨buffer, hbuffer, hiff⟩ :=
    fields_truncated_iff rfl (sample_wellFormed .text []).asciiFields
  exact ⟨buffer, hbuffer, (hiff.2 (by decide)).2.2.2.2⟩

/-- The sender has two addresses, and the recipient none. -/
def forging : Message :=
  { sample .text [] with
    sender := List.replicate 42 'a' ++ List.replicate 42 'x'
    recipient := [] }

/-- What goes past one place is read back from the next. -/
theorem recipient_forged : ∃ buffer, marshalProtocolMessage forging = some buffer ∧
    (unmarshalProtocolMessage buffer).recipient = List.replicate 42 'x' ∧
    (unmarshalProtocolMessage buffer).recipient ≠ forging.recipient.take 42 := by
  refine ⟨_, rfl, ?_, ?_⟩
  · decide +kernel
  · decide +kernel

end Protocol

end Baseline
