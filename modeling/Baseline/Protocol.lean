import Baseline.Bytes
import Baseline.Utf8

/-!
# Messages on the wire

`protocol.ts`: a message is written into one buffer, each text at its place and the payload last,
and read back from the same places. `buffer.write` takes no length, so a text goes on past its
place for as long as the buffer does.
-/

namespace Baseline

namespace Protocol

def messageReservedBitsLength : ℕ := 512

inductive Opcode
  | baseline | join | ping | pong | proof | verify
  deriving DecidableEq

def Opcode.value : Opcode → Str
  | baseline => "BLINE".toList
  | join => "JOIN".toList
  | ping => "PING".toList
  | pong => "PONG".toList
  | proof => "PROOF".toList
  | verify => "VRFY".toList

inductive PayloadType
  | binary | text
  deriving DecidableEq

def PayloadType.value : PayloadType → ℕ
  | binary => 0x0
  | text => 0x1

/-- A message, or what is cast to one: the opcode may then be any string and the type `null`. -/
structure Message where
  opcode : Str
  sender : Str
  recipient : Str
  shield : Str
  identifier : Str
  signature : Str
  type : Option PayloadType
  payload : List UInt8
  deriving DecidableEq

/-! ## Buffers -/

/-- `Buffer.alloc`. -/
def alloc (n : ℕ) : List UInt8 := List.replicate n 0

/-- `buffer.write(s, offset)`, which writes no part of a character. -/
def write (buffer : List UInt8) (s : Str) (offset : ℕ) : List UInt8 :=
  let bytes := Utf8.encodeWithin (buffer.length - offset) s
  buffer.take offset ++ bytes ++ buffer.drop (offset + bytes.length)

def subarray (buffer : List UInt8) (start stop : ℕ) : List UInt8 := (buffer.take stop).drop start

/-- `buffer.toString('binary')`: a character for each byte. -/
def binaryToString (bs : List UInt8) : Str := bs.map fun b => Char.ofNat b.toNat

/-! ## Marshaling -/

/-- `none` where the type is `null`, which has no `toString`. -/
def marshalProtocolMessage (msg : Message) : Option (List UInt8) := do
  let type ← msg.type
  let reservedBits := alloc (messageReservedBitsLength / 8)
  let buffer := alloc (5 + 42 + 42 + 42 + 36 + 64 + 1 + reservedBits.length + msg.payload.length)
  let buffer := write buffer msg.opcode 0
  let buffer := write buffer msg.sender 5
  let buffer := write buffer msg.recipient (5 + 42)
  let buffer := write buffer msg.shield (5 + 42 + 42)
  let buffer := write buffer msg.identifier (5 + 42 + 42 + 42)
  let buffer := write buffer (Utf8.decode reservedBits) (5 + 42 + 42 + 42 + 36)
  let buffer := write buffer msg.signature (5 + 42 + 42 + 42 + 36 + reservedBits.length)
  let buffer := write buffer (Nat.toDigits 10 type.value)
    (5 + 42 + 42 + 42 + 36 + reservedBits.length + 64)
  let payload := match type with
    | .binary => binaryToString msg.payload
    | .text => Utf8.decode msg.payload
  some (write buffer payload (5 + 42 + 42 + 42 + 36 + reservedBits.length + 64 + 1))

def unmarshalProtocolMessage (msg : List UInt8) : Message :=
  let reservedSize := messageReservedBitsLength / 8
  let type := Utf8.decode (subarray msg (5 + 42 + 42 + 42 + 36 + 64 + reservedSize)
    (5 + 42 + 42 + 42 + 36 + 64 + 1 + reservedSize))
  { opcode := (Utf8.decode (subarray msg 0 5)).filter (· ≠ '\x00')
    sender := Utf8.decode (subarray msg 5 (5 + 42))
    recipient := Utf8.decode (subarray msg (5 + 42) (5 + 42 + 42))
    shield := Utf8.decode (subarray msg (5 + 42 + 42) (5 + 42 + 42 + 42))
    identifier := Utf8.decode (subarray msg (5 + 42 + 42 + 42) (5 + 42 + 42 + 42 + 36))
    signature := Utf8.decode (subarray msg (5 + 42 + 42 + 42 + 36 + reservedSize)
      (5 + 42 + 42 + 42 + 36 + 64 + reservedSize))
    type := if type = ['0'] then some .binary else if type = ['1'] then some .text else none
    payload := msg.drop (5 + 42 + 42 + 42 + 36 + 64 + reservedSize + 1) }

end Protocol

end Baseline
