import Baseline.Positional
import Baseline.Privacy
import Baseline.RpcServer
import Baseline.StateVerifier

/-!
# The workflow of the base example

`createCommitment` of `base-example`'s `ParticipantStack`, the helper that turns its numbers into
bytes, and what the workflow hashes of a commitment or a document. Numbers of the `big-integer`
package and native bigints are natural numbers; `"" + x` is a number's decimal text.
-/

namespace Baseline

namespace ParticipantStack

open CommitMgr Js

/-! ## Numbers and bytes -/

/-- `bigInt(s, radix)` of digits; no digits are zero. -/
def bigInt (s : Str) (radix : ℕ) : ℕ :=
  Positional.value radix (s.map fun c => (hexVal c).getD 0)

/-- `"" + x`. -/
def text (x : ℕ) : Str := Nat.toDigits 10 x

def bnToBuf (bn : Str) : List UInt8 :=
  let hex := Nat.toDigits 16 (bigInt bn 10)
  let hex := if hex.length % 2 = 1 then '0' :: hex else hex
  let u8 := bufferFromHex hex
  -- `testa`, filled from its end; what does not fit in front of it is dropped
  if bn.length ≤ 32 then (List.replicate 16 0 ++ u8).drop u8.length else u8

/-! ## Commitments -/

structure SuppContainer where
  supplierID : ℕ := 0
  docHash1 : ℕ := 0
  docHash2 : ℕ := 0
  contractH1 : ℕ := 0
  contractH2 : ℕ := 0

structure VerifierInterface where
  mjID : ℕ
  state : ℕ
  supplierID : ℕ
  docHash1 : ℕ
  docHash2 : ℕ
  contractH1 : ℕ
  contractH2 : ℕ
  lc1 : ℕ
  lc2 : ℕ
  nc1 : ℕ
  nc2 : ℕ
  deriving DecidableEq

section CreateCommitment

variable (sha256 : List UInt8 → Bytes 32)

/-- The hash of four numbers, in two halves. -/
def hashFour (w x y z : ℕ) : ℕ × ℕ :=
  let hash := toHex (sha256 (bnToBuf (text w) ++ bnToBuf (text x) ++ bnToBuf (text y) ++
    bnToBuf (text z))).1
  (bigInt (hash.take 32) 16, bigInt ((hash.drop 32).take 32) 16)

end CreateCommitment

/-- A commitment's body; the replacer turns bigints into strings, and the job's id is a number. -/
def VerifierInterface.properties (v : VerifierInterface) : List (Str × Json) :=
  [("mjID".toList, .number v.mjID), ("state".toList, .string (text v.state)),
    ("supplierID".toList, .string (text v.supplierID)),
    ("docHash1".toList, .string (text v.docHash1)), ("docHash2".toList, .string (text v.docHash2)),
    ("contractH1".toList, .string (text v.contractH1)),
    ("contractH2".toList, .string (text v.contractH2)), ("lc1".toList, .string (text v.lc1)),
    ("lc2".toList, .string (text v.lc2)), ("nc1".toList, .string (text v.nc1)),
    ("nc2".toList, .string (text v.nc2))]

/-- `preBaselinedDocument`: the document both parties have signed, whatever it holds. -/
structure SignedDocument where
  document : Json
  completeSetSignatures : Str

def SignedDocument.properties (d : SignedDocument) : List (Str × Json) :=
  [("document".toList, d.document),
    ("completeSetSignatures".toList, .string d.completeSetSignatures)]

inductive Baselined
  /-- A commitment's JSON text, which is pushed on-chain. -/
  | commitment (v : VerifierInterface)
  /-- The JSON text the request handler makes of the promise of a commitment. -/
  | promised (v : VerifierInterface)
  /-- The JSON text of a document. -/
  | documentText (d : SignedDocument)
  /-- A document itself, which is what the handler of a notification passes. -/
  | document (d : SignedDocument)

/-- The argument `concatenateThenHash` gets. -/
def Baselined.hexValue : Baselined → Privacy.Value
  | .commitment v => .string (Json.object v.properties).stringify
  -- a promise has no properties of its own
  | .promised _ => .string (Json.object []).stringify
  | .documentText d => .string (Json.object d.properties).stringify
  | .document d => .object d.properties

end ParticipantStack

end Baseline
