import Baseline.Bytes
import Mathlib.Algebra.Ring.Nat

/-!
# The commitment circuit

`zkp/src/stateVerifier.zok`. A `field` is a residue of the group order of bn128, and
`hashes/sha256/512bitPacked`, which the circuit imports, is a parameter.
-/

namespace Baseline

/-- `field`. -/
abbrev Field : Type :=
  Fin 21888242871839275222246405745257275088548364400416034343698204186575808495617

/-- A number as an element. -/
def Field.ofNat (x : ℕ) : Field := Fin.ofNat _ x

namespace StateVerifier

/-- What the proof is made for: `main`'s arguments in order. -/
structure Inputs where
  State : Field
  MJ_ID : Field
  SupplierID : Field
  DocHash1 : Field
  DocHash2 : Field
  ContractH1 : Field
  ContractH2 : Field
  LC1 : Field
  LC2 : Field
  NC1 : Field
  NC2 : Field

variable (sha256packed : Field → Field → Field → Field → Field × Field)

/-- `NewHash`. -/
def NewHash (i : Inputs) : Field × Field :=
  let a : Field := if (i.State = 1 ∨ i.State = 2 ∨ i.State = 5) ∧ i.ContractH1 = i.State ∧
    i.ContractH2 = i.State ∧ i.SupplierID = i.State ∧ i.DocHash1 = i.State ∧
    i.DocHash2 = i.State then 0 else 1
  let b := a * i.ContractH1
  let d := a * i.SupplierID
  let e := a * i.DocHash1
  let f := a * i.DocHash2
  let g : Field := if (i.State = 3 ∨ i.State = 4) ∧ i.DocHash1 ≠ i.ContractH1 ∧
    i.DocHash2 ≠ i.ContractH2 then 1 else 0
  let h := g * b
  let Hash1 := sha256packed i.State i.MJ_ID d i.LC1
  let Hash2 := sha256packed e f h i.LC2
  sha256packed Hash1.1 Hash1.2 Hash2.1 Hash2.2

/-- `none` where an assertion fails. -/
def main (i : Inputs) : Option (Field × Field) :=
  if NewHash sha256packed i = (i.NC1, i.NC2) then some (i.MJ_ID, i.State) else none

end StateVerifier

end Baseline
