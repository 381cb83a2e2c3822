import Baseline.StateVerifier
import Mathlib.Data.List.FinRange

/-!
# The membership circuits

`calc-root-from-siblingPath-sha256-height4.zok` and `-height32.zok` under
`lib/circuits/helpers/merkle-tree`. A bit is a `field` too. What the circuits import, from ZoKrates
and from files that are not in the repository, is a parameter.
-/

namespace Baseline

namespace CalcRoot

/-- `field[n]`. -/
abbrev FieldArray (n : ℕ) : Type := Fin n → Field

/-- `a[lo..hi]`. -/
def slice {n : ℕ} (a : FieldArray n) (lo hi : ℕ) (h : hi ≤ n) : FieldArray (hi - lo) :=
  fun i => a ⟨lo + i, by omega⟩

structure Imports where
  sha256of512 : FieldArray 256 → FieldArray 256 → FieldArray 256
  shaPad432To512 : FieldArray 432 → FieldArray 512
  unpack128 : Field → FieldArray 128
  unpack1x216To216x1 : Field → FieldArray 216
  unpack2x128To256x1 : FieldArray 2 → FieldArray 256
  orderedConcatenate216x216 : Field → FieldArray 216 → FieldArray 216 → FieldArray 432

section Circuit

variable (imports : Imports) {h : ℕ} (siblingPath : FieldArray h)

/-- The body of the `for`. -/
def round (leafIndexBits : FieldArray 128) (nodeValueBits : FieldArray 256) (i : Fin h) :
    FieldArray 256 :=
  let j : Fin h := ⟨h - 1 - i, by omega⟩
  let k : Fin 128 := ⟨127 - i, by omega⟩
  let siblingNodeValueBits := imports.unpack1x216To216x1 (siblingPath j)
  let preimage432 := imports.orderedConcatenate216x216 (leafIndexBits k)
    (slice nodeValueBits 40 256 (by decide)) siblingNodeValueBits
  let preimage512 := imports.shaPad432To512 preimage432
  imports.sha256of512 (slice preimage512 0 256 (by decide)) (slice preimage512 256 512 (by decide))

/-- `main`, which the two circuits share but for the height. -/
def main (leafValue : FieldArray 2) (leafIndex : Field) : FieldArray 256 :=
  let leafIndexBits := imports.unpack128 leafIndex
  let nodeValueBits := imports.unpack2x128To256x1 leafValue
  (List.finRange h).foldl (round imports siblingPath leafIndexBits) nodeValueBits

end Circuit

def calcRootFromSiblingPathSha256Height4 (imports : Imports) (siblingPath : FieldArray 4) :
    FieldArray 2 → Field → FieldArray 256 := main imports siblingPath

def calcRootFromSiblingPathSha256Height32 (imports : Imports) (siblingPath : FieldArray 32) :
    FieldArray 2 → Field → FieldArray 256 := main imports siblingPath

end CalcRoot

end Baseline
