import Baseline.Bytes
import Mathlib.Algebra.Ring.Int.Defs
import Mathlib.Algebra.Ring.Nat

/-!
# Indices, hashes and arrays of the commit manager

The pure functions of `merkle-tree/utils.js` and `hash.js` with the constants of `config.ts`, for
the default `HASH_TYPE`. Node indices stay far below `2 ^ 53`, so a `Number` that holds one is a
natural number; only `getFrontierSlot` uses 32-bit operators. Node's sha256 is a parameter.
-/

namespace Baseline

namespace CommitMgr

/-! ## Arrays with holes -/

section Arrays

variable {α : Type}

/-- `a[i]`, where a hole and what lies past the end read alike. -/
def entry (a : List (Option α)) (i : ℕ) : Option α := a[i]?.join

/-- `a[i] = x`. -/
def setEntry (a : List (Option α)) (i : ℕ) (x : α) : List (Option α) :=
  if i < a.length then a.set i (some x) else a ++ List.replicate (i - a.length) none ++ [some x]

/-- `a.length = n`. -/
def setLength (a : List (Option α)) (n : ℕ) : List (Option α) :=
  a.take n ++ List.replicate (n - a.length) none

end Arrays

/-! ## `config.ts` -/

def BUCKET_SIZE : ℕ := 25000

def NODE_HASHLENGTH : ℕ := 27

def ZERO : Str := '0' :: 'x' :: List.replicate 54 '0'

/-! ## `hash.js` -/

def strip0x : Str → Str
  | '0' :: 'x' :: hex => hex
  | hex => hex

section Hash

variable (sha256 : List UInt8 → Bytes 32)

def shaHash (a b : Str) : Str :=
  hexlify (sha256 (bufferFromHex (strip0x a) ++ bufferFromHex (strip0x b)))

/-- Of two items, as every caller has. -/
def concatenateThenHash (a b : Str) : Str :=
  shaHash sha256 (sliceLast (NODE_HASHLENGTH * 2) a) (sliceLast (NODE_HASHLENGTH * 2) b)

end Hash

/-! ## `utils.js` -/

def rightShift (integer shift : ℕ) : ℕ := integer / 2 ^ shift

def calculateBucket (nodeIndex : ℕ) : ℕ := nodeIndex / BUCKET_SIZE

def leafIndexToNodeIndex (treeHeight leafIndex : ℕ) : ℕ := leafIndex + 2 ^ treeHeight - 1

def siblingNodeIndex (nodeIndex : ℕ) : ℕ :=
  -- the root's sibling would be `-1`, which the source turns into `0`
  if nodeIndex % 2 = 1 then nodeIndex + 1 else nodeIndex - 1

/-- Never called at the root. -/
def parentNodeIndex (nodeIndex : ℕ) : ℕ :=
  if nodeIndex % 2 = 1 then rightShift nodeIndex 1 else rightShift (nodeIndex - 1) 1

/-- The `while` of `getPathIndices`, in at most as many turns as the first argument. -/
def pathIndicesLoop : ℕ → ℕ → List ℕ
  | 0, _ => []
  | fuel + 1, nodeIndex =>
    if nodeIndex > 0 then
      parentNodeIndex nodeIndex :: pathIndicesLoop fuel (parentNodeIndex nodeIndex)
    else []

/-- The index shrinks at every turn. -/
def getPathIndices (nodeIndex : ℕ) : List ℕ := pathIndicesLoop nodeIndex nodeIndex

def getSiblingPathIndices (nodeIndex : ℕ) : List ℕ :=
  siblingNodeIndex nodeIndex :: (getPathIndices nodeIndex).map siblingNodeIndex

/-- What `<<` makes of a number: its low 32 bits, signed. -/
def toInt32 (n : ℤ) : ℤ := n.bmod (2 ^ 32)

/-- The `while` of `getFrontierSlot`. Once the shift has made `pow2` zero the remainder is `NaN`
for good, so a loop that has not ended after 32 turns never ends. -/
def frontierSlotLoop (leafIndex : ℕ) : ℕ → ℕ → ℤ → ℤ → Option ℕ
  | 0, _, _, _ => none
  | fuel + 1, exp1, pow1, pow2 =>
    if pow2 ≠ 0 ∧ (leafIndex + 1 - pow1).tmod pow2 = 0 then some exp1
    else frontierSlotLoop leafIndex fuel (exp1 + 1) pow2 (toInt32 (pow2 * 2))

/-- `none` if it never returns. -/
def getFrontierSlot (leafIndex : ℕ) : Option ℕ :=
  if leafIndex % 2 = 1 then frontierSlotLoop leafIndex 32 1 2 (toInt32 (2 * 2)) else some 0

/-- The `for` of `getNumberOfHashes`, so many levels of it. -/
def numberOfHashesLoop : ℕ → ℕ → ℕ → ℤ → ℤ
  | 0, _, _, hashCount => hashCount
  | levels + 1, hi, lo, hashCount =>
    let increment : ℤ := hi - lo
    numberOfHashesLoop levels (rightShift hi 1) (rightShift lo 1) (hashCount + increment)

def getNumberOfHashes (maxLeafIndex minLeafIndex height : ℕ) : ℤ :=
  let batchSize : ℤ := maxLeafIndex - minLeafIndex + 1
  let binHi := Nat.toDigits 2 maxLeafIndex
  numberOfHashesLoop binHi.length maxLeafIndex minLeafIndex 0 + height - (batchSize - 1)

end CommitMgr

end Baseline
