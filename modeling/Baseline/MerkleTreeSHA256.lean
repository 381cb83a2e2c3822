import Baseline.Bytes
import Baseline.HashTree
import Mathlib.Data.Fin.Basic
import Mathlib.Logic.Function.Basic

/-!
# The on-chain tree

`MerkleTreeSHA256.sol`, which the shield contract inherits. Only the frontier is stored. A `uint`
is a number below `2 ^ 256` and its arithmetic wraps, since solc 0.6 does not check it; a
transaction that reverts is `none`. The sha256 precompile is a parameter, read as a function of
the 54 bytes the two `mstore`s lay out.
-/

namespace Baseline

open HashTree

/-! ## `uint` -/

def wrap (n : ℕ) : ℕ := n % 2 ^ 256

def uadd (a b : ℕ) : ℕ := wrap (a + b)

def usub (a b : ℕ) : ℕ := wrap (a + 2 ^ 256 - b)

/-- `bytes27[33]`. -/
abbrev Frontier : Type := Fin 33 → Bytes 27

namespace Frontier

/-- `frontier[i]`; an index out of range reverts. -/
def read (f : Frontier) (i : ℕ) : Option (Bytes 27) :=
  if h : i < 33 then some (f ⟨i, h⟩) else none

/-- `frontier[i] = v`. -/
def write (f : Frontier) (i : ℕ) (v : Bytes 27) : Option Frontier :=
  if h : i < 33 then some (Function.update f ⟨i, h⟩ v) else none

end Frontier

/-- `event NewLeaf`. -/
structure NewLeaf where
  leafIndex : ℕ
  leafValue : Bytes 32
  root : Bytes 32
  deriving DecidableEq

/-- `event NewLeaves`. -/
structure NewLeaves where
  minLeafIndex : ℕ
  leafValues : List (Bytes 32)
  root : Bytes 32

/-- A `bytes32[] memory`; an allocation of `2 ^ 64` elements or more reverts. -/
def Bytes32Array : Type := { l : List (Bytes 32) // l.length < 2 ^ 64 }

structure MerkleTreeSHA256 where
  treeHeight : ℕ
  treeWidth : ℕ
  latestRoot : Bytes 32
  leafCount : ℕ
  frontier : Frontier

namespace MerkleTreeSHA256

/-- `bytes27 public zero`. -/
def zero : Bytes 27 := Bytes.zeros 27

/-- The constructor. -/
def new (_treeHeight : ℕ) : MerkleTreeSHA256 where
  treeHeight := _treeHeight
  treeWidth := wrap (2 ^ _treeHeight)
  latestRoot := Bytes.zeros 32
  leafCount := 0
  frontier := fun _ => Bytes.zeros 27

/-- The `while` of `getFrontierSlot`. `pow2` doubles at every turn, so it is zero, and the modulo
reverts, before 256 turns are over. -/
def frontierSlotLoop (leafIndex : ℕ) : ℕ → ℕ → ℕ → ℕ → Option ℕ
  | 0, _, _, _ => none
  | fuel + 1, exp1, pow1, pow2 =>
    if pow2 = 0 then none
    else if usub (uadd leafIndex 1) pow1 % pow2 = 0 then some exp1
    else frontierSlotLoop leafIndex fuel (uadd exp1 1) pow2 (wrap (pow2 <<< 1))

def getFrontierSlot (leafIndex : ℕ) : Option ℕ :=
  if leafIndex % 2 = 1 then frontierSlotLoop leafIndex 256 1 2 (2 <<< 1) else some 0

/-- What a hashing loop carries up the tree. -/
structure Path where
  nodeIndex : ℕ
  nodeValue : Bytes 27
  output : Bytes 32

variable (H : Bytes 54 → Bytes 32)

/-- The body the three hashing loops share, up to the frontier index a right node reads. -/
def hashUp (f : Frontier) (i : ℕ) (p : Path) : Option Path :=
  if p.nodeIndex % 2 = 0 then do
    let leftInput ← f.read i
    let output := H (leftInput.append p.nodeValue)
    return { nodeIndex := usub p.nodeIndex 1 / 2, nodeValue := output.shl40.toBytes27, output }
  else
    let output := H (p.nodeValue.append zero)
    some { nodeIndex := p.nodeIndex / 2, nodeValue := output.shl40.toBytes27, output }

/-- The `for` of `insertLeaf`, `n` levels from `level` on. -/
def insertLeafLoop (slot : ℕ) : ℕ → ℕ → Frontier → Path → Option (Frontier × Path)
  | 0, _, f, p => some (f, p)
  | n + 1, level, f, p => do
    let f ← if level = slot then f.write slot p.nodeValue else some f
    let p ← hashUp H f level p
    insertLeafLoop slot n (level + 1) f p

/-- `insertLeaf`: the new state and the event; the root it returns is the event's. -/
def insertLeaf (t : MerkleTreeSHA256) (leafValue : Bytes 32) :
    Option (MerkleTreeSHA256 × NewLeaf) := do
  guard (t.treeWidth > t.leafCount)
  let slot ← getFrontierSlot t.leafCount
  let nodeIndex := usub (uadd t.leafCount t.treeWidth) 1
  let nodeValue := leafValue.shl40.toBytes27
  let (frontier, p) ← insertLeafLoop H slot t.treeHeight 0 t.frontier
    { nodeIndex, nodeValue, output := Bytes.zeros 32 }
  return ({ t with latestRoot := p.output, leafCount := uadd t.leafCount 1, frontier },
    { leafIndex := t.leafCount, leafValue, root := p.output })

/-- The two loops of `insertLeaves` that hash upwards, `n` levels from `level` on. -/
def hashLevels (f : Frontier) : ℕ → ℕ → Path → Option Path
  | 0, _, p => some p
  | n + 1, level, p => do
    let p ← hashUp H f (level - 1) p
    hashLevels f n (level + 1) p

/-- The variables `insertLeaves` declares ahead of its loops, with the storage they write. -/
structure Batch where
  slot : ℕ
  path : Path
  frontier : Frontier

/-- The loop of `insertLeaves` over the new leaves, the next one at `leafIndex`. -/
def insertLeavesLoop (treeWidth : ℕ) : List (Bytes 32) → ℕ → Batch → Option Batch
  | [], _, b => some b
  | leafValue :: leafValues, leafIndex, b => do
    let nodeValue := leafValue.shl40.toBytes27
    let nodeIndex := usub (uadd leafIndex treeWidth) 1
    let slot ← getFrontierSlot leafIndex
    let p : Path := { b.path with nodeIndex, nodeValue }
    if slot = 0 then
      let frontier ← b.frontier.write slot nodeValue
      insertLeavesLoop treeWidth leafValues (leafIndex + 1) { slot, path := p, frontier }
    else
      let p ← hashLevels H b.frontier slot 1 p
      let frontier ← b.frontier.write slot p.nodeValue
      insertLeavesLoop treeWidth leafValues (leafIndex + 1) { slot, path := p, frontier }

/-- `insertLeaves`. The cut to the space left follows a `require` that makes it unreachable. -/
def insertLeaves (t : MerkleTreeSHA256) (leafValues : Bytes32Array) :
    Option (MerkleTreeSHA256 × NewLeaves) := do
  let numberOfLeaves := leafValues.1.length
  guard (t.treeWidth ≥ uadd t.leafCount numberOfLeaves)
  let space := usub t.treeWidth t.leafCount
  let leafValues := if numberOfLeaves > space then leafValues.1.take space else leafValues.1
  let b ← insertLeavesLoop H t.treeWidth leafValues t.leafCount
    { slot := 0, path := ⟨0, Bytes.zeros 27, Bytes.zeros 32⟩, frontier := t.frontier }
  let p ← hashLevels H b.frontier (t.treeHeight - b.slot) (b.slot + 1) b.path
  return ({ t with
      latestRoot := p.output
      leafCount := uadd t.leafCount leafValues.length
      frontier := b.frontier },
    { minLeafIndex := t.leafCount, leafValues, root := p.output })

/-- `insertLeaf` on each value in order. -/
def insertEach (t : MerkleTreeSHA256) : List (Bytes 32) → Option MerkleTreeSHA256
  | [] => some t
  | v :: vs => do
    let (t, _) ← t.insertLeaf H v
    insertEach t vs

end MerkleTreeSHA256

/-- The precompile, for sha256 as a function of any bytes. -/
def precompile (sha256 : List UInt8 → Bytes 32) (input : Bytes 54) : Bytes 32 := sha256 input.1

/-- The tree the contract stands for: two 27-byte values hashed to 32 bytes, of which the low 27
go up. -/
def shaScheme (H : Bytes 54 → Bytes 32) : Scheme (Bytes 27) (Bytes 32) where
  hash a b := H (a.append b)
  trunc := Bytes.low27
  zero := Bytes.zeros 27

end Baseline
