import Mathlib.Data.List.GetD
import Mathlib.Data.Nat.Bitwise
import Mathlib.Data.Nat.Log
import Mathlib.Logic.Function.Basic
import Mathlib.NumberTheory.Padics.PadicVal.Defs

/-!
# Append-only hash trees

A binary tree over a list of leaves, filled from the left. Two children are hashed to a full
digest, and what goes into the hash above is the digest's truncation; a node with no leaf below
it counts as a fixed zero value. Level `0` is the leaves, and position `p` at level `l` covers
the leaves from `p * 2 ^ l` to `(p + 1) * 2 ^ l`.

A frontier keeps one value per level, from which the next leaf's path can be hashed
(`Scheme.climb`) and the frontier for the leaf after it obtained (`Scheme.push`).
-/

namespace HashTree

/-- How the values of two children combine. -/
structure Scheme (N D : Type*) where
  hash : N → N → D
  trunc : D → N
  zero : N

variable {N D : Type*} (S : Scheme N D)

/-- Position `p` at level `l`, in a tree of height `h` numbered row by row from its root. -/
def index (h l p : ℕ) : ℕ := p + 2 ^ (h - l) - 1

/-- The level of a node number, and the position at that level. -/
def levelOf (h j : ℕ) : ℕ := h - Nat.log 2 (j + 1)

def positionOf (j : ℕ) : ℕ := j + 1 - 2 ^ Nat.log 2 (j + 1)

/-- The level at which leaf `k` completes a subtree: the exponent of two in `k + 1`. -/
def slot (k : ℕ) : ℕ := padicValNat 2 (k + 1)

/-- The position beside `p` below the same parent. -/
def beside (p : ℕ) : ℕ := if p % 2 = 0 then p + 1 else p - 1

/-- The nodes on the path of leaf `k` above a level, so many levels of them, each as its level and
position. -/
def path (k : ℕ) : ℕ → ℕ → List (ℕ × ℕ)
  | _, 0 => []
  | l, n + 1 => (l + 1, k / 2 ^ (l + 1)) :: path k (l + 1) n

/-- The nodes above the leaves that a number of leaves from `k` on complete, as they do so. -/
def completed : ℕ → ℕ → List (ℕ × ℕ)
  | _, 0 => []
  | k, n + 1 => path k 0 (slot k) ++ completed (k + 1) n

/-- The position a path comes up from, by the levels at which it comes up on the right. -/
def position : List Bool → ℕ
  | [] => 0
  | right :: path => right.toNat + 2 * position path

namespace Scheme

/-- The value at level `l`, position `p`. -/
def node (ls : List N) : ℕ → ℕ → N
  | 0, p => ls.getD p S.zero
  | l + 1, p => if ls.length ≤ p * 2 ^ (l + 1) then S.zero
      else S.trunc (S.hash (node ls l (2 * p)) (node ls l (2 * p + 1)))

/-- The full digest of the two nodes below level `l + 1`, position `p`. -/
def digest (ls : List N) (l p : ℕ) : D := S.hash (S.node ls l (2 * p)) (S.node ls l (2 * p + 1))

/-- The root of the tree of height `h`, kept in full. -/
def root (ls : List N) (h : ℕ) : D := S.digest ls (h - 1) 0

/-- One level up the path of leaf `k`, its right siblings still empty. -/
def digestUp (f : ℕ → N) (k l : ℕ) (v : N) : D :=
  if k / 2 ^ l % 2 = 1 then S.hash (f l) v else S.hash v S.zero

/-- The path of leaf `k` up to level `l`. -/
def climb (f : ℕ → N) (k : ℕ) (v : N) : ℕ → N
  | 0 => v
  | l + 1 => S.trunc (S.digestUp f k l (climb f k v l))

/-- A pair is hashed for the tree of height `h`. -/
def PairOf (h : ℕ) (ls : List N) (e : N × N) : Prop :=
  ∃ l p, l < h ∧ p * 2 ^ (l + 1) < ls.length ∧
    e = (S.node ls l (2 * p), S.node ls l (2 * p + 1))

/-- Two different pairs, both in a table, go up as the same value. -/
def Collision (table : N × N → Prop) : Prop :=
  ∃ e e', e ≠ e' ∧ table e ∧ table e' ∧ S.trunc (S.hash e.1 e.2) = S.trunc (S.hash e'.1 e'.2)

/-- The levels a frontier over `ls` has to hold, below `h`: at each bit of the number of leaves,
the left sibling the next leaf meets there. -/
def IsFrontier (h : ℕ) (ls : List N) (f : ℕ → N) : Prop :=
  ∀ l < h, ls.length.testBit l → f l = S.node ls l (ls.length / 2 ^ l - 1)

/-- The frontier once leaf `k` is in: its path's value at the level it completes. -/
def push (f : ℕ → N) (k : ℕ) (v : N) : ℕ → N :=
  Function.update f (slot k) (S.climb f k v (slot k))

/-- The frontier once the leaves of a list are in, from leaf `k` on. -/
def pushAll (f : ℕ → N) (k : ℕ) : List N → ℕ → N
  | [] => f
  | v :: vs => pushAll (S.push f k v) (k + 1) vs

end Scheme

end HashTree
