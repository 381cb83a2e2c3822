import Baseline.Pairing
import Baseline.Proofs.Mimc

/-!
# Which lists `merkleHash` ends on

The calls of a run that ends are a derivation (`evaluates_iff`). From a power of two leaves there is
one, and its hash is the root that the pairs have (`evaluates_pow`). Any other length is halved to
`2 ^ (k + 1) + 1` (`exists_halving`), and that to three, whose half is one leaf, which is halved
for ever. Before that comes one block of every smaller power of two, so the call ends only if one of
them throws (`ends_iff_of_halving`), and none does where the leaves are of the field.
-/

namespace Baseline

namespace Mimc

variable (keccak256 : List UInt8 → Bytes 32)

/-- The node over two others, if `mimcHash` does not throw. -/
def parent (left right : Value) : Option Value :=
  (mimcHash keccak256 [left, right]).toOption.map .text

/-- The node that adjacent pairs are hashed to, from the leaves upwards. -/
def merkleRoot (leaves : List Value) : Option Value := Pairing.root (parent keccak256) leaves

/-! ## The calls -/

section Calls

/-- A run of `merkleHash` that ends, with a hash or with what was thrown. -/
inductive Evaluates : List Value → Except Str Str → Prop
  | two {leaves : List Value} (h : leaves.length = 2) : Evaluates leaves (mimcHash keccak256 leaves)
  | left {leaves : List Value} {e : Str} (h : leaves.length ≠ 2)
    (hleft : Evaluates (leaves.take (leaves.length / 2)) (.error e)) : Evaluates leaves (.error e)
  | right {leaves : List Value} {left e : Str} (h : leaves.length ≠ 2)
    (hleft : Evaluates (leaves.take (leaves.length / 2)) (.ok left))
    (hright : Evaluates (leaves.drop (leaves.length / 2)) (.error e)) : Evaluates leaves (.error e)
  | node {leaves : List Value} {left right : Str} (h : leaves.length ≠ 2)
    (hleft : Evaluates (leaves.take (leaves.length / 2)) (.ok left))
    (hright : Evaluates (leaves.drop (leaves.length / 2)) (.ok right)) :
    Evaluates leaves (mimcHash keccak256 [.text left, .text right])

variable {keccak256}

theorem evaluates_of_within : ∀ (calls : ℕ) {leaves : List Value} {result : Except Str Str},
    merkleHashWithin keccak256 calls leaves = some result → Evaluates keccak256 leaves result
  | calls + 1, leaves, result, h => by
    rw [merkleHashWithin] at h
    by_cases htwo : leaves.length = 2
    · rw [if_pos htwo] at h
      rw [← Option.some.inj h]
      exact .two htwo
    rw [if_neg htwo] at h
    obtain ⟨left | left, hleft, h⟩ := Option.bind_eq_some_iff.1 h
    · rw [← Option.some.inj h]
      exact .left htwo (evaluates_of_within calls hleft)
    obtain ⟨right | right, hright, h⟩ := Option.bind_eq_some_iff.1 h
    · rw [← Option.some.inj h]
      exact .right htwo (evaluates_of_within calls hleft) (evaluates_of_within calls hright)
    · rw [← Option.some.inj h]
      exact .node htwo (evaluates_of_within calls hleft) (evaluates_of_within calls hright)

/-- Deeper calls do not change a result. -/
theorem Evaluates.within {leaves : List Value} {result : Except Str Str}
    (h : Evaluates keccak256 leaves result) :
    ∃ depth, ∀ calls, depth ≤ calls → merkleHashWithin keccak256 calls leaves = some result := by
  induction h with
  | two h =>
    refine ⟨1, fun calls hcalls => ?_⟩
    obtain ⟨calls, rfl⟩ := Nat.exists_eq_add_of_le' hcalls
    exact if_pos h
  | left h _ ih =>
    obtain ⟨d, hd⟩ := ih
    refine ⟨d + 1, fun calls hcalls => ?_⟩
    obtain ⟨calls, rfl⟩ := Nat.exists_eq_add_of_le' (Nat.le_of_add_left_le hcalls)
    rw [merkleHashWithin, if_neg h, hd calls (by omega)]
    rfl
  | right h _ _ ihl ihr | node h _ _ ihl ihr =>
    obtain ⟨d, hd⟩ := ihl
    obtain ⟨d', hd'⟩ := ihr
    refine ⟨max d d' + 1, fun calls hcalls => ?_⟩
    obtain ⟨calls, rfl⟩ := Nat.exists_eq_add_of_le' (Nat.le_of_add_left_le hcalls)
    rw [merkleHashWithin, if_neg h, hd calls (by omega), hd' calls (by omega)]
    rfl

theorem evaluates_iff {leaves : List Value} {result : Except Str Str} :
    Evaluates keccak256 leaves result
      ↔ ∃ calls, merkleHashWithin keccak256 calls leaves = some result := by
  constructor
  · intro h
    obtain ⟨depth, hdepth⟩ := h.within
    exact ⟨depth, hdepth depth le_rfl⟩
  · rintro ⟨calls, hcalls⟩
    exact evaluates_of_within calls hcalls

theorem Evaluates.unique {leaves : List Value} {result result' : Except Str Str}
    (h : Evaluates keccak256 leaves result) (h' : Evaluates keccak256 leaves result') :
    result = result' := by
  obtain ⟨depth, hdepth⟩ := h.within
  obtain ⟨depth', hdepth'⟩ := h'.within
  exact Option.some.inj ((hdepth _ (le_max_left depth depth')).symm.trans
    (hdepth' _ (le_max_right depth depth')))

theorem Evaluates.two_le {leaves : List Value} {result : Except Str Str}
    (h : Evaluates keccak256 leaves result) : 2 ≤ leaves.length := by
  induction h with
  | two h => exact h.ge
  | left _ _ ih | right _ _ _ ih _ | node _ _ _ ih _ =>
    rw [List.length_take] at ih
    omega

/-- Two halves of one length have an even number of leaves together. -/
theorem Evaluates.length_of_ok {leaves : List Value} {hash : Str}
    (h : Evaluates keccak256 leaves (.ok hash)) : ∃ k, leaves.length = 2 ^ (k + 1) := by
  generalize hok : Except.ok hash = result at h
  induction h generalizing hash with
  | two h => exact ⟨0, h⟩
  | left | right => cases hok
  | node h _ _ ihl ihr =>
    obtain ⟨a, ha⟩ := ihl rfl
    obtain ⟨b, hb⟩ := ihr rfl
    rw [List.length_take] at ha
    rw [List.length_drop] at hb
    refine ⟨a + 1, ?_⟩
    rw [pow_succ'] at ha hb ⊢
    rw [pow_succ']
    omega

variable (keccak256) in
def Ends (leaves : List Value) : Prop := ∃ result, Evaluates keccak256 leaves result

theorem ends_iff {leaves : List Value} (h : leaves.length ≠ 2) :
    Ends keccak256 leaves ↔
      (∃ e, Evaluates keccak256 (leaves.take (leaves.length / 2)) (.error e)) ∨
      (∃ left, Evaluates keccak256 (leaves.take (leaves.length / 2)) (.ok left)) ∧
        Ends keccak256 (leaves.drop (leaves.length / 2)) := by
  constructor
  · rintro ⟨result, hresult⟩
    cases hresult with
    | two h' => exact absurd h' h
    | left _ hleft => exact .inl ⟨_, hleft⟩
    | right _ hleft hright => exact .inr ⟨⟨_, hleft⟩, _, hright⟩
    | node _ hleft hright => exact .inr ⟨⟨_, hleft⟩, _, hright⟩
  · rintro (⟨e, hleft⟩ | ⟨⟨left, hleft⟩, right | right, hright⟩)
    · exact ⟨_, .left h hleft⟩
    · exact ⟨_, .right h hleft hright⟩
    · exact ⟨_, .node h hleft hright⟩

end Calls

/-! ## Powers of two -/

section Powers

variable {keccak256}

theorem merkleRoot_halves {k : ℕ} {leaves : List Value} (h : leaves.length = 2 ^ (k + 1)) :
    merkleRoot keccak256 leaves = (do
      let left ← merkleRoot keccak256 (leaves.take (leaves.length / 2))
      let right ← merkleRoot keccak256 (leaves.drop (leaves.length / 2))
      parent keccak256 left right) := by
  have hhalf : leaves.length / 2 = 2 ^ k := by
    rw [h, pow_succ', Nat.mul_div_cancel_left _ Nat.two_pos]
  have hleft : (leaves.take (leaves.length / 2)).length = 2 ^ k := by
    rw [List.length_take]
    omega
  have hright : (leaves.drop (leaves.length / 2)).length = 2 ^ k := by
    rw [List.length_drop]
    omega
  have happend := Pairing.root_append (parent keccak256) hleft hright
  rwa [List.take_append_drop] at happend

theorem evaluates_pow : ∀ (k : ℕ) {leaves : List Value}, leaves.length = 2 ^ (k + 1) →
    ∃ result, Evaluates keccak256 leaves result ∧
      result.toOption.map .text = merkleRoot keccak256 leaves
  | 0, leaves, h => by
    obtain ⟨a, b, rfl⟩ := List.length_eq_two.1 h
    exact ⟨_, .two h, (Pairing.root_pair (parent keccak256) a b).symm⟩
  | k + 1, leaves, h => by
    have htwo : leaves.length ≠ 2 := by
      have := Nat.two_pow_pos k
      rw [pow_succ', pow_succ'] at h
      omega
    have hhalf : leaves.length / 2 = 2 ^ (k + 1) := by
      rw [h, pow_succ', Nat.mul_div_cancel_left _ Nat.two_pos]
    obtain ⟨left, hleft, hlroot⟩ := @evaluates_pow k (leaves.take (leaves.length / 2)) (by
      rw [List.length_take]
      omega)
    obtain ⟨right, hright, hrroot⟩ := @evaluates_pow k (leaves.drop (leaves.length / 2)) (by
      rw [List.length_drop]
      omega)
    rw [merkleRoot_halves h, ← hlroot, ← hrroot]
    rcases left with e | left
    · exact ⟨_, .left htwo hleft, rfl⟩
    rcases right with e | right
    · exact ⟨_, .right htwo hleft hright, rfl⟩
    · exact ⟨_, .node htwo hleft hright, rfl⟩

end Powers

/-! ## Other lengths -/

section Others

theorem two_pow_div_ne (a s k : ℕ) : 2 ^ a / 2 ^ s ≠ 2 ^ (k + 1) + 1 := by
  have hk := Nat.two_pow_pos k
  rw [pow_succ']
  rcases le_total s a with h | h
  · rw [Nat.pow_div h Nat.two_pos]
    rcases a - s with _ | d
    · omega
    · rw [pow_succ']
      omega
  · have hle : 2 ^ a / 2 ^ s ≤ 1 :=
      Nat.div_le_of_le_mul (by simpa using Nat.pow_le_pow_right Nat.two_pos h)
    omega

/-- Halved often enough, a length that is no power of two is one more than one. -/
theorem exists_halving (n : ℕ) (hn : 2 ≤ n) (hpow : ¬ ∃ k, n = 2 ^ k) :
    ∃ s k, n / 2 ^ s = 2 ^ (k + 1) + 1 := by
  induction n using Nat.strong_induction_on with
  | _ n ih =>
    have htwo : n ≠ 2 := fun h => hpow ⟨1, h⟩
    by_cases hthree : n = 3
    · exact ⟨0, 0, by rw [hthree]; rfl⟩
    by_cases hhalf : ∃ k, n / 2 = 2 ^ k
    · obtain ⟨k, hk⟩ := hhalf
      have hodd : n = 2 ^ (k + 1) + 1 := by
        have heven : n ≠ 2 ^ (k + 1) := fun h => hpow ⟨_, h⟩
        rw [pow_succ'] at heven ⊢
        omega
      exact ⟨0, k, by rw [hodd, pow_zero, Nat.div_one]⟩
    · obtain ⟨s, k, hsk⟩ := ih (n / 2) (by omega) (by omega) hhalf
      exact ⟨s + 1, k, by rw [pow_succ', ← Nat.div_div_eq_div_mul, hsk]⟩

/-- The `2 ^ (j + 1)` leaves that are hashed in full on the way from the first `2 ^ (k + 1) + 1` to
the last three of them. -/
def block (k j : ℕ) (leaves : List Value) : List Value :=
  (leaves.drop (2 ^ (k + 1) - 2 ^ (j + 2))).take (2 ^ (j + 1))

/-- Two nodes cannot be hashed in one of the blocks that come before a single leaf. -/
def ThrowsFirst (leaves : List Value) : Prop :=
  ∃ s k, leaves.length / 2 ^ s = 2 ^ (k + 1) + 1 ∧
    ∃ j < k, merkleRoot keccak256 (block k j leaves) = none

variable {keccak256}

theorem block_first (k : ℕ) (leaves : List Value) :
    block (k + 1) k leaves = leaves.take (2 ^ (k + 1)) := by
  rw [block, Nat.sub_self, List.drop_zero]

theorem block_drop {k j : ℕ} (hj : j < k) (leaves : List Value) :
    block k j (leaves.drop (2 ^ (k + 1))) = block (k + 1) j leaves := by
  have hle : 2 ^ (j + 2) ≤ 2 ^ (k + 1) := Nat.pow_le_pow_right Nat.two_pos (by omega)
  have hoffset : 2 ^ (k + 1) + (2 ^ (k + 1) - 2 ^ (j + 2)) = 2 ^ (k + 2) - 2 ^ (j + 2) := by
    rw [pow_succ' 2 (k + 1)]
    omega
  rw [block, block, List.drop_drop, hoffset]

theorem block_take {k j n : ℕ} (hj : j < k) (hn : 2 ^ (k + 1) ≤ n) (leaves : List Value) :
    block k j (leaves.take n) = block k j leaves := by
  have hle : 2 ^ (j + 2) ≤ 2 ^ (k + 1) := Nat.pow_le_pow_right Nat.two_pos (by omega)
  have hend : 2 ^ (k + 1) - 2 ^ (j + 2) + 2 ^ (j + 1) ≤ n := by
    rw [pow_succ' 2 (j + 1)] at hle ⊢
    omega
  rw [block, block, List.drop_take, List.take_take, Nat.min_eq_left (by omega)]

/-- One more than a power of two: the first half is hashed, then the second comes to the same. -/
theorem ends_iff_of_length : ∀ (k : ℕ) {leaves : List Value},
    leaves.length = 2 ^ (k + 1) + 1 →
      (Ends keccak256 leaves ↔ ∃ j < k, merkleRoot keccak256 (block k j leaves) = none)
  | 0, leaves, h => by
    have hone : (leaves.take (leaves.length / 2)).length = 1 := by
      rw [List.length_take, h]
      rfl
    have hnever : ∀ result, ¬ Evaluates keccak256 (leaves.take (leaves.length / 2)) result :=
      fun result hresult => absurd hresult.two_le (by omega)
    rw [ends_iff (by omega)]
    constructor
    · rintro (⟨_, hleft⟩ | ⟨⟨_, hleft⟩, -⟩)
      · exact absurd hleft (hnever _)
      · exact absurd hleft (hnever _)
    · rintro ⟨j, hj, -⟩
      exact absurd hj (Nat.not_lt_zero j)
  | k + 1, leaves, h => by
    have hpos := Nat.two_pow_pos (k + 1)
    rw [pow_succ'] at h
    have hhalf : leaves.length / 2 = 2 ^ (k + 1) := by omega
    have ih := @ends_iff_of_length k (leaves.drop (leaves.length / 2)) (by
      rw [List.length_drop]
      omega)
    obtain ⟨left, hleft, hroot⟩ := @evaluates_pow keccak256 k (leaves.take (leaves.length / 2)) (by
      rw [List.length_take]
      omega)
    rw [ends_iff (by omega), ih, hhalf]
    rw [hhalf] at hleft hroot
    rcases left with e | left
    · -- the first half is the largest block
      refine iff_of_true (.inl ⟨e, hleft⟩) ⟨k, k.lt_succ_self, ?_⟩
      rw [block_first, ← hroot]
      rfl
    constructor
    · rintro (⟨e, herror⟩ | ⟨-, j, hj, hnone⟩)
      · cases hleft.unique herror
      · exact ⟨j, hj.trans k.lt_succ_self, by rwa [block_drop hj] at hnone⟩
    · rintro ⟨j, hj, hnone⟩
      refine .inr ⟨⟨left, hleft⟩, j, ?_⟩
      rcases Nat.lt_succ_iff_lt_or_eq.1 hj with hj | rfl
      · exact ⟨hj, by rwa [block_drop hj]⟩
      · rw [block_first, ← hroot] at hnone
        cases hnone

theorem ends_iff_of_halving {k : ℕ} : ∀ (s : ℕ) {leaves : List Value},
    leaves.length / 2 ^ s = 2 ^ (k + 1) + 1 →
      (Ends keccak256 leaves ↔ ∃ j < k, merkleRoot keccak256 (block k j leaves) = none)
  | 0, leaves, h => by
    rw [pow_zero, Nat.div_one] at h
    exact ends_iff_of_length k h
  | s + 1, leaves, h => by
    have htake : (leaves.take (leaves.length / 2)).length = leaves.length / 2 := by
      rw [List.length_take]
      omega
    rw [pow_succ', ← Nat.div_div_eq_div_mul] at h
    have hlong : 2 ^ (k + 1) ≤ leaves.length / 2 := by
      have := Nat.div_le_self (leaves.length / 2) (2 ^ s)
      omega
    have htwo : leaves.length ≠ 2 := by
      have := Nat.two_pow_pos k
      rw [pow_succ'] at hlong
      omega
    have ih := @ends_iff_of_halving k s (leaves.take (leaves.length / 2)) (by rwa [htake])
    have hblock :
        (∃ j < k, merkleRoot keccak256 (block k j (leaves.take (leaves.length / 2))) = none) ↔
          ∃ j < k, merkleRoot keccak256 (block k j leaves) = none :=
      exists_congr fun j => and_congr_right fun hj => by rw [block_take hj hlong]
    -- only a power of two leaves has a hash, so the second half is not reached
    have hnever : ∀ left, ¬ Evaluates keccak256 (leaves.take (leaves.length / 2)) (.ok left) := by
      intro left hleft
      obtain ⟨a, ha⟩ := hleft.length_of_ok
      rw [← htake, ha] at h
      exact two_pow_div_ne _ _ _ h
    rw [← hblock, ← ih, ends_iff htwo]
    constructor
    · rintro (⟨e, hleft⟩ | ⟨⟨left, hleft⟩, -⟩)
      · exact ⟨_, hleft⟩
      · exact absurd hleft (hnever left)
    · rintro ⟨e | left, hleft⟩
      · exact .inl ⟨e, hleft⟩
      · exact absurd hleft (hnever left)

end Others

/-! ## What `merkleHash` is for -/

section Upwards

/-- `merkleHash` ends, and on a power of two leaves with the node their pairs are hashed to. -/
def HashesUpwards (leaves : List Value) : Prop :=
  ∃ calls result, merkleHashWithin keccak256 calls leaves = some result ∧
    ((∃ k, leaves.length = 2 ^ k) → result.toOption.map .text = merkleRoot keccak256 leaves)

/-- An integer or a hex string of the field. -/
def IsLeaf (leaf : Value) : Prop := ∃ x, Counts leaf x ∧ InField x

variable {keccak256} {leaves : List Value}

theorem parent_isLeaf {left right : Value} (hl : IsLeaf left) (hr : IsLeaf right) :
    ∃ node, parent keccak256 left right = some node ∧ IsLeaf node := by
  obtain ⟨x, hx, hxfield⟩ := hl
  obtain ⟨y, hy, hyfield⟩ := hr
  have hfield : ∀ z ∈ [x, y], InField z :=
    List.forall_mem_cons.2 ⟨hxfield, List.forall_mem_singleton.2 hyfield⟩
  obtain ⟨hex, hhash, hlen, hdigits, hvalue⟩ :=
    @mimcHash_of_inField keccak256 _ _ (.cons hx (.cons hy .nil)) hfield
  have hne : hex ≠ [] := by
    rintro rfl
    cases hlen
  refine ⟨.text ('0' :: 'x' :: hex), ?_, _, .hex hne hdigits, hvalue⟩
  rw [parent, hhash]
  rfl

theorem not_throwsFirst (h : ∀ leaf ∈ leaves, IsLeaf leaf) : ¬ ThrowsFirst keccak256 leaves := by
  rintro ⟨s, k, hsk, j, hj, hnone⟩
  have hpos := Nat.two_pow_pos (j + 1)
  have hoffset := Nat.sub_le (2 ^ (k + 1)) (2 ^ (j + 2))
  have hlong := Nat.div_le_self leaves.length (2 ^ s)
  have hne : block k j leaves ≠ [] := by
    rw [block, ← List.length_pos_iff, List.length_take, List.length_drop]
    omega
  have hblock : ∀ leaf ∈ block k j leaves, IsLeaf leaf :=
    fun leaf hleaf => h leaf (List.mem_of_mem_drop (List.mem_of_mem_take hleaf))
  obtain ⟨node, hnode, -⟩ := Pairing.rootAt_some (fun _ _ => parent_isLeaf)
    (Nat.log 2 (block k j leaves).length) hne hblock
  cases hnone.symm.trans hnode

theorem hashesUpwards_of_pow {k : ℕ} (hlen : 2 ≤ leaves.length) (h : leaves.length = 2 ^ k) :
    HashesUpwards keccak256 leaves := by
  rcases k with _ | k
  · rw [h] at hlen
    exact absurd hlen (by decide)
  obtain ⟨result, hresult, hroot⟩ := evaluates_pow k h
  obtain ⟨calls, hcalls⟩ := evaluates_iff.1 hresult
  exact ⟨calls, result, hcalls, fun _ => hroot⟩

theorem hashesUpwards_iff_of_not_pow (hlen : 2 ≤ leaves.length)
    (hpow : ¬ ∃ k, leaves.length = 2 ^ k) :
    HashesUpwards keccak256 leaves ↔ ThrowsFirst keccak256 leaves := by
  constructor
  · rintro ⟨calls, result, hcalls, -⟩
    obtain ⟨s, k, hsk⟩ := exists_halving leaves.length hlen hpow
    exact ⟨s, k, hsk, (ends_iff_of_halving s hsk).1 ⟨result, evaluates_of_within calls hcalls⟩⟩
  · rintro ⟨s, k, hsk, hnone⟩
    obtain ⟨result, hresult⟩ := (ends_iff_of_halving s hsk).2 hnone
    obtain ⟨calls, hcalls⟩ := evaluates_iff.1 hresult
    exact ⟨calls, result, hcalls, fun h => absurd h hpow⟩

theorem merkleHash_upwards_iff (hlen : 2 ≤ leaves.length) :
    (HashesUpwards keccak256 leaves ↔
      (∃ k, leaves.length = 2 ^ k) ∨ ThrowsFirst keccak256 leaves) ∧
    ((∀ leaf ∈ leaves, IsLeaf leaf) →
      (HashesUpwards keccak256 leaves ↔ ∃ k, leaves.length = 2 ^ k)) := by
  have hiff : HashesUpwards keccak256 leaves ↔
      (∃ k, leaves.length = 2 ^ k) ∨ ThrowsFirst keccak256 leaves := by
    by_cases hpow : ∃ k, leaves.length = 2 ^ k
    · obtain ⟨k, hk⟩ := hpow
      exact iff_of_true (hashesUpwards_of_pow hlen hk) (.inl ⟨k, hk⟩)
    · rw [hashesUpwards_iff_of_not_pow hlen hpow, or_iff_right hpow]
  exact ⟨hiff, fun hleaves => hiff.trans (or_iff_left (not_throwsFirst hleaves))⟩

theorem merkleHash_upwards_four :
    2 ≤ [Value.integer 1, .integer 2, .text "0x3".toList, .integer 4].length ∧
      ∀ keccak256 : List UInt8 → Bytes 32,
        HashesUpwards keccak256 [.integer 1, .integer 2, .text "0x3".toList, .integer 4] :=
  ⟨by decide, fun _ => (merkleHash_upwards_iff (by decide)).1.2 (.inl ⟨2, rfl⟩)⟩

/-- Half of three leaves is one leaf, and half of that none, and so on. -/
theorem merkleHash_three :
    2 ≤ [Value.integer 1, .integer 2, .integer 3].length ∧
      ∀ keccak256 : List UInt8 → Bytes 32,
        (∀ calls, merkleHashWithin keccak256 calls [.integer 1, .integer 2, .integer 3] = none) ∧
          ¬ HashesUpwards keccak256 [.integer 1, .integer 2, .integer 3] := by
  refine ⟨by decide, fun keccak256 => ?_⟩
  have hnever : ∀ calls result,
      merkleHashWithin keccak256 calls [.integer 1, .integer 2, .integer 3] ≠ some result := by
    intro calls result h
    obtain ⟨j, hj, -⟩ := (ends_iff_of_length 0 rfl).1 ⟨result, evaluates_of_within calls h⟩
    exact Nat.not_lt_zero j hj
  exact ⟨fun calls => Option.eq_none_iff_forall_ne_some.2 (hnever calls),
    fun ⟨calls, result, h, _⟩ => hnever calls result h⟩

end Upwards

end Mimc

end Baseline
