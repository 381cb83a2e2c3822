import Baseline.CalcRoot
import Baseline.Proofs.MerkleTreeSHA256
import Mathlib.Data.Fin.VecNotation

/-!
# Circuit and contract have one root

Going up, the circuit's bits are those of the digests on the leaf's path (`round_bits`): of what it
has it hashes the low 216 bits, which is what the contract keeps of a digest, and the bit of the
index at a level says whether the path comes up on the right there. At the top this is the root of
the tree, which is the contract's (`main_latestRoot`).
-/

namespace Baseline

open HashTree MerkleTreeSHA256

namespace CalcRoot

/-! ## Bits -/

def bit (b : Bool) : Field := Field.ofNat b.toNat

/-- The bits of a number, the most significant first. -/
def bits (n v : ℕ) : FieldArray n := fun i => bit (v.testBit (n - 1 - i))

theorem bits_mod (n v : ℕ) : bits n (v % 2 ^ n) = bits n v := by
  funext i
  have hlt : n - 1 - i < n := by omega
  simp only [bits, Nat.testBit_mod_two_pow, hlt, decide_true, Bool.true_and]

theorem slice_bits {n : ℕ} (v lo : ℕ) {hi : ℕ} (h : hi ≤ n) :
    slice (bits n v) lo hi h = bits (hi - lo) (v / 2 ^ (n - hi)) := by
  funext i
  have hsum : n - 1 - (lo + i) = hi - lo - 1 - i + (n - hi) := by omega
  simp only [slice, bits, Nat.testBit_div_two_pow, hsum]

/-- What the circuit keeps of a value. -/
theorem slice_value (v : Bytes 32) :
    slice (bits 256 (bytesValue v.1)) 40 256 (by decide) = bits 216 (bytesValue v.low27.1) := by
  have hsplit := bytesValue_append (v.1.take 5) (v.1.drop 5)
  have hlen : (v.1.drop 5).length = 27 := by simp [v.2]
  have hlt := bytesValue_lt (v.1.drop 5)
  rw [List.take_append_drop, hlen] at hsplit
  rw [hlen] at hlt
  rw [slice_bits, ← bits_mod, hsplit, Bytes.low27_val]
  norm_num at hlt ⊢
  rw [Nat.mod_eq_of_lt hlt]

theorem bytesValue_halves (v : Bytes 32) :
    bytesValue v.1 = (halves v).1 * 2 ^ 128 + (halves v).2 := by
  have hsplit := bytesValue_append (v.1.take 16) (v.1.drop 16)
  rw [List.take_append_drop, List.length_drop, v.2] at hsplit
  exact hsplit

/-! ## What is imported -/

/-- The imported functions do what their names say: `unpack` gives the bits of numbers of their
widths, the index bit puts the node right of its sibling, and padding and one block are SHA-256 of
54 bytes. -/
structure Imports.Sound (sha256 : List UInt8 → Bytes 32) (imports : Imports) : Prop where
  unpack128 : ∀ x < 2 ^ 128, imports.unpack128 (Field.ofNat x) = bits 128 x
  unpack1x216To216x1 : ∀ x < 2 ^ 216, imports.unpack1x216To216x1 (Field.ofNat x) = bits 216 x
  unpack2x128To256x1 : ∀ x < 2 ^ 128, ∀ y < 2 ^ 128,
    imports.unpack2x128To256x1 ![Field.ofNat x, Field.ofNat y] = bits 256 (x * 2 ^ 128 + y)
  orderedConcatenate216x216 : ∀ right : Bool, ∀ node < 2 ^ 216, ∀ sibling < 2 ^ 216,
    imports.orderedConcatenate216x216 (bit right) (bits 216 node) (bits 216 sibling)
      = bits 432 (if right then sibling * 2 ^ 216 + node else node * 2 ^ 216 + sibling)
  sha256 : ∀ m : Bytes 54,
    let preimage512 := imports.shaPad432To512 (bits 432 (bytesValue m.1))
    imports.sha256of512 (slice preimage512 0 256 (by decide))
      (slice preimage512 256 512 (by decide)) = bits 256 (bytesValue (sha256 m.1).1)

/-- A leaf in two limbs. -/
def leafLimbs (v : Bytes 32) : FieldArray 2 := ![Field.ofNat (halves v).1, Field.ofNat (halves v).2]

/-- The siblings on the path of leaf `k`, the one below the root first. -/
def siblings (sha256 : List UInt8 → Bytes 32) (h : ℕ) (ls : List (Bytes 27)) (k : ℕ) :
    FieldArray h := fun j =>
  Field.ofNat (bytesValue ((shaScheme (precompile sha256)).node ls (h - 1 - j)
    (beside (k / 2 ^ (h - 1 - j)))).1)

section Circuit

variable {sha256 : List UInt8 → Bytes 32} {imports : Imports} {h k : ℕ} {ls : List (Bytes 27)}

theorem bytesValue_pair (a b : Bytes 27) :
    bytesValue (a.append b).1 = bytesValue a.1 * 2 ^ 216 + bytesValue b.1 := by
  have happ := bytesValue_append a.1 b.1
  rw [b.2] at happ
  exact happ

theorem bytesValue_lt_two_pow {n : ℕ} (a : Bytes n) : bytesValue a.1 < 2 ^ (8 * n) := by
  have hlt := bytesValue_lt a.1
  rwa [a.2, show 256 = 2 ^ 8 by norm_num, ← pow_mul] at hlt

/-- One turn of the loop hashes a node with the one beside it. -/
theorem round_bits (hs : imports.Sound sha256) (h128 : h ≤ 128) {v : Bytes 32} (i : Fin h)
    (hv : v.low27 = (shaScheme (precompile sha256)).node ls i (k / 2 ^ (i : ℕ))) :
    round imports (siblings sha256 h ls k) (bits 128 k) (bits 256 (bytesValue v.1)) i
      = bits 256 (bytesValue ((shaScheme (precompile sha256)).digest ls i
          (k / 2 ^ (i : ℕ) / 2)).1) := by
  have hj : h - 1 - (h - 1 - (i : ℕ)) = i := by omega
  have hk : 128 - 1 - (127 - (i : ℕ)) = i := by omega
  unfold round
  simp only [siblings, hj, slice_value, hv]
  have hbit : bits 128 k ⟨127 - i, by omega⟩ = bit (k / 2 ^ (i : ℕ) % 2 = 1) := by
    simp only [bits, hk, Nat.testBit_eq_decide_div_mod_eq]
  rw [hbit, hs.unpack1x216To216x1 _ (bytesValue_lt_two_pow _),
    hs.orderedConcatenate216x216 _ _ (bytesValue_lt_two_pow _) _ (bytesValue_lt_two_pow _),
    Scheme.digest_beside]
  rcases Nat.mod_two_eq_zero_or_one (k / 2 ^ (i : ℕ)) with heven | hodd
  · rw [if_pos heven, if_neg (by simp [heven]), ← bytesValue_pair]
    exact hs.sha256 _
  · have hright : decide (k / 2 ^ (i : ℕ) % 2 = 1) = true := by simpa using hodd
    rw [if_pos hright, if_neg (by omega), ← bytesValue_pair]
    exact hs.sha256 _

/-- The bits before a level: those of a value on the leaf's path, a digest above the leaves. -/
def Climbed (sha256 : List UInt8 → Bytes 32) (ls : List (Bytes 27)) (k l : ℕ)
    (nodeValueBits : FieldArray 256) : Prop :=
  ∃ v : Bytes 32, nodeValueBits = bits 256 (bytesValue v.1) ∧
    v.low27 = (shaScheme (precompile sha256)).node ls l (k / 2 ^ l) ∧
    ∀ m, l = m + 1 → v = (shaScheme (precompile sha256)).digest ls m (k / 2 ^ l)

theorem climbed_round (hs : imports.Sound sha256) (h128 : h ≤ 128) (hk : k < ls.length)
    {nodeValueBits : FieldArray 256} (i : Fin h) (hc : Climbed sha256 ls k i nodeValueBits) :
    Climbed sha256 ls k (i + 1)
      (round imports (siblings sha256 h ls k) (bits 128 k) nodeValueBits i) := by
  obtain ⟨v, rfl, hv, -⟩ := hc
  have hup := div_two_pow_succ k i
  have hlt := (Nat.div_mul_le_self k (2 ^ ((i : ℕ) + 1))).trans_lt hk
  refine ⟨(shaScheme (precompile sha256)).digest ls i (k / 2 ^ ((i : ℕ) + 1)), ?_, ?_, ?_⟩
  · rw [round_bits hs h128 i hv, hup]
  · rw [Scheme.node_succ hlt]
    rfl
  · intro m hm
    rw [Nat.add_right_cancel hm]

end Circuit

/-- A `for` that keeps `P` from one turn to the next. -/
theorem foldl_finRange {A : Type*} {n : ℕ} {P : ℕ → A → Prop} {f : A → Fin n → A} {a : A}
    (h0 : P 0 a) (step : ∀ (i : Fin n) b, P i b → P (i + 1) (f b i)) :
    P n ((List.finRange n).foldl f a) := by
  have hrun : ∀ m ≤ n, P m (((List.finRange n).take m).foldl f a) := by
    intro m
    induction m with
    | zero => exact fun _ => h0
    | succ m ih =>
      intro hm
      have hlen : m < (List.finRange n).length := by simpa using hm
      rw [← List.take_concat_get' _ _ hlen, List.foldl_append]
      have hget : (List.finRange n)[m] = ⟨m, hm⟩ := by simp
      simpa [hget] using step ⟨m, hm⟩ _ (ih (by omega))
  have hall := hrun n le_rfl
  rwa [List.take_of_length_le (by simp)] at hall

/-! ## The functions themselves -/

/-- The number that bits spell. -/
def number {n : ℕ} (a : FieldArray n) : ℕ := Nat.ofBits fun i => a i.rev = bit true

theorem number_bits {n v : ℕ} (h : v < 2 ^ n) : number (bits n v) = v := by
  have hbits : (fun i : Fin n => decide (bits n v i.rev = bit true))
      = fun i : Fin n => v.testBit i := by
    funext i
    have hrev : n - 1 - (i.rev : ℕ) = i := by
      rw [Fin.val_rev]
      omega
    rw [bits, hrev]
    cases v.testBit i <;> rfl
  rw [number, hbits, Nat.ofBits_testBit, Nat.mod_eq_of_lt h]

/-- SHA-256 without its padding, of one block. -/
def oneBlock (block : List UInt8) : Bytes 32 :=
  let s := Sha256.blocks 1 (Sha256.words block) Sha256.start
  ⟨Sha256.bigEndian 4 s.a ++ Sha256.bigEndian 4 s.b ++ Sha256.bigEndian 4 s.c ++
    Sha256.bigEndian 4 s.d ++ Sha256.bigEndian 4 s.e ++ Sha256.bigEndian 4 s.f ++
    Sha256.bigEndian 4 s.g ++ Sha256.bigEndian 4 s.h, by simp [Sha256.bigEndian]⟩

def reference : Imports where
  sha256of512 a b :=
    bits 256 (bytesValue (oneBlock (Sha256.bigEndian 64 (number a * 2 ^ 256 + number b))).1)
  shaPad432To512 a := bits 512 (number a * 2 ^ 80 + (2 ^ 79 + 432))
  unpack128 x := bits 128 x
  unpack1x216To216x1 x := bits 216 x
  unpack2x128To256x1 x := bits 256 (x ⟨0, Nat.two_pos⟩ * 2 ^ 128 + x ⟨1, Nat.one_lt_two⟩)
  orderedConcatenate216x216 right node sibling :=
    bits 432 (if right = bit true then number sibling * 2 ^ 216 + number node
      else number node * 2 ^ 216 + number sibling)

/-- The two halves that the circuit passes on. -/
theorem number_slices {v : ℕ} (h : v < 2 ^ 256 * 2 ^ 256) :
    number (slice (bits 512 v) 0 256 (by decide)) * 2 ^ 256
      + number (slice (bits 512 v) 256 512 (by decide)) = v := by
  have hhigh : number (slice (bits 512 v) 0 256 (by decide)) = v / 2 ^ 256 := by
    rw [slice_bits]
    exact number_bits (n := 256) (Nat.div_lt_of_lt_mul h)
  have hlow : number (slice (bits 512 v) 256 512 (by decide)) = v % 2 ^ 256 := by
    rw [slice_bits, ← bits_mod, Nat.sub_self, pow_zero, Nat.div_one]
    exact number_bits (n := 256) (Nat.mod_lt _ (by norm_num))
  rw [hhigh, hlow, Nat.div_add_mod']

theorem length_pad (m : Bytes 54) : (Sha256.pad m.1).length = 64 := by
  simp [Sha256.pad, m.2, length_bigEndian]

theorem digest_eq_oneBlock (m : Bytes 54) :
    Sha256.digest m.1 = oneBlock (Sha256.pad m.1) := by
  have hone : (Sha256.pad m.1).length / 64 = 1 := by rw [length_pad]
  exact Bytes.ext (by simp only [Sha256.digest, oneBlock, hone])

theorem bytesValue_pad (m : Bytes 54) :
    bytesValue (Sha256.pad m.1) = bytesValue m.1 * 2 ^ 80 + (2 ^ 79 + 432) := by
  have htail :
      bytesValue (0x80 :: List.replicate 1 0 ++ Sha256.bigEndian 8 432) = 2 ^ 79 + 432 := by
    decide
  have happ := bytesValue_append m.1 (0x80 :: List.replicate 1 0 ++ Sha256.bigEndian 8 432)
  rw [htail, List.length_append, length_bigEndian] at happ
  rw [Sha256.pad, m.2, List.append_assoc]
  exact happ

theorem ofNat_val {x : ℕ} (h : x < 2 ^ 216) : (Field.ofNat x).val = x :=
  Nat.mod_eq_of_lt (h.trans (by norm_num))

theorem reference_sound : reference.Sound Sha256.digest where
  unpack128 x hx := congrArg (bits 128) (ofNat_val (hx.trans (by norm_num)))
  unpack1x216To216x1 x hx := congrArg (bits 216) (ofNat_val hx)
  unpack2x128To256x1 x hx y hy := by
    have hx' := ofNat_val (hx.trans (by norm_num))
    have hy' := ofNat_val (hy.trans (by norm_num))
    simp [reference, hx', hy']
  orderedConcatenate216x216 right node hn sibling hs := by
    have hone : bit false ≠ bit true := by decide
    cases right <;> simp [reference, number_bits hn, number_bits hs, hone]
  sha256 m := by
    have hpad := bytesValue_lt (Sha256.pad m.1)
    rw [length_pad] at hpad
    have hlt : bytesValue (Sha256.pad m.1) < 2 ^ 256 * 2 ^ 256 := hpad.trans_le (by norm_num)
    have hblock : Sha256.bigEndian 64 (bytesValue (Sha256.pad m.1)) = Sha256.pad m.1 := by
      refine bytesValue_inj (by rw [length_bigEndian, length_pad]) ?_
      rw [bytesValue_bigEndian, Nat.mod_eq_of_lt hpad]
    have hm : number (bits 432 (bytesValue m.1)) = bytesValue m.1 :=
      number_bits (n := 8 * 54) (bytesValue_lt_two_pow m)
    simp only [reference, hm, ← bytesValue_pad, number_slices hlt, hblock, digest_eq_oneBlock]

/-! ## The root -/

/-- The circuit for height `h` gives the contract's root, for every leaf of every tree. -/
def ReturnsRoot (sha256 : List UInt8 → Bytes 32) (h : ℕ)
    (circuit : FieldArray h → FieldArray 2 → Field → FieldArray 256) : Prop :=
  ∀ (leaves : List (Bytes 32)) (i : ℕ) (hi : i < leaves.length), leaves.length ≤ 2 ^ h →
    ∃ t, insertEach (precompile sha256) (new h) leaves = some t ∧
      circuit (siblings sha256 h (leaves.map Bytes.low27) i) (leafLimbs leaves[i]) (Field.ofNat i)
        = bits 256 (bytesValue t.latestRoot.1)

theorem main_latestRoot {sha256 : List UInt8 → Bytes 32} {imports : Imports} {h : ℕ}
    (hs : imports.Sound sha256) (hh : 1 ≤ h) (h32 : h ≤ 32) :
    ReturnsRoot sha256 h (main imports) := by
  intro leaves i hi hn
  obtain ⟨t, hcalls, -, hroot, -⟩ := insertLeaf_calls (precompile sha256) hh h32 leaves hn
  have hne : leaves ≠ [] := List.ne_nil_of_length_pos (by omega)
  have hpow : 2 ^ h ≤ 2 ^ 32 := Nat.pow_le_pow_right (by norm_num) h32
  have hleaf : i < (leaves.map Bytes.low27).length := by simpa using hi
  refine ⟨t, hcalls, ?_⟩
  have hstart : Climbed sha256 (leaves.map Bytes.low27) i 0
      (imports.unpack2x128To256x1 (leafLimbs leaves[i])) := by
    refine ⟨leaves[i], ?_, ?_, fun m hm => absurd hm (by omega)⟩
    · rw [leafLimbs, hs.unpack2x128To256x1 _ (halves_lt _).1 _ (halves_lt _).2,
        ← bytesValue_halves]
    · simp [Scheme.node, hi]
  have h128 : h ≤ 128 := by omega
  obtain ⟨v, hbits, -, hdigest⟩ := foldl_finRange (P := Climbed sha256 _ i) hstart
    fun l _ hc => climbed_round hs h128 hleaf l hc
  have htop : i / 2 ^ h = 0 := Nat.div_eq_of_lt (by omega)
  rw [main, hs.unpack128 _ (by omega), hbits, hroot hne, hdigest (h - 1) (by omega), htop]
  rfl

theorem calcRoot_latestRoot (sha256 : List UInt8 → Bytes 32) (imports : Imports)
    (hs : imports.Sound sha256) :
    ReturnsRoot sha256 4 (calcRootFromSiblingPathSha256Height4 imports) ∧
      ReturnsRoot sha256 32 (calcRootFromSiblingPathSha256Height32 imports) :=
  ⟨main_latestRoot hs (by norm_num) (by norm_num), main_latestRoot hs (by norm_num) (by norm_num)⟩

/-- The right of two leaves, at height 4. -/
theorem calcRoot_latestRoot_two :
    ∃ t, insertEach (precompile Sha256.digest) (new 4) [Bytes.fill 32 1, Bytes.fill 32 2] = some t ∧
      calcRootFromSiblingPathSha256Height4 reference
          (siblings Sha256.digest 4 [Bytes.fill 27 1, Bytes.fill 27 2] 1)
          (leafLimbs (Bytes.fill 32 2)) 1
        = bits 256 (bytesValue t.latestRoot.1) :=
  (calcRoot_latestRoot Sha256.digest reference reference_sound).1
    [Bytes.fill 32 1, Bytes.fill 32 2] 1 (by decide) (by decide)

end CalcRoot

end Baseline
