import Baseline.ParticipantStack
import Baseline.Proofs.Bytes
import Baseline.Sha256

/-!
# The commitment and its circuit

`bnToBuf` pads a number to 16 bytes if its text is short, not if its bytes are (`length_bnToBuf`),
and a commitment to equal document and contract hashes keeps a contract hash that the circuit
leaves out (`contractOf_eq_iff`). Where neither matters `createCommitment` hashes the circuit's
blocks; otherwise it hashes something else, and the circuit accepts only if SHA-256 does not tell
the two apart (`commit_accepted_iff`).
-/

namespace Baseline

open Positional

namespace ParticipantStack

/-! ## Numerals -/

section Numerals

variable {b : ℕ}

theorem hexVal_lt {c : Char} {v : ℕ} (h : hexVal c = some v) : v < 16 := by
  unfold hexVal at h
  split_ifs at h with h0 ha hA
  · have hle : c.toNat ≤ '9'.toNat := h0.2
    simp at hle h
    omega
  · have hle : c.toNat ≤ 'f'.toNat := ha.2
    simp at hle h
    omega
  · have hle : c.toNat ≤ 'F'.toNat := hA.2
    simp at hle h
    omega

theorem bigInt_toDigits (hb : 1 < b) (h16 : b ≤ 16) (x : ℕ) : bigInt (Nat.toDigits b x) b = x := by
  induction x using Nat.strong_induction_on with
  | _ x ih =>
    have hdigit : ∀ d < b, (hexVal (Nat.digitChar d)).getD 0 = d := fun d hd => by
      rw [hexVal_digitChar (by omega), Option.getD_some]
    rw [bigInt, Nat.toDigits_eq_if hb]
    split_ifs with hlt
    · rw [List.map_singleton, value_singleton, hdigit x hlt]
    · have hdiv : x / b < x := Nat.div_lt_self (by omega) hb
      have ih := ih (x / b) hdiv
      rw [bigInt] at ih
      rw [List.map_append, List.map_singleton, value_concat, ih, hdigit _ (Nat.mod_lt _ (by omega)),
        mul_comm, Nat.div_add_mod]

theorem mem_toDigits (hb : 1 < b) (x : ℕ) {c : Char} (hc : c ∈ Nat.toDigits b x) :
    ∃ d < b, c = Nat.digitChar d := by
  induction x using Nat.strong_induction_on with
  | _ x ih =>
    rw [Nat.toDigits_eq_if hb] at hc
    split_ifs at hc with hlt
    · exact ⟨x, hlt, List.mem_singleton.1 hc⟩
    · rcases List.mem_append.1 hc with hc | hc
      · exact ih (x / b) (Nat.div_lt_self (by omega) hb) hc
      · exact ⟨x % b, Nat.mod_lt x (by omega), List.mem_singleton.1 hc⟩

/-- Every character is a digit. -/
def IsHex (s : Str) : Prop := ∀ c ∈ s, (hexVal c).isSome

theorem isHex_toDigits (hb : 1 < b) (h16 : b ≤ 16) (x : ℕ) : IsHex (Nat.toDigits b x) := by
  intro c hc
  obtain ⟨d, hd, rfl⟩ := mem_toDigits hb x hc
  rw [hexVal_digitChar (by omega)]
  rfl

end Numerals

/-! ## Bytes -/

section Bytes

theorem bytesValue_bufferFromHex : ∀ s : Str, s.length % 2 = 0 → IsHex s →
    bytesValue (bufferFromHex s) = bigInt s 16 ∧ (bufferFromHex s).length = s.length / 2
  | [], _, _ => ⟨rfl, rfl⟩
  | [_], h, _ => by simp at h
  | c :: d :: s, h, hs => by
    obtain ⟨x, hx⟩ := Option.isSome_iff_exists.1 (hs c (by simp))
    obtain ⟨y, hy⟩ := Option.isSome_iff_exists.1 (hs d (by simp))
    have hx16 := hexVal_lt hx
    have hy16 := hexVal_lt hy
    rw [List.length_cons, List.length_cons] at h
    obtain ⟨ih, ihlen⟩ := bytesValue_bufferFromHex s (by omega)
      fun e he => hs e (by simp [he])
    have hpair : bufferFromHex (c :: d :: s) = UInt8.ofNat (16 * x + y) :: bufferFromHex s := by
      rw [bufferFromHex, hx, hy]
    have hpow : 256 ^ (s.length / 2) = 16 ^ s.length := by
      have heven : s.length = 2 * (s.length / 2) := by omega
      calc 256 ^ (s.length / 2) = (16 ^ 2) ^ (s.length / 2) := by norm_num
        _ = 16 ^ s.length := by rw [← pow_mul, ← heven]
    constructor
    · rw [bytesValue, bigInt] at ih
      rw [hpair, bytesValue, bigInt, List.map_cons, value_cons, List.length_map, ihlen, ih, hpow,
        UInt8.toNat_ofNat_of_lt' (show 16 * x + y < 256 by omega)]
      simp only [List.map_cons, value_cons, hx, hy, Option.getD_some, List.length_map,
        List.length_cons]
      ring
    · rw [hpair, List.length_cons, ihlen]
      simp only [List.length_cons]
      omega

/-- The bytes of a number as `bnToBuf` first has them, in whole pairs of digits. -/
def evenHex (x : ℕ) : Str :=
  if (Nat.toDigits 16 x).length % 2 = 1 then '0' :: Nat.toDigits 16 x else Nat.toDigits 16 x

theorem evenHex_spec (x : ℕ) : (evenHex x).length % 2 = 0 ∧ IsHex (evenHex x) ∧
    bigInt (evenHex x) 16 = x ∧
    (evenHex x).length / 2 = ((Nat.toDigits 16 x).length + 1) / 2 := by
  have hhex := isHex_toDigits (b := 16) (by norm_num) le_rfl x
  have hval := bigInt_toDigits (b := 16) (by norm_num) le_rfl x
  unfold evenHex
  split_ifs with hodd
  · refine ⟨by rw [List.length_cons]; omega, ?_, ?_, by rw [List.length_cons]⟩
    · intro c hc
      rcases List.mem_cons.1 hc with rfl | hc
      · rfl
      · exact hhex c hc
    · rw [bigInt] at hval ⊢
      rw [List.map_cons, value_cons, hval]
      simp [hexVal]
  · exact ⟨by omega, hhex, hval, by omega⟩

/-- The numbers whose bytes are 16, as they are or padded. -/
def FullWidth (x : ℕ) : Prop := x < 10 ^ 32 ∨ 2 ^ 120 ≤ x

instance (x : ℕ) : Decidable (FullWidth x) := inferInstanceAs (Decidable (_ ∨ _))

theorem length_text_le_iff (x : ℕ) : (text x).length ≤ 32 ↔ x < 10 ^ 32 :=
  Nat.length_toDigits_le_iff (by norm_num) (by norm_num)

variable {x : ℕ}

/-- `u8`, and what stands in front of it. -/
theorem bnToBuf_eq (hx : x < 2 ^ 128) : ∃ u8, bytesValue u8 = x ∧ u8.length ≤ 16 ∧
    (u8.length = 16 ↔ 2 ^ 120 ≤ x) ∧
    bnToBuf (text x) = if x < 10 ^ 32 then List.replicate (16 - u8.length) 0 ++ u8 else u8 := by
  obtain ⟨heven, hhex, hval, hhalf⟩ := evenHex_spec x
  obtain ⟨hbuf, hlen⟩ := bytesValue_bufferFromHex (evenHex x) heven hhex
  have h32 : (Nat.toDigits 16 x).length ≤ 32 :=
    (Nat.length_toDigits_le_iff (by norm_num) (by norm_num)).2 (hx.trans_le (by norm_num))
  have h30 := Nat.length_toDigits_le_iff (b := 16) (n := x) (k := 30) (by norm_num) (by norm_num)
  rw [show 16 ^ 30 = 2 ^ 120 by norm_num] at h30
  have hle : (bufferFromHex (evenHex x)).length ≤ 16 := by omega
  refine ⟨bufferFromHex (evenHex x), hbuf.trans hval, hle, by omega, ?_⟩
  have hx : bigInt (text x) 10 = x := bigInt_toDigits (by norm_num) (by norm_num) x
  have htext := length_text_le_iff x
  unfold bnToBuf
  rw [hx]
  change (if (text x).length ≤ 32 then (List.replicate 16 0 ++ bufferFromHex (evenHex x)).drop
    (bufferFromHex (evenHex x)).length else bufferFromHex (evenHex x)) = _
  rw [List.drop_append_of_le_length (by simpa using hle), List.drop_replicate]
  exact if_congr htext rfl rfl

theorem bytesValue_bnToBuf (hx : x < 2 ^ 128) : bytesValue (bnToBuf (text x)) = x := by
  obtain ⟨u8, hval, -, -, hbuf⟩ := bnToBuf_eq hx
  rw [hbuf]
  split_ifs
  · rw [bytesValue, List.map_append, List.map_replicate, UInt8.toNat_zero, value_zeros_append]
    exact hval
  · exact hval

theorem length_bnToBuf (hx : x < 2 ^ 128) : (bnToBuf (text x)).length ≤ 16 ∧
    ((bnToBuf (text x)).length = 16 ↔ FullWidth x) := by
  obtain ⟨u8, -, hle, h16, hbuf⟩ := bnToBuf_eq hx
  rw [hbuf]
  unfold FullWidth
  split_ifs with hshort
  · simp only [List.length_append, List.length_replicate]
    omega
  · omega

theorem bnToBuf_of_fullWidth (hx : x < 2 ^ 128) (hw : FullWidth x) :
    bnToBuf (text x) = Sha256.bigEndian 16 x := by
  refine bytesValue_inj ?_ ?_
  · rw [(length_bnToBuf hx).2.2 hw, length_bigEndian]
  · rw [bytesValue_bnToBuf hx, bytesValue_bigEndian, Nat.mod_eq_of_lt (hx.trans_le (by norm_num))]

theorem bigEndian_inj {y : ℕ} (hx : x < 2 ^ 128) (hy : y < 2 ^ 128)
    (h : Sha256.bigEndian 16 x = Sha256.bigEndian 16 y) : x = y := by
  have hval := congrArg bytesValue h
  rwa [bytesValue_bigEndian, bytesValue_bigEndian,
    Nat.mod_eq_of_lt (hx.trans_le (by norm_num)), Nat.mod_eq_of_lt (hy.trans_le (by norm_num))]
    at hval

end Bytes

/-! ## Messages -/

section Messages

/-- What the circuit hashes for four numbers. -/
def fourBlocks (w x y z : ℕ) : List UInt8 :=
  Sha256.bigEndian 16 w ++ Sha256.bigEndian 16 x ++ Sha256.bigEndian 16 y ++ Sha256.bigEndian 16 z

/-- What `createCommitment` hashes for them. -/
def fourBufs (w x y z : ℕ) : List UInt8 :=
  bnToBuf (text w) ++ bnToBuf (text x) ++ bnToBuf (text y) ++ bnToBuf (text z)

/-- Four numbers of at most 128 bits. -/
structure Below128 (w x y z : ℕ) : Prop where
  w : w < 2 ^ 128
  x : x < 2 ^ 128
  y : y < 2 ^ 128
  z : z < 2 ^ 128

variable {w x y z w' x' y' z' : ℕ}

theorem fourBlocks_inj (h : Below128 w x y z) (h' : Below128 w' x' y' z')
    (heq : fourBlocks w x y z = fourBlocks w' x' y' z') : w = w' ∧ x = x' ∧ y = y' ∧ z = z' := by
  obtain ⟨h1, hz⟩ := List.append_inj heq (by simp [length_bigEndian])
  obtain ⟨h2, hy⟩ := List.append_inj h1 (by simp [length_bigEndian])
  obtain ⟨hw, hx⟩ := List.append_inj h2 (by simp [length_bigEndian])
  exact ⟨bigEndian_inj h.w h'.w hw, bigEndian_inj h.x h'.x hx, bigEndian_inj h.y h'.y hy,
    bigEndian_inj h.z h'.z hz⟩

theorem fourBufs_of_fullWidth (h : Below128 w x y z) (hw : FullWidth w) (hx : FullWidth x)
    (hy : FullWidth y) (hz : FullWidth z) : fourBufs w x y z = fourBlocks w x y z := by
  rw [fourBufs, bnToBuf_of_fullWidth h.w hw, bnToBuf_of_fullWidth h.x hx,
    bnToBuf_of_fullWidth h.y hy, bnToBuf_of_fullWidth h.z hz, fourBlocks]

theorem fourBufs_eq_iff (h : Below128 w x y z) (h' : Below128 w' x' y' z') :
    fourBufs w x y z = fourBlocks w' x' y' z'
      ↔ (FullWidth w ∧ FullWidth x ∧ FullWidth y ∧ FullWidth z)
        ∧ w = w' ∧ x = x' ∧ y = y' ∧ z = z' := by
  constructor
  · intro heq
    obtain ⟨hw, hwf⟩ := length_bnToBuf h.w
    obtain ⟨hx, hxf⟩ := length_bnToBuf h.x
    obtain ⟨hy, hyf⟩ := length_bnToBuf h.y
    obtain ⟨hz, hzf⟩ := length_bnToBuf h.z
    -- all 64 bytes of the blocks have to come from buffers of at most 16
    have hlen := congrArg List.length heq
    simp only [fourBufs, fourBlocks, List.length_append, length_bigEndian] at hlen
    have hfull : FullWidth w ∧ FullWidth x ∧ FullWidth y ∧ FullWidth z :=
      ⟨hwf.1 (by omega), hxf.1 (by omega), hyf.1 (by omega), hzf.1 (by omega)⟩
    rw [fourBufs_of_fullWidth h hfull.1 hfull.2.1 hfull.2.2.1 hfull.2.2.2] at heq
    exact ⟨hfull, fourBlocks_inj h h' heq⟩
  · rintro ⟨⟨hw, hx, hy, hz⟩, rfl, rfl, rfl, rfl⟩
    exact fourBufs_of_fullWidth h hw hx hy hz

/-- Which numbers have their 16 bytes, and which four of them a block that tells them apart from
any others. -/
theorem bnToBuf_bigEndian_iff (h : Below128 w x y z) :
    (bnToBuf (text w) = Sha256.bigEndian 16 w ↔ FullWidth w) ∧
      ((fourBufs w x y z).length = 64 ∧
          (∀ w' x' y' z', Below128 w' x' y' z' → fourBufs w' x' y' z' = fourBufs w x y z →
            w' = w ∧ x' = x ∧ y' = y ∧ z' = z)
        ↔ FullWidth w ∧ FullWidth x ∧ FullWidth y ∧ FullWidth z) := by
  obtain ⟨hw, hwf⟩ := length_bnToBuf h.w
  obtain ⟨hx, hxf⟩ := length_bnToBuf h.x
  obtain ⟨hy, hyf⟩ := length_bnToBuf h.y
  obtain ⟨hz, hzf⟩ := length_bnToBuf h.z
  constructor
  · refine ⟨fun heq => hwf.1 ?_, bnToBuf_of_fullWidth h.w⟩
    rw [heq, length_bigEndian]
  constructor
  · rintro ⟨hlen, -⟩
    simp only [fourBufs, List.length_append] at hlen
    exact ⟨hwf.1 (by omega), hxf.1 (by omega), hyf.1 (by omega), hzf.1 (by omega)⟩
  · rintro ⟨hw, hx, hy, hz⟩
    have hblock := fourBufs_of_fullWidth h hw hx hy hz
    refine ⟨?_, fun w' x' y' z' h' heq => ((fourBufs_eq_iff h' h).1 (heq.trans hblock)).2⟩
    rw [hblock]
    simp [fourBlocks, length_bigEndian]

theorem bnToBuf_bigEndian_small :
    (bnToBuf (text 1) = Sha256.bigEndian 16 1 ↔ FullWidth 1) ∧
      ((fourBufs 1 2 3 (2 ^ 127)).length = 64 ∧
          (∀ w' x' y' z', Below128 w' x' y' z' →
            fourBufs w' x' y' z' = fourBufs 1 2 3 (2 ^ 127) →
            w' = 1 ∧ x' = 2 ∧ y' = 3 ∧ z' = 2 ^ 127)
        ↔ FullWidth 1 ∧ FullWidth 2 ∧ FullWidth 3 ∧ FullWidth (2 ^ 127)) :=
  bnToBuf_bigEndian_iff ⟨by norm_num, by norm_num, by norm_num, by norm_num⟩

/-- A number of 33 digits and 14 bytes is not padded. -/
theorem bnToBuf_not_bigEndian :
    ¬∀ x, x < 2 ^ 128 → bnToBuf (text x) = Sha256.bigEndian 16 x := by
  intro h
  have hlt : 10 ^ 32 < 2 ^ 128 := by norm_num
  have hlen := (length_bnToBuf hlt).2.1 (by rw [h _ hlt, length_bigEndian])
  unfold FullWidth at hlen
  norm_num at hlen

end Messages

/-! ## The circuit -/

section Circuit

/-- `a * x` on either side. -/
def selected (state x : ℕ) : ℕ := if state = 1 ∨ state = 2 ∨ state = 5 then 0 else x

/-- What `createCommitment` hashes for the contract. -/
def contractOf (state : ℕ) (s : SuppContainer) : ℕ :=
  if state = 3 ∨ state = 4 then s.contractH1 else 0

/-- What the circuit hashes for it. -/
def circuitContractOf (state : ℕ) (s : SuppContainer) : ℕ :=
  if (state = 3 ∨ state = 4) ∧ s.docHash1 ≠ s.contractH1 ∧ s.docHash2 ≠ s.contractH2
  then s.contractH1 else 0

/-- The first message, of either side. -/
def firstMessage (four : ℕ → ℕ → ℕ → ℕ → List UInt8) (mjID state : ℕ) (s : SuppContainer)
    (lc1 : ℕ) : List UInt8 :=
  four state mjID (selected state s.supplierID) lc1

/-- The second one, around either contract hash. -/
def secondMessage (four : ℕ → ℕ → ℕ → ℕ → List UInt8) (state : ℕ) (s : SuppContainer)
    (contract lc2 : ℕ) : List UInt8 :=
  four (selected state s.docHash1) (selected state s.docHash2) contract lc2

/-- The last message, over the digests of the first two. -/
def lastMessage (four : ℕ → ℕ → ℕ → ℕ → List UInt8) (u v : Baseline.Bytes 32) : List UInt8 :=
  four (halves u).1 (halves u).2 (halves v).1 (halves v).2

variable (sha256 : List UInt8 → Baseline.Bytes 32) {mjID state lc1 lc2 : ℕ} {s : SuppContainer}

/-- Every number that goes in has at most 128 bits. -/
structure InRange (mjID state : ℕ) (s : SuppContainer) (lc1 lc2 : ℕ) : Prop where
  mjID : mjID < 2 ^ 128
  state : state < 2 ^ 128
  supplierID : s.supplierID < 2 ^ 128
  docHash1 : s.docHash1 < 2 ^ 128
  docHash2 : s.docHash2 < 2 ^ 128
  contractH1 : s.contractH1 < 2 ^ 128
  contractH2 : s.contractH2 < 2 ^ 128
  lc1 : lc1 < 2 ^ 128
  lc2 : lc2 < 2 ^ 128

variable {sha256packed : Field → Field → Field → Field → Field × Field}

/-- SHA-256 tells apart what `createCommitment` hashes and what the circuit hashes. -/
structure TellsApart (mjID state : ℕ) (s : SuppContainer) (lc1 lc2 : ℕ) : Prop where
  first : sha256 (firstMessage fourBufs mjID state s lc1)
      = sha256 (firstMessage fourBlocks mjID state s lc1) →
    firstMessage fourBufs mjID state s lc1 = firstMessage fourBlocks mjID state s lc1
  second : sha256 (secondMessage fourBufs state s (contractOf state s) lc2)
      = sha256 (secondMessage fourBlocks state s (circuitContractOf state s) lc2) →
    secondMessage fourBufs state s (contractOf state s) lc2
      = secondMessage fourBlocks state s (circuitContractOf state s) lc2
  last :
    let m := lastMessage fourBufs (sha256 (firstMessage fourBufs mjID state s lc1))
      (sha256 (secondMessage fourBufs state s (contractOf state s) lc2))
    let m' := lastMessage fourBlocks (sha256 (firstMessage fourBlocks mjID state s lc1))
      (sha256 (secondMessage fourBlocks state s (circuitContractOf state s) lc2))
    sha256 m = sha256 m' → m = m'

/-- The imported hash over a SHA-256. -/
def packed (w x y z : Field) : Field × Field :=
  let v := halves (sha256 (fourBlocks w.val x.val y.val z.val))
  (Field.ofNat v.1, Field.ofNat v.2)

theorem ofNat_val {x : ℕ} (hx : x < 2 ^ 128) : (Field.ofNat x).val = x :=
  Nat.mod_eq_of_lt (hx.trans_le (by norm_num))

end Circuit

end ParticipantStack

end Baseline
