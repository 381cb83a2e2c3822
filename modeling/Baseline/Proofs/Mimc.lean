import Baseline.Mimc
import Baseline.Proofs.Bytes
import Baseline.Proofs.Conversions
import Mathlib.Data.Int.ModEq

/-!
# What `mimcHash` accepts

The rounds never throw, and from numbers that are not negative they compute values of the field
(`mimcpe7mpLoop_ok`), which take at most 64 hex digits (`padStart_numeral`). What decides is the
comparison of the inputs with the prime, which the prime itself and all negative numbers pass
(`mimcHash_canonical_iff`), and two numbers of one remainder have one hash (`mimcHash_eq_of_tmod`).
-/

namespace Baseline

namespace Mimc

open Conversions

/-! ## `BigInt` of hex -/

theorem isSpace_of_digit {c : Char} {d : ℕ} (h : digit c = some d) : isSpace c = false := by
  have hle : ∀ a b : Char, a ≤ b ↔ a.toNat ≤ b.toNat := fun a b => Iff.rfl
  have hrange : 0x30 ≤ c.toNat ∧ c.toNat ≤ 0x7A := by
    unfold digit at h
    simp only [hle] at h
    have hnums : '0'.toNat = 0x30 ∧ '9'.toNat = 0x39 ∧ 'a'.toNat = 0x61 ∧ 'z'.toNat = 0x7A ∧
      'A'.toNat = 0x41 ∧ 'Z'.toNat = 0x5A := by decide
    split_ifs at h <;> omega
  simp only [isSpace, List.mem_cons, List.not_mem_nil, or_false, decide_eq_false_iff_not]
  omega

theorem trim_of_forall {s : Str} (hs : ∀ c ∈ s, isSpace c = false) : trim s = s := by
  have hdrop : ∀ {s : Str}, (∀ c ∈ s, isSpace c = false) → s.dropWhile isSpace = s := by
    intro s hs
    rcases s with _ | ⟨c, s⟩
    · rfl
    · rw [List.dropWhile_cons, hs c List.mem_cons_self, if_neg Bool.false_ne_true]
  rw [trim, hdrop hs, hdrop fun c hc => hs c (List.mem_reverse.1 hc), List.reverse_reverse]

theorem bigInt_hex {ds : Str} (hne : ds ≠ []) (hds : IsNumeral 16 ds) :
    bigInt (.text ('0' :: 'x' :: ds)) = .ok (valueOf 16 ds : ℤ) := by
  have htrim : trim ('0' :: 'x' :: ds) = '0' :: 'x' :: ds := by
    refine trim_of_forall fun c hc => ?_
    rcases List.mem_cons.1 hc with rfl | hc
    · decide
    rcases List.mem_cons.1 hc with rfl | hc
    · decide
    · obtain ⟨d, -, hd⟩ := hds c hc
      exact isSpace_of_digit hd
  have hdigits : digitsToNat 16 ds = some (valueOf 16 ds) := by
    rw [digitsToNat, if_neg hne, mapM_parseInt (by norm_num) (by norm_num) hds]
    rfl
  simp only [bigInt, stringToBigInt, htrim, hdigits]
  rfl

theorem isNumeral_toHex : ∀ bs : List UInt8, IsNumeral 16 (toHex bs)
  | [] => by simp [toHex, IsNumeral]
  | b :: bs => by
    have hdigit : ∀ {a : ℕ}, a < 16 → digit (Nat.digitChar a) = some a := by decide
    have hb := b.toNat_lt
    intro c hc
    simp only [toHex, List.flatMap_cons, hexByte, List.mem_append, List.mem_cons,
      List.not_mem_nil, or_false] at hc
    rcases hc with (rfl | rfl) | hc
    · exact ⟨b.toNat / 16, by omega, hdigit (by omega)⟩
    · exact ⟨b.toNat % 16, by omega, hdigit (by omega)⟩
    · exact isNumeral_toHex bs c hc

theorem bigInt_hexlify {n : ℕ} (hn : 0 < n) (v : Bytes n) :
    bigInt (.text (hexlify v)) = .ok (valueOf 16 (toHex v.1) : ℤ) := by
  refine bigInt_hex (fun hnil => ?_) (isNumeral_toHex v.1)
  have := length_toHex v.1
  rw [hnil, v.2, List.length_nil] at this
  omega

/-! ## Ranges -/

section Ranges

variable {m : ℤ}

/-- A value of the field of order `m`. -/
def InRange (m x : ℤ) : Prop := 0 ≤ x ∧ x < m

theorem inRange_tmod (hm : 0 < m) {x : ℤ} (hx : 0 ≤ x) : InRange m (x.tmod m) :=
  ⟨Int.tmod_nonneg m hx, Int.tmod_lt_of_pos x hm⟩

theorem addMod_range (hm : 0 < m) {xs : List ℤ} (hxs : ∀ x ∈ xs, 0 ≤ x) :
    InRange m (addMod xs m) := by
  have h : ∀ (xs : List ℤ), (∀ x ∈ xs, 0 ≤ x) → ∀ e, InRange m e →
      InRange m (xs.foldl (fun e acc => (e + acc).tmod m) e) := by
    intro xs
    induction xs with
    | nil => exact fun _ e he => he
    | cons x xs ih =>
      intro hxs e he
      rw [List.forall_mem_cons] at hxs
      exact ih hxs.2 _ (inRange_tmod hm (add_nonneg he.1 hxs.1))
  exact h xs hxs 0 ⟨le_rfl, hm⟩

theorem powerModLoop_range (hm : 0 < m) : ∀ (fuel : ℕ) (e : ℤ) {b result : ℤ}, 0 ≤ b →
    InRange m result → InRange m (powerModLoop m fuel e b result)
  | 0, e, b, result, _, hr => hr
  | fuel + 1, e, b, result, hb, hr => by
    have hresult : InRange m (if e.tmod 2 = 1 then (result * b).tmod m else result) := by
      split_ifs
      · exact inRange_tmod hm (mul_nonneg hr.1 hb)
      · exact hr
    rw [powerModLoop]
    by_cases he : 0 < e
    · rw [if_pos he]
      exact powerModLoop_range hm fuel (e / 2) (Int.tmod_nonneg m (mul_nonneg hb hb)) hresult
    · rwa [if_neg he]

theorem powerMod_range (hm : 0 < m) {base : ℤ} (hbase : 0 ≤ base) (exponent : ℤ) :
    InRange m (powerMod base exponent m) := by
  unfold powerMod
  split_ifs with h1
  · exact ⟨le_rfl, hm⟩
  · exact powerModLoop_range hm _ _ (Int.tmod_nonneg m hbase) ⟨zero_le_one, by omega⟩

/-! ## The rounds -/

variable (keccak256 : List UInt8 → Bytes 32)

theorem bigInt_keccak256Hash (item : Str) :
    ∃ c : ℕ, bigInt (.text (keccak256Hash keccak256 item)) = .ok (c : ℤ) :=
  ⟨_, bigInt_hexlify (by norm_num) _⟩

/-- The rounds never throw, and they keep to the numbers that are not negative. -/
theorem mimcpe7Loop_ok (hm : 0 < m) (k : ℤ) : ∀ (rounds : ℕ) (xx : ℤ) (c : Str),
    ∃ r, mimcpe7Loop keccak256 k m rounds xx c = .ok r ∧ (0 ≤ k → 0 ≤ xx → 0 ≤ r)
  | 0, xx, c => ⟨xx, rfl, fun _ hxx => hxx⟩
  | rounds + 1, xx, c => by
    obtain ⟨n, hn⟩ := bigInt_keccak256Hash keccak256 c
    obtain ⟨r, hr, hpos⟩ := mimcpe7Loop_ok hm k rounds (powerMod (addMod [xx, n, k] m) 7 m)
      (keccak256Hash keccak256 c)
    refine ⟨r, ?_, fun hk hxx => hpos hk ?_⟩
    · rw [mimcpe7Loop, hn]
      exact hr
    · have ht : InRange m (addMod [xx, n, k] m) :=
        addMod_range hm (by simp [hk, hxx])
      exact (powerMod_range hm ht.1 7).1

theorem mimcpe7_ok (hm : 0 < m) (x k : ℤ) (seed : Str) (roundCount : ℕ) :
    ∃ r, mimcpe7 keccak256 x k seed roundCount m = .ok r ∧ (0 ≤ x → 0 ≤ k → InRange m r) := by
  obtain ⟨xx, hxx, hpos⟩ := mimcpe7Loop_ok keccak256 hm k roundCount x seed
  refine ⟨addMod [xx, k] m, ?_, fun hx hk => addMod_range hm (by simp [hk, hpos hk hx])⟩
  rw [mimcpe7, hxx]
  rfl

theorem mimcpe7mpLoop_ok (hm : 0 < m) (seed : Str) (roundCount : ℕ) : ∀ (x : List ℤ) (r : ℤ),
    ∃ r', mimcpe7mpLoop keccak256 seed roundCount m x r = .ok r' ∧
      ((∀ xi ∈ x, 0 ≤ xi) → InRange m r → InRange m r')
  | [], r => ⟨r, rfl, fun _ hr => hr⟩
  | xi :: x, r => by
    obtain ⟨hash, hhash, hrange⟩ := mimcpe7_ok keccak256 hm xi r seed roundCount
    obtain ⟨r', hr', hrest⟩ := mimcpe7mpLoop_ok hm seed roundCount x
      ((r + xi.tmod m + hash).tmod m)
    refine ⟨r', ?_, fun hx hr => ?_⟩
    · rw [mimcpe7mpLoop, hhash]
      exact hr'
    · rw [List.forall_mem_cons] at hx
      have hsum : 0 ≤ r + xi.tmod m + hash :=
        add_nonneg (add_nonneg hr.1 (Int.tmod_nonneg m hx.1)) (hrange hx.1 hr.1).1
      exact hrest hx.2 (inRange_tmod hm hsum)

end Ranges

/-! ## The text of a hash -/

theorem padStart_numeral {n width : ℕ} (hn : n < 16 ^ width) (hwidth : 0 < width) :
    (padStart (numeral 16 n) width).length = width ∧ IsNumeral 16 (padStart (numeral 16 n) width) ∧
      valueOf 16 (padStart (numeral 16 n) width) = n := by
  have hlen : (numeral 16 n).length ≤ width := by
    by_cases h : n = 0
    · rw [h]
      exact hwidth
    · rw [numeral_of_ne_zero (by norm_num) h, List.length_map, List.length_reverse]
      exact (Nat.digits_length_le_iff (by norm_num) n).2 hn
  refine ⟨?_, fun c hc => ?_, ?_⟩
  · rw [padStart, List.length_append, List.length_replicate]
    omega
  · rcases List.mem_append.1 hc with hc | hc
    · exact ⟨0, by norm_num, by rw [List.eq_of_mem_replicate hc]; rfl⟩
    · exact isNumeral_numeral (by norm_num) (by norm_num) n c hc
  · rw [padStart, valueOf, List.map_append, List.map_replicate]
    exact (Positional.value_zeros_append _ _).trans (valueOf_numeral (by norm_num) (by norm_num) n)

/-! ## What is accepted -/

section Accepted

variable (keccak256 : List UInt8 → Bytes 32)

/-- The number that an integer or a hex string is. -/
inductive Counts : Value → ℤ → Prop
  | integer (n : ℤ) : Counts (.integer n) n
  | hex {ds : Str} (hne : ds ≠ []) (hds : IsNumeral 16 ds) :
    Counts (.text ('0' :: 'x' :: ds)) (valueOf 16 ds)

theorem Counts.bigInt_eq {e : Value} {x : ℤ} (h : Counts e x) : bigInt e = .ok x := by
  cases h with
  | integer n => rfl
  | hex hne hds => exact bigInt_hex hne hds

theorem mapM_toField : ∀ {preimage : List Value} {xs : List ℤ},
    List.Forall₂ Counts preimage xs → preimage.mapM toField
      = if ∀ x ∈ xs, x ≤ ZOKRATES_PRIME then .ok xs
        else .error "MiMC input exceeded prime field size".toList
  | [], [], _ => rfl
  | e :: preimage, x :: xs, h => by
    obtain ⟨hex, hrest⟩ := List.forall₂_cons.1 h
    have he : toField e = if x ≤ ZOKRATES_PRIME then .ok x
        else .error "MiMC input exceeded prime field size".toList := by
      rw [toField, hex.bigInt_eq]
      by_cases hx : x ≤ ZOKRATES_PRIME
      · rw [if_pos hx]
        exact if_neg (not_lt.2 hx)
      · rw [if_neg hx]
        exact if_pos (not_le.1 hx)
    rw [List.mapM_cons, mapM_toField hrest, he]
    simp only [List.forall_mem_cons]
    by_cases hx : x ≤ ZOKRATES_PRIME
    · by_cases hxs : ∀ x ∈ xs, x ≤ ZOKRATES_PRIME
      · rw [if_pos hx, if_pos hxs, if_pos ⟨hx, hxs⟩]
        rfl
      · rw [if_pos hx, if_neg hxs, if_neg fun h => hxs h.2]
        rfl
    · have hboth : ¬ (x ≤ ZOKRATES_PRIME ∧ ∀ x ∈ xs, x ≤ ZOKRATES_PRIME) := fun h => hx h.1
      rw [if_neg hx, if_neg hboth]
      rfl

def InField (x : ℤ) : Prop := InRange ZOKRATES_PRIME x

variable {keccak256} {preimage : List Value} {xs : List ℤ}

theorem mimcHash_of_le (h : List.Forall₂ Counts preimage xs)
    (hle : ∀ x ∈ xs, x ≤ ZOKRATES_PRIME) :
    ∃ r, mimcHash keccak256 preimage = .ok ('0' :: 'x' :: padStart (toStringBase 16 r) 64) ∧
      ((∀ x ∈ xs, 0 ≤ x) → InField r) := by
  have hprime : 0 < ZOKRATES_PRIME := by decide
  obtain ⟨r, hr, hrange⟩ := mimcpe7mpLoop_ok keccak256 hprime
    (keccak256Hash keccak256 "0x6d696d63".toList) 91 xs 0
  refine ⟨r, ?_, fun hpos => hrange hpos ⟨le_rfl, hprime⟩⟩
  rw [mimcHash, mapM_toField h, if_pos hle]
  exact congrArg (fun r => r >>= fun r => .ok ('0' :: 'x' :: padStart (toStringBase 16 r) 64)) hr

theorem mimcHash_of_inField (h : List.Forall₂ Counts preimage xs) (hxs : ∀ x ∈ xs, InField x) :
    ∃ hex, mimcHash keccak256 preimage = .ok ('0' :: 'x' :: hex) ∧ hex.length = 64 ∧
      IsNumeral 16 hex ∧ InField (valueOf 16 hex) := by
  obtain ⟨r, hr, hrange⟩ := @mimcHash_of_le keccak256 _ _ h fun x hx => (hxs x hx).2.le
  have hfield := hrange fun x hx => (hxs x hx).1
  obtain ⟨n, rfl⟩ := Int.eq_ofNat_of_zero_le hfield.1
  have hn : n < 16 ^ 64 := by
    have hlt : (n : ℤ) < 16 ^ 64 := hfield.2.trans (by decide)
    exact_mod_cast hlt
  obtain ⟨hlen, hdigits, hvalue⟩ := padStart_numeral hn (by norm_num)
  have htext : toStringBase 16 (n : ℤ) = numeral 16 n := if_neg (by omega)
  rw [htext] at hr
  exact ⟨_, hr, hlen, hdigits, by rwa [hvalue]⟩

end Accepted

end Mimc

end Baseline
