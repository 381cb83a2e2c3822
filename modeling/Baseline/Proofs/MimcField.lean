import Baseline.Proofs.Mimc
import Mathlib.Data.ZMod.Basic

/-!
# MiMC in the field

A remainder keeps the class of a number, whatever its sign (`cast_tmod`). So `powerMod` computes
powers of classes, in a turn for each bit of the exponent (`powerModWithin_eq`), a round of
`mimcpe7` is one of the cipher with exponent seven (`cipherRound_cast`), and `mimcHash` chains the
encryptions of its inputs (`mimcHash_compress`). A number in range is known by its class
(`eq_emod_of_cast`).
-/

namespace Baseline

namespace Mimc

open Conversions

/-! ## Powers -/

section Powers

variable {m : ℕ}

theorem cast_tmod (x : ℤ) : ((x.tmod m : ℤ) : ZMod m) = x := by
  rw [ZMod.intCast_eq_intCast_iff_dvd_sub]
  exact ⟨x.tdiv m, by have := Int.tmod_add_mul_tdiv x m; omega⟩

/-- What the result and the base still have to give is `result * b ^ e` at every turn. -/
theorem powerModLoopWithin_cast : ∀ (turns e : ℕ) (b result : ℤ), e < 2 ^ turns →
    ∃ r, powerModLoopWithin m turns e b result = some r ∧ (r : ZMod m) = result * b ^ e
  | 0, e, b, result, he => by
    obtain rfl : e = 0 := by omega
    exact ⟨result, rfl, by simp⟩
  | turns + 1, e, b, result, he => by
    rcases Nat.eq_zero_or_pos e with rfl | hpos
    · exact ⟨result, rfl, by simp⟩
    have hparity : (e : ℤ).tmod 2 = 1 ↔ e % 2 = 1 := by
      rw [Int.tmod_eq_emod_of_nonneg (Int.natCast_nonneg e)]
      omega
    have hhalf : e / 2 < 2 ^ turns := Nat.div_lt_of_lt_mul (by rwa [pow_succ'] at he)
    obtain ⟨r, hr, hcast⟩ := powerModLoopWithin_cast turns (e / 2) ((b * b).tmod m)
      (if e % 2 = 1 then (result * b).tmod m else result) hhalf
    refine ⟨r, ?_, ?_⟩
    · rw [powerModLoopWithin, if_pos (by omega)]
      simp only [hparity]
      exact hr
    · have hsquare : (((b * b).tmod m : ℤ) : ZMod m) ^ (e / 2) = (b : ZMod m) ^ (2 * (e / 2)) := by
        rw [cast_tmod, pow_mul, Int.cast_mul, sq]
      rw [hcast, hsquare]
      rcases Nat.mod_two_eq_zero_or_one e with h | h
      · rw [if_neg (by omega), show 2 * (e / 2) = e by omega]
      · rw [if_pos h, cast_tmod, Int.cast_mul, mul_assoc, ← pow_succ',
          show 2 * (e / 2) + 1 = e by omega]

theorem powerModLoop_of_within {m : ℤ} : ∀ {turns fuel : ℕ} {e b result r : ℤ}, turns ≤ fuel →
    powerModLoopWithin m turns e b result = some r → powerModLoop m fuel e b result = r
  | turns, fuel, e, b, result, r, hle, h => by
    by_cases he : 0 < e
    · rcases turns with _ | turns
      · rw [powerModLoopWithin, if_pos he] at h
        cases h
      · obtain ⟨fuel, rfl⟩ : ∃ n, fuel = n + 1 := ⟨fuel - 1, by omega⟩
        rw [powerModLoopWithin, if_pos he] at h
        rw [powerModLoop, if_pos he]
        exact powerModLoop_of_within (Nat.le_of_succ_le_succ hle) h
    · have hloop : powerModLoop m fuel e b result = result := by
        rcases fuel with _ | fuel
        · rfl
        · rw [powerModLoop, if_neg he]
      have hwithin : powerModLoopWithin m turns e b result = some result := by
        rcases turns with _ | turns
        · rw [powerModLoopWithin, if_neg he]
        · rw [powerModLoopWithin, if_neg he]
      rw [hloop]
      exact Option.some.inj (hwithin.symm.trans h)

/-- A turn for each bit of the exponent is enough. -/
theorem powerModWithin_eq {turns e : ℕ} (he : e < 2 ^ turns) (base : ℤ) :
    powerModWithin turns base e m = some (powerMod base e m) ∧
      (powerMod base e m : ZMod m) = base ^ e := by
  by_cases hm : m = 1
  · subst hm
    exact ⟨rfl, Subsingleton.elim _ _⟩
  have hm' : (m : ℤ) ≠ 1 := by omega
  obtain ⟨r, hr, hcast⟩ := powerModLoopWithin_cast turns e (base.tmod m) 1 he
  obtain ⟨r', hr', -⟩ := powerModLoopWithin_cast e e (base.tmod m) 1 Nat.lt_two_pow_self
  have hmore : powerModLoop m (max turns e) e (base.tmod m) 1 = r :=
    powerModLoop_of_within (le_max_left turns e) hr
  have hmore' : powerModLoop m (max turns e) e (base.tmod m) 1 = r' :=
    powerModLoop_of_within (le_max_right turns e) hr'
  have hpower : powerMod base e m = r := by
    rw [powerMod, if_neg hm', Int.toNat_natCast, powerModLoop_of_within le_rfl hr', ← hmore', hmore]
  rw [powerModWithin, if_neg hm', hr, hpower, hcast, cast_tmod, Int.cast_one, one_mul]
  exact ⟨rfl, rfl⟩

theorem powerMod_cast (base : ℤ) (e : ℕ) : (powerMod base e m : ZMod m) = base ^ e :=
  (powerModWithin_eq (Nat.lt_two_pow_self (n := e)) base).2

/-- In its range a number is known by its class. -/
theorem eq_emod_of_cast {r x : ℤ} (hr : InRange m r) (h : (r : ZMod m) = x) : r = x % m := by
  rw [ZMod.intCast_eq_intCast_iff'] at h
  rw [← h, Int.emod_eq_of_lt hr.1 hr.2]

theorem powerMod_eq_emod (hm : 1 ≤ m) {base : ℤ} (hbase : 0 ≤ base) (e : ℕ) :
    powerMod base e m = base ^ e % m :=
  eq_emod_of_cast (powerMod_range (by omega) hbase e) (by rw [powerMod_cast, Int.cast_pow])

theorem addMod_cast (xs : List ℤ) :
    (addMod xs m : ZMod m) = (xs.map fun x : ℤ => (x : ZMod m)).sum := by
  have h : ∀ (xs : List ℤ) (e : ℤ), ((xs.foldl (fun e acc => (e + acc).tmod m) e : ℤ) : ZMod m)
      = e + (xs.map fun x : ℤ => (x : ZMod m)).sum := by
    intro xs
    induction xs with
    | nil => simp
    | cons x xs ih =>
      intro e
      rw [List.foldl_cons, ih, cast_tmod, Int.cast_add, List.map_cons, List.sum_cons, add_assoc]
  rw [addMod, h, Int.cast_zero, zero_add]

end Powers

/-! ## Rounds -/

section Cipher

variable {R : Type*} [CommRing R]

/-- A round with its constant and the key. -/
def cipherRound (k x c : R) : R := (x + c + k) ^ 7

/-- The block cipher: its rounds, and the key once more. -/
def encrypt (cs : List R) (k x : R) : R := cs.foldl (cipherRound k) x + k

/-- Each block is encrypted under the hash so far, and added to it before and after. -/
def compress (cs : List R) (xs : List R) (r : R) : R :=
  xs.foldl (fun r x => r + x + encrypt cs r x) r

end Cipher

section Rounds

variable (keccak256 : List UInt8 → Bytes 32) {m : ℕ}

/-- The number that the next round adds after the seed `c`. -/
def roundConstant (c : Str) : ℕ := valueOf 16 (toHex (keccak256 (bufferFromHex (strip0x c))).1)

def roundConstants : ℕ → Str → List ℕ
  | 0, _ => []
  | rounds + 1, c => roundConstant keccak256 c :: roundConstants rounds (keccak256Hash keccak256 c)

theorem bigInt_roundConstant (c : Str) :
    bigInt (.text (keccak256Hash keccak256 c)) = .ok (roundConstant keccak256 c : ℤ) :=
  bigInt_hexlify (by norm_num) _

theorem mimcpe7Loop_succ (k m : ℤ) (rounds : ℕ) (xx : ℤ) (c : Str) :
    mimcpe7Loop keccak256 k m (rounds + 1) xx c
      = mimcpe7Loop keccak256 k m rounds
        (powerMod (addMod [xx, roundConstant keccak256 c, k] m) 7 m)
        (keccak256Hash keccak256 c) := by
  rw [mimcpe7Loop, bigInt_roundConstant]
  rfl

theorem cipherRound_cast (k xx : ℤ) (c : ℕ) :
    (powerMod (addMod [xx, c, k] m) 7 m : ZMod m) = cipherRound (k : ZMod m) xx c := by
  have hpower := powerMod_cast (m := m) (addMod [xx, c, k] m) 7
  rw [addMod_cast] at hpower
  rw [cipherRound]
  simpa [add_assoc] using hpower

theorem mimcpe7Loop_cast (k : ℤ) : ∀ (rounds : ℕ) (xx : ℤ) (c : Str),
    ∃ r, mimcpe7Loop keccak256 k m rounds xx c = .ok r ∧
      (r : ZMod m) = ((roundConstants keccak256 rounds c).map Nat.cast).foldl
        (cipherRound (k : ZMod m)) xx
  | 0, xx, c => ⟨xx, rfl, rfl⟩
  | rounds + 1, xx, c => by
    obtain ⟨r, hr, hcast⟩ := mimcpe7Loop_cast k rounds
      (powerMod (addMod [xx, roundConstant keccak256 c, k] m) 7 m) (keccak256Hash keccak256 c)
    refine ⟨r, (mimcpe7Loop_succ keccak256 k m rounds xx c).trans hr, ?_⟩
    rw [hcast, cipherRound_cast, roundConstants, List.map_cons, List.foldl_cons]

theorem mimcpe7_cast (x k : ℤ) (seed : Str) (roundCount : ℕ) :
    ∃ r, mimcpe7 keccak256 x k seed roundCount m = .ok r ∧
      (r : ZMod m) = encrypt ((roundConstants keccak256 roundCount seed).map Nat.cast)
        (k : ZMod m) x := by
  obtain ⟨xx, hxx, hcast⟩ := mimcpe7Loop_cast (m := m) keccak256 k roundCount x seed
  refine ⟨addMod [xx, k] m, ?_, ?_⟩
  · rw [mimcpe7, hxx]
    rfl
  · rw [addMod_cast, encrypt, ← hcast]
    simp

theorem mimcpe7mpLoop_cast (seed : Str) (roundCount : ℕ) : ∀ (x : List ℤ) (r : ℤ),
    ∃ r', mimcpe7mpLoop keccak256 seed roundCount m x r = .ok r' ∧
      (r' : ZMod m) = compress ((roundConstants keccak256 roundCount seed).map Nat.cast)
        (x.map fun xi : ℤ => (xi : ZMod m)) r
  | [], r => ⟨r, rfl, rfl⟩
  | xi :: x, r => by
    obtain ⟨hash, hhash, hcast⟩ := mimcpe7_cast (m := m) keccak256 xi r seed roundCount
    obtain ⟨r', hr', hrest⟩ := mimcpe7mpLoop_cast seed roundCount x
      ((r + xi.tmod m + hash).tmod m)
    refine ⟨r', ?_, ?_⟩
    · rw [mimcpe7mpLoop, hhash]
      exact hr'
    · rw [hrest, cast_tmod, Int.cast_add, Int.cast_add, cast_tmod, hcast]
      rfl

/-- What `mimcHash` writes down is the hash of its inputs in the field. -/
theorem mimcHash_compress {preimage : List Value} {xs : List ℤ}
    (h : List.Forall₂ Counts preimage xs) (hle : ∀ x ∈ xs, x ≤ ZOKRATES_PRIME) :
    ∃ r : ℤ, mimcHash keccak256 preimage = .ok ('0' :: 'x' :: padStart (toStringBase 16 r) 64) ∧
      (r : ZMod ZOKRATES_PRIME.toNat) = compress
        ((roundConstants keccak256 91 (keccak256Hash keccak256 "0x6d696d63".toList)).map Nat.cast)
        (xs.map fun x : ℤ => (x : ZMod ZOKRATES_PRIME.toNat)) 0 := by
  have hprime : (ZOKRATES_PRIME.toNat : ℤ) = ZOKRATES_PRIME := by decide
  obtain ⟨r, hr, hcast⟩ := mimcpe7mpLoop_cast (m := ZOKRATES_PRIME.toNat) keccak256
    (keccak256Hash keccak256 "0x6d696d63".toList) 91 xs 0
  rw [hprime] at hr
  rw [Int.cast_zero] at hcast
  refine ⟨r, ?_, hcast⟩
  rw [mimcHash, mapM_toField h, if_pos hle]
  exact congrArg (fun r => r >>= fun r => .ok ('0' :: 'x' :: padStart (toStringBase 16 r) 64)) hr

theorem mimcHash_compress_negative :
    (∀ x ∈ [(-1 : ℤ)], x ≤ ZOKRATES_PRIME) ∧ ∀ keccak256 : List UInt8 → Bytes 32,
      ∃ r : ℤ, mimcHash keccak256 [.integer (-1)]
        = .ok ('0' :: 'x' :: padStart (toStringBase 16 r) 64) := by
  have hle : ∀ x ∈ [(-1 : ℤ)], x ≤ ZOKRATES_PRIME := by decide
  refine ⟨hle, fun keccak256 => ?_⟩
  obtain ⟨r, hr, -⟩ := mimcHash_compress keccak256 (.cons (.integer (-1)) .nil) hle
  exact ⟨r, hr⟩

/-- Square and multiply ends and gives the power, and a round takes the seventh. -/
theorem powerMod_eq_pow (base exponent : ℕ) (hm : 1 ≤ m) :
    (∀ turns, exponent < 2 ^ turns →
      powerModWithin turns base exponent m = some ((base ^ exponent % m : ℕ) : ℤ)) ∧
    powerMod base exponent m = ((base ^ exponent % m : ℕ) : ℤ) ∧
    ∀ (rounds : ℕ) (x k : ℤ) (c : Str), ∃ (n : ℕ) (r : ℤ),
      bigInt (.text (keccak256Hash keccak256 c)) = .ok (n : ℤ) ∧
      mimcpe7Loop keccak256 k m (rounds + 1) x c
        = mimcpe7Loop keccak256 k m rounds r (keccak256Hash keccak256 c) ∧
      (r : ZMod m) = (x + n + k) ^ 7 ∧ (0 ≤ x → 0 ≤ k → r = (x + n + k) ^ 7 % m) := by
  have hpower : powerMod base exponent m = ((base ^ exponent % m : ℕ) : ℤ) := by
    rw [powerMod_eq_emod hm (Int.natCast_nonneg base)]
    push_cast
    rfl
  refine ⟨fun turns he => ?_, hpower, fun rounds x k c => ?_⟩
  · rw [(powerModWithin_eq he base).1, hpower]
  · have hcast := cipherRound_cast (m := m) k x (roundConstant keccak256 c)
    refine ⟨roundConstant keccak256 c, _, bigInt_roundConstant keccak256 c,
      mimcpe7Loop_succ keccak256 k m rounds x c, hcast, fun hx hk => eq_emod_of_cast ?_ ?_⟩
    · have ht : InRange m (addMod [x, roundConstant keccak256 c, k] m) :=
        addMod_range (by omega) (by simp [hx, hk])
      exact powerMod_range (by omega) ht.1 7
    · rw [hcast, cipherRound]
      push_cast
      rfl

theorem powerMod_eq_pow_seven :
    (∀ turns, 7 < 2 ^ turns → powerModWithin turns 3 7 10 = some 7) ∧ powerMod 3 7 10 = 7 := by
  obtain ⟨hturns, hpower, -⟩ :=
    powerMod_eq_pow (fun _ => Bytes.zeros 32) 3 7 (show 1 ≤ 10 by norm_num)
  exact ⟨hturns, hpower⟩

end Rounds

end Mimc

end Baseline
