import Baseline.Proofs.MimcField
import Mathlib.FieldTheory.Finite.Basic
import Mathlib.NumberTheory.LucasPrimality
import Mathlib.Tactic.NormNum.Prime

/-!
# The block cipher can be undone

`powerMod` itself shows that the modulus is a prime: the powers that it computes make Lucas's test
(`prime_of_powers`), down to primes that can be tried out. Seven has no factor in common with what
the modulus leaves one short of, so there is an exponent that takes the seventh power back
(`pow_seven_injective`). Then each round permutes the field, and so does the cipher under any key
(`encrypt_bijective`).
-/

namespace Baseline

namespace Mimc

/-! ## The modulus is a prime -/

theorem pow_eq_one_iff {p turns e : ℕ} (hp : 2 ≤ p) (he : e < 2 ^ turns) (a : ℕ) :
    (a : ZMod p) ^ e = 1 ↔ powerModWithin turns a e p = some 1 := by
  rw [(powerModWithin_eq he a).1, powerMod_eq_emod (by omega) (Int.natCast_nonneg a),
    Option.some.injEq]
  have hone : ((1 : ℕ) : ZMod p) = 1 := Nat.cast_one
  rw [← Nat.cast_pow, ← hone, ZMod.natCast_eq_natCast_iff', Nat.mod_eq_of_lt (show 1 < p by omega)]
  constructor
  · intro h
    exact_mod_cast congrArg (Nat.cast : ℕ → ℤ) h
  · intro h
    exact_mod_cast h

/-- The prime divisors of a product of prime powers are among their bases. -/
theorem mem_of_prime_dvd : ∀ {factors : List (ℕ × ℕ)} {q : ℕ}, q.Prime →
    (∀ f ∈ factors, f.1.Prime) → q ∣ (factors.map fun f => f.1 ^ f.2).prod →
    q ∈ factors.map Prod.fst
  | [], q, hq, _, hdvd => absurd (Nat.dvd_one.mp hdvd) hq.ne_one
  | f :: factors, q, hq, hprimes, hdvd => by
    rw [List.map_cons, List.prod_cons, hq.dvd_mul] at hdvd
    rcases hdvd with hfirst | hrest
    · have heq := (Nat.prime_dvd_prime_iff_eq hq (hprimes f List.mem_cons_self)).mp
        (hq.dvd_of_dvd_pow hfirst)
      exact heq ▸ List.mem_cons_self
    · exact List.mem_cons_of_mem _ (mem_of_prime_dvd hq
        (fun f hf => hprimes f (List.mem_cons_of_mem _ hf)) hrest)

/-- Lucas's test. -/
theorem prime_of_powers {p : ℕ} (turns a : ℕ) (factors : List (ℕ × ℕ)) (hp : 2 ≤ p)
    (hturns : p < 2 ^ turns) (hprimes : factors.Forall fun f => f.1.Prime)
    (hproduct : (factors.map fun f => f.1 ^ f.2).prod = p - 1)
    (hone : powerModWithin turns a ((p - 1 : ℕ) : ℤ) p = some 1)
    (hother : ∀ q ∈ factors.map Prod.fst,
      powerModWithin turns a (((p - 1) / q : ℕ) : ℤ) p ≠ some 1) : p.Prime := by
  refine lucas_primality p a ((pow_eq_one_iff hp (by omega) a).mpr hone) fun q hq hdvd => ?_
  have hmem := mem_of_prime_dvd hq (List.forall_iff_forall_mem.mp hprimes) (hproduct ▸ hdvd)
  have hsmall : (p - 1) / q < 2 ^ turns := (Nat.div_le_self _ _).trans_lt (by omega)
  exact mt (pow_eq_one_iff hp hsmall a).mp (hother q hmem)

theorem prime_405928799 : Nat.Prime 405928799 :=
  prime_of_powers 29 22 [(2, 1), (11, 1), (3691, 1), (4999, 1)] (by decide) (by decide)
    ⟨by norm_num, by norm_num, by norm_num, by norm_num⟩ (by decide) (by decide +kernel)
    (by decide +kernel)

theorem prime_639533339 : Nat.Prime 639533339 :=
  prime_of_powers 30 2 [(2, 1), (229, 1), (853, 1), (1637, 1)] (by decide) (by decide)
    ⟨by norm_num, by norm_num, by norm_num, by norm_num⟩ (by decide) (by decide +kernel)
    (by decide +kernel)

theorem prime_12048837557 : Nat.Prime 12048837557 :=
  prime_of_powers 34 2 [(2, 2), (7, 2), (661, 1), (93001, 1)] (by decide) (by decide)
    ⟨by norm_num, by norm_num, by norm_num, by norm_num⟩ (by decide) (by decide +kernel)
    (by decide +kernel)

theorem prime_5156902474397 : Nat.Prime 5156902474397 :=
  prime_of_powers 43 2 [(2, 2), (107, 1), (12048837557, 1)] (by decide) (by decide)
    ⟨by norm_num, by norm_num, prime_12048837557⟩ (by decide) (by decide +kernel)
    (by decide +kernel)

theorem prime_1670836401704629 : Nat.Prime 1670836401704629 :=
  prime_of_powers 51 2 [(2, 2), (3, 4), (5156902474397, 1)] (by decide) (by decide)
    ⟨by norm_num, by norm_num, prime_5156902474397⟩ (by decide) (by decide +kernel)
    (by decide +kernel)

theorem prime_65865678001877903 : Nat.Prime 65865678001877903 :=
  prime_of_powers 56 5 [(2, 1), (83, 1), (379, 1), (1637, 1), (639533339, 1)] (by decide)
    (by decide) ⟨by norm_num, by norm_num, by norm_num, by norm_num, prime_639533339⟩ (by decide)
    (by decide +kernel) (by decide +kernel)

theorem prime_13818364434197438864469338081 : Nat.Prime 13818364434197438864469338081 :=
  prime_of_powers 94 3 [(2, 5), (5, 1), (823, 1), (1593227, 1), (65865678001877903, 1)]
    (by decide) (by decide)
    ⟨by norm_num, by norm_num, by norm_num, by norm_num, prime_65865678001877903⟩ (by decide)
    (by decide +kernel) (by decide +kernel)

theorem prime_zokratesPrime : ZOKRATES_PRIME.toNat.Prime :=
  prime_of_powers 254 5 [(2, 28), (3, 2), (13, 1), (29, 1), (983, 1), (11003, 1), (237073, 1),
      (405928799, 1), (1670836401704629, 1), (13818364434197438864469338081, 1)]
    (by decide) (by decide)
    ⟨by norm_num, by norm_num, by norm_num, by norm_num, by norm_num, by norm_num, by norm_num,
      prime_405928799, prime_1670836401704629, prime_13818364434197438864469338081⟩
    (by decide) (by decide +kernel) (by decide +kernel)

/-! ## A permutation for each key -/

section Cipher

variable {p : ℕ} [Fact p.Prime]

/-- An exponent takes the seventh power back when seven times it is one more than a multiple of
the order of the units. -/
theorem pow_seven_injective {d j : ℕ} (hd : 7 * d = 1 + (p - 1) * j) :
    Function.Injective fun x : ZMod p => x ^ 7 := by
  refine Function.LeftInverse.injective (g := fun y : ZMod p => y ^ d) fun x => ?_
  simp only [← pow_mul, hd]
  by_cases hx : x = 0
  · simp [hx]
  · rw [pow_add, pow_one, pow_mul, ZMod.pow_card_sub_one_eq_one hx, one_pow, mul_one]

theorem cipherRound_bijective {d j : ℕ} (hd : 7 * d = 1 + (p - 1) * j) (k c : ZMod p) :
    Function.Bijective fun x => cipherRound k x c := by
  rw [← Finite.injective_iff_bijective]
  intro x y hxy
  exact add_right_cancel (add_right_cancel (pow_seven_injective hd hxy))

theorem encrypt_bijective {d j : ℕ} (hd : 7 * d = 1 + (p - 1) * j) (k : ZMod p) :
    ∀ cs : List (ZMod p), Function.Bijective (encrypt cs k)
  | [] => (Equiv.addRight k).bijective
  | c :: cs => (encrypt_bijective hd k cs).comp (cipherRound_bijective hd k c)

end Cipher

/-! ## `mimcpe7` -/

section

variable (keccak256 : List UInt8 → Bytes 32) {k : ℤ} (seed : Str) (roundCount : ℕ)

theorem prime_cast : ((ZOKRATES_PRIME.toNat : ℕ) : ℤ) = ZOKRATES_PRIME := by decide

/-- Numbers below the prime are told apart by their classes. -/
theorem eq_of_cast_eq {x y : ℤ} (hx : InField x) (hy : InField y)
    (h : (x : ZMod ZOKRATES_PRIME.toNat) = y) : x = y := by
  have hrange : InRange (ZOKRATES_PRIME.toNat : ℕ) x := prime_cast ▸ hx
  rw [eq_emod_of_cast hrange h, prime_cast]
  exact Int.emod_eq_of_lt hy.1 hy.2

theorem mimcpe7_encrypt (hk : InField k) {x : ℤ} (hx : InField x) :
    ∃ y, mimcpe7 keccak256 x k seed roundCount ZOKRATES_PRIME = .ok y ∧ InField y ∧
      (y : ZMod ZOKRATES_PRIME.toNat)
        = encrypt ((roundConstants keccak256 roundCount seed).map Nat.cast) (k : ZMod _) x := by
  obtain ⟨y, hy, hrange⟩ := mimcpe7_ok keccak256 (m := ZOKRATES_PRIME) (by decide) x k seed
    roundCount
  obtain ⟨y', hy', hcast⟩ := mimcpe7_cast (m := ZOKRATES_PRIME.toNat) keccak256 x k seed roundCount
  rw [prime_cast, hy] at hy'
  obtain rfl : y = y' := Except.ok.inj hy'
  exact ⟨y, hy, hrange hx.1 hk.1, hcast⟩

/-- Under every key, `mimcpe7` permutes the numbers below the prime. -/
theorem mimcpe7_permutes (hk : InField k) :
    (∀ x, InField x → ∃ y, InField y ∧
      mimcpe7 keccak256 x k seed roundCount ZOKRATES_PRIME = .ok y) ∧
    ∀ y, InField y → ∃! x, InField x ∧
      mimcpe7 keccak256 x k seed roundCount ZOKRATES_PRIME = .ok y := by
  have : Fact ZOKRATES_PRIME.toNat.Prime := ⟨prime_zokratesPrime⟩
  have hinverse : 7 * 12507567355336728698426517568718442907741922514523448196398973820900461997495
      = 1 + (ZOKRATES_PRIME.toNat - 1) * 4 := by decide
  have hperm := encrypt_bijective hinverse (k : ZMod ZOKRATES_PRIME.toNat)
    ((roundConstants keccak256 roundCount seed).map Nat.cast)
  refine ⟨fun x hx => ?_, fun y hy => ?_⟩
  · obtain ⟨y, heq, hy, _⟩ := mimcpe7_encrypt keccak256 seed roundCount hk hx
    exact ⟨y, hy, heq⟩
  · obtain ⟨x, hx⟩ := hperm.2 y
    have hfield : InField (x.val : ℤ) :=
      ⟨Int.natCast_nonneg _, (Int.ofNat_lt.mpr (ZMod.val_lt x)).trans_eq prime_cast⟩
    have hclass : ((x.val : ℤ) : ZMod ZOKRATES_PRIME.toNat) = x := by simp
    obtain ⟨z, heq, hz, hcast⟩ := mimcpe7_encrypt keccak256 seed roundCount hk hfield
    rw [hclass, hx] at hcast
    obtain rfl : z = y := eq_of_cast_eq hz hy hcast
    refine ⟨x.val, ⟨hfield, heq⟩, fun x' hx' => ?_⟩
    obtain ⟨z', heq', _, hcast'⟩ := mimcpe7_encrypt keccak256 seed roundCount hk hx'.1
    rw [hx'.2] at heq'
    obtain rfl : z = z' := Except.ok.inj heq'
    refine eq_of_cast_eq hx'.1 hfield ?_
    rw [hclass]
    exact hperm.1 (hcast'.symm.trans hx.symm)

end

theorem mimcpe7_permutes_zero :
    InField 0 ∧ ∀ keccak256 : List UInt8 → Bytes 32, ∃! x, InField x ∧
      mimcpe7 keccak256 x 0 "0x".toList 91 ZOKRATES_PRIME = .ok 1 := by
  have hzero : InField 0 := by unfold InField InRange; decide
  have hone : InField 1 := by unfold InField InRange; decide
  exact ⟨hzero, fun keccak256 => (mimcpe7_permutes keccak256 "0x".toList 91 hzero).2 1 hone⟩

end Mimc

end Baseline
