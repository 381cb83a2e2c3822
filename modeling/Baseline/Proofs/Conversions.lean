import Baseline.Conversions
import Baseline.Positional
import Mathlib.Data.Nat.Digits.Lemmas

/-!
# Conversions keep the number

Arrays of digits are kept canonical: the sum of two is the array of the sum (`addLoop_digits`), and
doubling and adding gives the array of the product (`multiplyByNumber_digits`). So the array that
`convertBase` ends with is that of the number it read (`convertLoop_digits`), and what it writes is
the number's numeral (`convertBase_of_isNumeral`, `convertBase_canonical`).
-/

namespace Baseline

namespace Conversions

variable {base fromBase toBase : ℕ}

/-! ## Arrays of digits -/

theorem digits_cons (hb : 1 < base) {n : ℕ} (hn : n ≠ 0) :
    Nat.digits base n = n % base :: Nat.digits base (n / base) :=
  Nat.digits_def' hb (Nat.pos_of_ne_zero hn)

theorem digitsWithin_eq (hb : 1 < base) : ∀ {fuel n}, n ≤ fuel →
    digitsWithin base fuel n = Nat.digits base n
  | 0, n, hn => by
    obtain rfl : n = 0 := by omega
    rw [digitsWithin, Nat.digits_zero]
  | fuel + 1, n, hn => by
    rw [digitsWithin]
    split_ifs with h
    · rw [h, Nat.digits_zero]
    · have := Nat.div_lt_self (Nat.pos_of_ne_zero h) hb
      rw [digitsWithin_eq hb (by omega), digits_cons hb h]

theorem numeral_of_ne_zero (hb : 1 < base) {n : ℕ} (hn : n ≠ 0) :
    numeral base n = (Nat.digits base n).reverse.map digitChar := by
  rw [numeral, if_neg hn, digitsWithin_eq hb (Nat.le_refl n)]

theorem digits_add_mul (hb : 1 < base) {r q : ℕ} (h : r + base * q ≠ 0) :
    Nat.digits base (r + base * q) = r % base :: Nat.digits base (r / base + q) := by
  rw [digits_cons hb h, Nat.add_mul_mod_self_left, Nat.add_mul_div_left _ _ (by omega)]

theorem carryLoop_digits (hb : 1 < base) (x : ℕ) : ∀ carry,
    carryLoop base carry (Nat.digits base x) = Nat.digits base (carry + x) := by
  induction x using Nat.strongRecOn with
  | ind x ih =>
    intro carry
    by_cases h : x = 0
    · simp [h, carryLoop, digitsWithin_eq hb]
    · have hsum : carry + x = carry + x % base + base * (x / base) := by
        have := Nat.mod_add_div x base
        omega
      rw [digits_cons hb h, carryLoop, ih _ (Nat.div_lt_self (Nat.pos_of_ne_zero h) hb), hsum,
        digits_add_mul hb (by omega)]

theorem addLoop_digits (hb : 1 < base) (x : ℕ) : ∀ carry y,
    addLoop base carry (Nat.digits base x) (Nat.digits base y)
      = Nat.digits base (carry + x + y) := by
  induction x using Nat.strongRecOn with
  | ind x ih =>
    intro carry y
    by_cases hx : x = 0
    · rw [hx, Nat.digits_zero, addLoop, carryLoop_digits hb, Nat.add_zero]
    by_cases hy : y = 0
    · rw [hy, Nat.digits_zero, digits_cons hb hx, addLoop, ← digits_cons hb hx,
        carryLoop_digits hb, Nat.add_zero]
    · have hsum : carry + x + y
          = carry + x % base + y % base + base * (x / base + y / base) := by
        have hx := Nat.mod_add_div x base
        have hy := Nat.mod_add_div y base
        rw [Nat.mul_add]
        omega
      rw [digits_cons hb hx, digits_cons hb hy, addLoop,
        ih _ (Nat.div_lt_self (Nat.pos_of_ne_zero hx) hb), hsum, digits_add_mul hb (by omega),
        Nat.add_assoc _ (x / base)]

theorem add_digits (hb : 1 < base) (x y : ℕ) :
    add (Nat.digits base x) (Nat.digits base y) base = Nat.digits base (x + y) := by
  rw [add, addLoop_digits hb, Nat.zero_add]

theorem multiplyLoop_digits (hb : 1 < base) : ∀ fuel num result power, num ≤ fuel →
    multiplyLoop base fuel num (Nat.digits base result) (Nat.digits base power)
      = Nat.digits base (result + num * power)
  | 0, num, result, power, hnum => by
    obtain rfl : num = 0 := by omega
    rw [multiplyLoop, Nat.zero_mul, Nat.add_zero]
  | fuel + 1, num, result, power, hnum => by
    have hresult : (if num % 2 = 1 then add (Nat.digits base result) (Nat.digits base power) base
        else Nat.digits base result) = Nat.digits base (result + num % 2 * power) := by
      rcases Nat.mod_two_eq_zero_or_one num with h | h
      · simp [h]
      · simp [h, add_digits hb]
    have hnum2 : num * power = num % 2 * power + num / 2 * (power + power) := by
      calc num * power = (num % 2 + 2 * (num / 2)) * power := by rw [Nat.mod_add_div]
        _ = num % 2 * power + num / 2 * (power + power) := by ring
    rw [multiplyLoop]
    simp only [hresult]
    split_ifs with h
    · rw [hnum2, h, Nat.zero_mul, Nat.add_zero]
    · rw [add_digits hb, multiplyLoop_digits hb fuel _ _ _ (by omega), hnum2, Nat.add_assoc]

theorem multiplyByNumber_digits (hb : 1 < base) (num x : ℕ) :
    multiplyByNumber num (Nat.digits base x) base = Nat.digits base (num * x) := by
  have := multiplyLoop_digits hb num num 0 x (Nat.le_refl _)
  rw [Nat.digits_zero, Nat.zero_add] at this
  unfold multiplyByNumber
  split_ifs with h
  · simp [h]
  · exact this

theorem convertLoop_digits (ht : 1 < toBase) : ∀ digits out power,
    convertLoop fromBase toBase digits (Nat.digits toBase out) (Nat.digits toBase power)
      = Nat.digits toBase (out + power * Nat.ofDigits fromBase digits)
  | [], out, power => by simp [convertLoop]
  | d :: digits, out, power => by
    have hout : (if d ≠ 0 then add (Nat.digits toBase out)
        (multiplyByNumber d (Nat.digits toBase power) toBase) toBase
        else Nat.digits toBase out) = Nat.digits toBase (out + d * power) := by
      split_ifs with h
      · rw [multiplyByNumber_digits ht, add_digits ht]
      · simp [not_ne_iff.1 h]
    rw [convertLoop, hout, multiplyByNumber_digits ht, convertLoop_digits ht, Nat.ofDigits_cons]
    congr 1
    ring

/-! ## Numerals -/

/-- A digit's own numeral, in lower case. -/
theorem digit_digitChar : ∀ {d : ℕ}, d < 36 → digit (digitChar d) = some d := by decide

/-- The number that the characters count. -/
def valueOf (base : ℕ) (s : Str) : ℕ := Positional.value base (s.map fun c => (digit c).getD 0)

/-- Every character is a digit, in either case. -/
def IsNumeral (base : ℕ) (s : Str) : Prop := ∀ c ∈ s, ∃ d < base, digit c = some d

/-- Lower-case digits, the first of which is a zero only if it is the only one. -/
structure Canonical (base : ℕ) (s : Str) : Prop where
  ne_nil : s ≠ []
  digits : ∀ c ∈ s, ∃ d < base, c = digitChar d
  head : s.head? = some '0' → s = ['0']

theorem digitChar_inj {d e : ℕ} (hd : d < 36) (he : e < 36) (h : digitChar d = digitChar e) :
    d = e := by
  have := digit_digitChar hd
  rw [h, digit_digitChar he] at this
  exact (Option.some.inj this).symm

theorem valueOf_map_digitChar (hb : base ≤ 36) {ds : List ℕ} (hds : ∀ d ∈ ds, d < base) :
    valueOf base (ds.map digitChar) = Positional.value base ds := by
  have h : ∀ d ∈ ds, ((fun c => (digit c).getD 0) ∘ digitChar) d = id d := by
    intro d hd
    rw [Function.comp_apply, digit_digitChar (Nat.lt_of_lt_of_le (hds d hd) hb)]
    rfl
  rw [valueOf, List.map_map, List.map_congr_left h, List.map_id]

theorem valueOf_numeral (hb : 1 < base) (hb' : base ≤ 36) (n : ℕ) :
    valueOf base (numeral base n) = n := by
  by_cases h : n = 0
  · rw [h]
    rfl
  · have hlt : ∀ d ∈ (Nat.digits base n).reverse, d < base := fun d hd =>
      Nat.digits_lt_base hb (List.mem_reverse.1 hd)
    rw [numeral_of_ne_zero hb h, valueOf_map_digitChar hb' hlt,
      Positional.value_eq_ofDigits, List.reverse_reverse, Nat.ofDigits_digits]

theorem numeral_canonical (hb : 1 < base) (hb' : base ≤ 36) (n : ℕ) :
    Canonical base (numeral base n) := by
  by_cases h : n = 0
  · rw [h]
    exact ⟨List.cons_ne_nil _ _, by simpa [numeral] using ⟨0, by omega, rfl⟩, fun _ => rfl⟩
  · rw [numeral_of_ne_zero hb h]
    have hlt : ∀ d ∈ Nat.digits base n, d < base := fun d hd => Nat.digits_lt_base hb hd
    refine ⟨by simpa [Nat.digits_eq_nil_iff_eq_zero] using h, ?_, ?_⟩
    · intro c hc
      obtain ⟨d, hd, rfl⟩ := List.mem_map.1 hc
      exact ⟨d, hlt d (List.mem_reverse.1 hd), rfl⟩
    · intro hhead
      have hne : Nat.digits base n ≠ [] := Nat.digits_ne_nil_iff_ne_zero.2 h
      rw [List.head?_map, List.head?_reverse, List.getLast?_eq_some_getLast hne, Option.map_some,
        Option.some.injEq] at hhead
      have := hlt _ (List.getLast_mem hne)
      exact absurd (digitChar_inj (by omega) (by omega) hhead) (Nat.getLast_digit_ne_zero base h)

theorem isNumeral_numeral (hb : 1 < base) (hb' : base ≤ 36) (n : ℕ) :
    IsNumeral base (numeral base n) := by
  intro c hc
  obtain ⟨d, hd, rfl⟩ := (numeral_canonical hb hb' n).digits c hc
  exact ⟨d, hd, digit_digitChar (by omega)⟩

theorem numeral_ne_nil (hb : 1 < base) (n : ℕ) : numeral base n ≠ [] := by
  by_cases h : n = 0
  · rw [h]
    exact List.cons_ne_nil _ _
  · rw [numeral_of_ne_zero hb h]
    simpa [Nat.digits_eq_nil_iff_eq_zero] using h

theorem numeral_digit {d : ℕ} (hd : d < base) : numeral base d = [digitChar d] := by
  by_cases h : d = 0
  · rw [h]
    rfl
  · rw [numeral_of_ne_zero (by omega) h, Nat.digits_of_lt base d h hd]
    rfl

/-- What is written digit by digit, the last of the array first. -/
theorem flatMap_numeral (hb : 1 < base) {n : ℕ} (hn : n ≠ 0) :
    (Nat.digits base n).reverse.flatMap (numeral base) = numeral base n := by
  have h : ∀ ds : List ℕ, (∀ d ∈ ds, d < base) → ds.flatMap (numeral base) = ds.map digitChar := by
    intro ds hds
    rw [List.map_eq_flatMap]
    exact List.flatMap_congr fun d hd => numeral_digit (hds d hd)
  rw [h _ (by simpa using fun d hd => Nat.digits_lt_base hb hd), numeral_of_ne_zero hb hn]

/-! ## From base to base -/

theorem parseInt_eq_some (hb : 2 ≤ base) (hb' : base ≤ 36) {c : Char} {d : ℕ} :
    parseInt c base = some d ↔ d < base ∧ digit c = some d := by
  have hb0 : base ≠ 0 := by omega
  simp [parseInt, hb0, hb, hb', Option.filter_eq_some_iff, and_comm]

theorem mapM_parseInt (hb : 2 ≤ base) (hb' : base ≤ 36) : ∀ {s : Str}, IsNumeral base s →
    s.mapM (fun c => parseInt c base) = some (s.map fun c => (digit c).getD 0)
  | [], _ => rfl
  | c :: s, hs => by
    obtain ⟨d, hd, hc⟩ := hs c List.mem_cons_self
    rw [List.mapM_cons, mapM_parseInt hb hb' fun c hc => hs c (List.mem_cons_of_mem _ hc),
      (parseInt_eq_some hb hb').2 ⟨hd, hc⟩]
    simp [hc]

theorem parseToDigitsArray_of_isNumeral (hb : 2 ≤ base) (hb' : base ≤ 36) {s : Str}
    (hs : IsNumeral base s) :
    parseToDigitsArray s base = some (s.reverse.map fun c => (digit c).getD 0) :=
  mapM_parseInt hb hb' fun c hc => hs c (List.mem_reverse.1 hc)

theorem parseToDigitsArray_eq_none (hb : 2 ≤ base) (hb' : base ≤ 36) {s : Str}
    (hs : ¬IsNumeral base s) :
    parseToDigitsArray s base = none := by
  have h : ∀ l : Str, ¬IsNumeral base l → l.mapM (fun c => parseInt c base) = none := by
    intro l
    induction l with
    | nil => intro h; exact absurd (by simp [IsNumeral]) h
    | cons c l ih =>
      intro hl
      rw [List.mapM_cons]
      cases hc : parseInt c base with
      | none => rfl
      | some d =>
        rw [ih fun h => hl (List.forall_mem_cons.2 ⟨⟨d, (parseInt_eq_some hb hb').1 hc⟩, h⟩)]
        rfl
  exact h s.reverse fun h => hs fun c hc => h c (List.mem_reverse.2 hc)

/-- The number is read, and written in the other base. -/
theorem convertBase_of_isNumeral (hf : 2 ≤ fromBase) (hf' : fromBase ≤ 36) (ht : 1 < toBase)
    {s : Str} (hs : IsNumeral fromBase s) :
    convertBase s fromBase toBase = some (numeral toBase (valueOf fromBase s)) := by
  have hvalue : Nat.ofDigits fromBase (s.reverse.map fun c => (digit c).getD 0)
      = valueOf fromBase s := by
    rw [valueOf, Positional.value_eq_ofDigits, List.map_reverse]
  have hloop := @convertLoop_digits fromBase toBase ht
    (s.reverse.map fun c => (digit c).getD 0) 0 1
  rw [Nat.digits_zero, Nat.zero_add, Nat.one_mul, hvalue, Nat.digits_of_lt _ _ Nat.one_ne_zero ht]
    at hloop
  unfold convertBase
  rw [parseToDigitsArray_of_isNumeral hf hf' hs]
  simp only [Option.bind_eq_bind, Option.bind_some, Option.pure_def, hloop]
  by_cases h : valueOf fromBase s = 0
  · have hsum : (s.reverse.map fun c => (digit c).getD 0).sum = 0 :=
      List.sum_eq_zero (Nat.digits_zero_of_eq_zero (by omega) (hvalue.trans h))
    rw [h, Nat.digits_zero, if_pos ⟨rfl, hsum⟩]
    rfl
  · rw [flatMap_numeral ht h, if_neg fun hout => numeral_ne_nil ht _ hout.1]

/-- The digits may be of either case, and zeros may be in front. -/
theorem convertBase_canonical (hf : 2 ≤ fromBase) (hf' : fromBase ≤ 36) (ht : 2 ≤ toBase)
    (ht' : toBase ≤ 36) (s : Str) :
    (convertBase s fromBase toBase = none ↔ ∃ c ∈ s, ∀ d < fromBase, digit c ≠ some d) ∧
      ∀ out, convertBase s fromBase toBase = some out → Canonical toBase out ∧
        valueOf toBase out = valueOf fromBase s ∧ (valueOf fromBase s = 0 → out = ['0']) := by
  by_cases hs : IsNumeral fromBase s
  · rw [convertBase_of_isNumeral hf hf' ht hs]
    refine ⟨⟨fun h => (by cases h), ?_⟩, ?_⟩
    · rintro ⟨c, hc, hnot⟩
      obtain ⟨d, hd, hdigit⟩ := hs c hc
      exact absurd hdigit (hnot d hd)
    · rintro out ⟨⟩
      refine ⟨numeral_canonical ht ht' _, valueOf_numeral ht ht' _, fun h => ?_⟩
      rw [h]
      rfl
  · have hnone : convertBase s fromBase toBase = none := by
      unfold convertBase
      rw [parseToDigitsArray_eq_none hf hf' hs]
      rfl
    rw [hnone]
    refine ⟨⟨fun _ => ?_, fun _ => rfl⟩, fun out h => (by cases h)⟩
    simpa [IsNumeral] using hs

theorem convertBase_canonical_hex : Canonical 10 (numeral 10 255) ∧
    valueOf 10 (numeral 10 255) = valueOf 16 ['f', 'F'] ∧
    (valueOf 16 ['f', 'F'] = 0 → numeral 10 255 = ['0']) :=
  (convertBase_canonical (by decide) (by decide) (by decide) (by decide) ['f', 'F']).2 _
    (by decide)

end Conversions

end Baseline
