import Mathlib.Data.Nat.Digits.Defs
import Mathlib.Tactic.Ring

/-!
# Positional numerals

Digits in base `b`, the most significant first. Among numerals of one length the value determines
the digits (`value_inj`), and a numeral is cut in two as its value is divided (`value_append`).
-/

namespace Positional

variable {b : ℕ}

def value (b : ℕ) (ds : List ℕ) : ℕ := ds.foldl (fun n d => b * n + d) 0

theorem value_eq_ofDigits (b : ℕ) (ds : List ℕ) : value b ds = Nat.ofDigits b ds.reverse := by
  have h : ∀ (ds : List ℕ) (n : ℕ), ds.foldl (fun n d => b * n + d) n
      = Nat.ofDigits b ds.reverse + b ^ ds.length * n := by
    intro ds
    induction ds with
    | nil => simp
    | cons d ds ih =>
      intro n
      rw [List.foldl_cons, ih, List.reverse_cons, Nat.ofDigits_append, Nat.ofDigits_singleton,
        List.length_reverse, List.length_cons]
      ring
  simpa [value] using h ds 0

@[simp] theorem value_nil : value b [] = 0 := rfl

@[simp] theorem value_singleton (d : ℕ) : value b [d] = d := by simp [value]

theorem value_append (xs ys : List ℕ) :
    value b (xs ++ ys) = value b xs * b ^ ys.length + value b ys := by
  simp only [value_eq_ofDigits, List.reverse_append, Nat.ofDigits_append, List.length_reverse]
  ring

theorem value_cons (d : ℕ) (ds : List ℕ) : value b (d :: ds) = d * b ^ ds.length + value b ds := by
  rw [← List.singleton_append, value_append, value_singleton]

theorem value_concat (xs : List ℕ) (d : ℕ) : value b (xs ++ [d]) = value b xs * b + d := by
  simp [value_append]

theorem value_replicate_zero (n : ℕ) : value b (List.replicate n 0) = 0 := by
  rw [value_eq_ofDigits, List.reverse_replicate, Nat.ofDigits_replicate_zero]

/-- Zeros in front do not count. -/
theorem value_zeros_append (n : ℕ) (ds : List ℕ) :
    value b (List.replicate n 0 ++ ds) = value b ds := by
  rw [value_append, value_replicate_zero, Nat.zero_mul, Nat.zero_add]

theorem value_lt (hb : 1 < b) {ds : List ℕ} (hds : ∀ d ∈ ds, d < b) :
    value b ds < b ^ ds.length := by
  rw [value_eq_ofDigits, ← List.length_reverse]
  exact Nat.ofDigits_lt_base_pow_length hb (by simpa using hds)

theorem value_inj (hb : 1 < b) {xs ys : List ℕ} (hlen : xs.length = ys.length)
    (hxs : ∀ d ∈ xs, d < b) (hys : ∀ d ∈ ys, d < b) (h : value b xs = value b ys) : xs = ys := by
  rw [value_eq_ofDigits, value_eq_ofDigits] at h
  exact List.reverse_inj.1 (Nat.ofDigits_inj_of_len_eq hb (by simpa using hlen)
    (by simpa using hxs) (by simpa using hys) h)

/-- Blocks of `n` digits are the digits in base `b ^ n`. -/
theorem value_flatten {n : ℕ} : ∀ {dss : List (List ℕ)}, (∀ ds ∈ dss, ds.length = n) →
    value b dss.flatten = value (b ^ n) (dss.map (value b))
  | [], _ => rfl
  | ds :: dss, h => by
    have hrest : ∀ ds ∈ dss, ds.length = n := fun ds hds => h ds (List.mem_cons_of_mem _ hds)
    have hlen : dss.flatten.length = n * dss.length := by
      rw [List.length_flatten, List.map_congr_left hrest, List.map_const', List.sum_replicate_nat,
        Nat.mul_comm]
    rw [List.flatten_cons, value_append, value_flatten hrest, List.map_cons, value_cons, hlen,
      List.length_map, pow_mul]

end Positional
