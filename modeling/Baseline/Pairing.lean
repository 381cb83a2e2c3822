import Mathlib.Data.List.Basic
import Mathlib.Data.Nat.Log
import Mathlib.Tactic.Ring

/-!
# Reducing a list by pairs

The elements of a list are combined two by two, and so are the results, until one is left. An
operation that may fail combines them. Of a list of `2 ^ n` elements the one that is left comes
from those of its halves (`root_append`), so it makes no difference whether pairs are taken from the
leaves upwards or halves from the root downwards. Where the operation never fails, there always is
one (`rootAt_some`).
-/

namespace Pairing

variable {α : Type*} (f : α → α → Option α)

/-- Adjacent elements combined; one without a neighbour stays. -/
def pairUp : List α → Option (List α)
  | a :: b :: l => do
    let c ← f a b
    let l ← pairUp l
    return c :: l
  | l => some l

/-- The first element after so many rounds. -/
def rootAt : ℕ → List α → Option α
  | 0, l => l.head?
  | n + 1, l => do rootAt n (← pairUp f l)

/-- The element that is left of a list whose length is a power of two. -/
def root (l : List α) : Option α := rootAt f (Nat.log 2 l.length) l

theorem pairUp_append : ∀ (n : ℕ) {l : List α} (m : List α), l.length = 2 * n →
    pairUp f (l ++ m) = do return (← pairUp f l) ++ (← pairUp f m)
  | 0, l, m, hl => by
    rw [List.length_eq_zero_iff.1 hl]
    simp [pairUp]
  | n + 1, a :: b :: l, m, hl => by
    have hl' : l.length = 2 * n := by
      simp only [List.length_cons] at hl
      omega
    have ih := pairUp_append n m hl'
    simp only [List.cons_append, pairUp, ih]
    rcases f a b with _ | c
    · rfl
    · rcases pairUp f l with _ | l₁
      · rfl
      · rcases pairUp f m with _ | m₁ <;> rfl

theorem length_pairUp : ∀ (n : ℕ) {l m : List α}, l.length = 2 * n → pairUp f l = some m →
    m.length = n
  | 0, l, m, hl, h => by
    rw [List.length_eq_zero_iff.1 hl] at h
    rw [← Option.some.inj h, List.length_nil]
  | n + 1, a :: b :: l, m, hl, h => by
    have hl' : l.length = 2 * n := by
      simp only [List.length_cons] at hl
      omega
    obtain ⟨c, -, h⟩ := Option.bind_eq_some_iff.1 h
    obtain ⟨l₁, hl₁, h⟩ := Option.bind_eq_some_iff.1 h
    rw [← Option.some.inj h, List.length_cons, length_pairUp n hl' hl₁]

theorem rootAt_append : ∀ (n : ℕ) {l m : List α}, l.length = 2 ^ n → m.length = 2 ^ n →
    rootAt f (n + 1) (l ++ m) = do f (← rootAt f n l) (← rootAt f n m)
  | 0, l, m, hl, hm => by
    obtain ⟨a, rfl⟩ := List.length_eq_one_iff.1 hl
    obtain ⟨b, rfl⟩ := List.length_eq_one_iff.1 hm
    simp only [rootAt, List.cons_append, List.nil_append, pairUp, List.head?_cons]
    rcases h : f a b with _ | c <;> simp [h]
  | n + 1, l, m, hl, hm => by
    rw [pow_succ'] at hl hm
    rw [rootAt, rootAt, rootAt, pairUp_append f _ m hl]
    rcases hl₁ : pairUp f l with _ | l₁
    · rfl
    · rcases hm₁ : pairUp f m with _ | m₁
      · exact (Option.bind_fun_none (rootAt f n l₁)).symm
      · exact rootAt_append n (length_pairUp f _ hl hl₁) (length_pairUp f _ hm hm₁)

variable {n : ℕ}

theorem root_of_length {l : List α} (hl : l.length = 2 ^ n) : root f l = rootAt f n l := by
  rw [root, hl, Nat.log_pow Nat.one_lt_two]

theorem root_append {l m : List α} (hl : l.length = 2 ^ n) (hm : m.length = 2 ^ n) :
    root f (l ++ m) = (do f (← root f l) (← root f m)) := by
  have hlm : (l ++ m).length = 2 ^ (n + 1) := by
    rw [List.length_append, hl, hm]
    ring
  rw [root_of_length f hl, root_of_length f hm, root_of_length f hlm, rootAt_append f n hl hm]

theorem root_pair (a b : α) : root f [a, b] = f a b := by
  rw [root_of_length f (n := 1) rfl]
  simp only [rootAt, pairUp]
  rcases f a b with _ | c <;> rfl

/-! ## Nodes of one kind -/

section Kind

variable {f} {P : α → Prop}

theorem pairUp_some (hf : ∀ a b, P a → P b → ∃ c, f a b = some c ∧ P c) : ∀ {l : List α},
    (∀ a ∈ l, P a) → ∃ m, pairUp f l = some m ∧ (∀ a ∈ m, P a) ∧ (l ≠ [] → m ≠ [])
  | [], h => ⟨[], rfl, h, id⟩
  | [a], h => ⟨[a], rfl, h, id⟩
  | a :: b :: l, h => by
    obtain ⟨ha, hb, hl⟩ := List.forall_mem_cons.1 h |>.imp_right List.forall_mem_cons.1
    obtain ⟨c, hc, hPc⟩ := hf a b ha hb
    obtain ⟨m, hm, hPm, -⟩ := pairUp_some hf hl
    refine ⟨c :: m, ?_, List.forall_mem_cons.2 ⟨hPc, hPm⟩, fun _ => List.cons_ne_nil c m⟩
    rw [pairUp, hc, hm]
    rfl

/-- An operation that keeps to a kind of elements, and never fails on them, has a root of them. -/
theorem rootAt_some (hf : ∀ a b, P a → P b → ∃ c, f a b = some c ∧ P c) : ∀ (n : ℕ) {l : List α},
    l ≠ [] → (∀ a ∈ l, P a) → ∃ c, rootAt f n l = some c ∧ P c
  | 0, a :: l, _, h => ⟨a, rfl, h a List.mem_cons_self⟩
  | n + 1, l, hne, h => by
    obtain ⟨m, hm, hPm, hne'⟩ := pairUp_some hf h
    rw [rootAt, hm]
    exact rootAt_some hf n (hne' hne) hPm

end Kind

end Pairing
