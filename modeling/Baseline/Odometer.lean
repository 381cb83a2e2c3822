import Mathlib.Data.List.Forall2
import Mathlib.Algebra.BigOperators.Group.List.Basic
import Mathlib.Algebra.Ring.Nat

/-!
# Odometers

Digits with a bound for each, the most significant first. An increment takes the last digit that
can go up and sets those behind it to zero, and from zeros it runs through all digits within their
bounds, in lexicographic order and each once (`run_positions`).
-/

namespace Odometer

/-- All digits within their bounds. -/
def positions : List ℕ → List (List ℕ)
  | [] => [[]]
  | n :: ns => (List.range n).flatMap fun i => (positions ns).map (i :: ·)

/-- The digits after some digits, if those are not the last. -/
def next : List ℕ → List ℕ → Option (List ℕ)
  | n :: ns, d :: ds =>
    match next ns ds with
    | some ds' => some (d :: ds')
    | none => if d + 1 < n then some ((d + 1) :: List.replicate ns.length 0) else none
  | _, _ => none

/-- From `a` on, a step as long as there is one goes through just these. -/
inductive Run {β : Type} (step : β → Option β) : β → List β → Prop
  | last {a : β} : step a = none → Run step a [a]
  | cons {a b : β} {l : List β} : step a = some b → Run step b l → Run step a (a :: l)

variable {n i d : ℕ} {ns ds p : List ℕ} {l l' : List (List ℕ)}

theorem length_positions : ∀ ns : List ℕ, (positions ns).length = ns.prod
  | [] => rfl
  | n :: ns => by
    have h : ∀ i ∈ List.range n, ((positions ns).map (i :: ·)).length = ns.prod := by
      intro i _
      rw [List.length_map, length_positions ns]
    rw [positions, List.length_flatMap, List.map_congr_left h, List.map_const', List.length_range,
      List.sum_replicate_nat, List.prod_cons]

theorem mem_positions : ∀ {ns p : List ℕ}, p ∈ positions ns ↔ List.Forall₂ (· < ·) p ns
  | [], p => by simp [positions]
  | n :: ns, p => by
    rw [positions, List.mem_flatMap]
    constructor
    · rintro ⟨i, hi, hp⟩
      obtain ⟨q, hq, rfl⟩ := List.mem_map.1 hp
      exact .cons (List.mem_range.1 hi) (mem_positions.1 hq)
    · rintro (_ | ⟨hi, hq⟩)
      exact ⟨_, List.mem_range.2 hi, List.mem_map_of_mem (mem_positions.2 hq)⟩

theorem positions_sorted : ∀ ns : List ℕ, (positions ns).Pairwise (· < ·)
  | [] => List.pairwise_singleton _ _
  | n :: ns => by
    refine List.pairwise_flatMap.2 ⟨fun i _ => ?_, ?_⟩
    · refine List.pairwise_map.2 ((positions_sorted ns).imp fun {p q} hpq => ?_)
      exact List.cons_lt_cons_iff.2 (.inr ⟨rfl, hpq⟩)
    · refine List.pairwise_lt_range.imp fun {i j} hij p hp q hq => ?_
      obtain ⟨p', -, rfl⟩ := List.mem_map.1 hp
      obtain ⟨q', -, rfl⟩ := List.mem_map.1 hq
      exact List.cons_lt_cons_iff.2 (.inl hij)

/-! ## The run from zeros -/

/-- A run of the lower digits, after which digit `i` goes up. -/
theorem Run.block (hi : i + 1 < n) (hrest : Run (next (n :: ns))
    ((i + 1) :: List.replicate ns.length 0) l') (h : Run (next ns) p l) :
    Run (next (n :: ns)) (i :: p) (l.map (i :: ·) ++ l') := by
  induction h with
  | last hnone => exact .cons (by rw [next, hnone]; exact if_pos hi) hrest
  | cons hsome _ ih => exact .cons (by rw [next, hsome]) ih

/-- A run of the lower digits, after which digit `i` cannot. -/
theorem Run.lastBlock (hi : ¬i + 1 < n) (h : Run (next ns) p l) :
    Run (next (n :: ns)) (i :: p) (l.map (i :: ·)) := by
  induction h with
  | last hnone => exact .last (by rw [next, hnone]; exact if_neg hi)
  | cons hsome _ ih => exact .cons (by rw [next, hsome]) ih

theorem run_blocks (h : Run (next ns) (List.replicate ns.length 0) l) :
    ∀ k i, i + k + 1 = n → Run (next (n :: ns)) (i :: List.replicate ns.length 0)
      ((List.range' i (k + 1)).flatMap fun i => l.map (i :: ·))
  | 0, i, hn => by
    rw [List.range'_one, List.flatMap_singleton]
    exact h.lastBlock (by omega)
  | k + 1, i, hn => by
    rw [List.range'_succ, List.flatMap_cons]
    exact Run.block (by omega) (run_blocks h k (i + 1) (by omega)) h

theorem run_positions : ∀ {ns : List ℕ}, (∀ n ∈ ns, 0 < n) →
    Run (next ns) (List.replicate ns.length 0) (positions ns)
  | [], _ => .last rfl
  | n :: ns, h => by
    obtain ⟨k, rfl⟩ : ∃ k, n = k + 1 :=
      ⟨n - 1, by have := h n (List.mem_cons_self ..); omega⟩
    have hrest := run_positions fun m hm => h m (List.mem_cons_of_mem _ hm)
    rw [positions, List.range_eq_range']
    exact run_blocks hrest k 0 (by omega)

/-! ## From the last digit on -/

/-- The last digit goes up if it can, and else the others are incremented before a zero. -/
theorem next_concat : ∀ {ns ds : List ℕ}, ds.length = ns.length →
    next (ns ++ [n]) (ds ++ [d])
      = if d + 1 < n then some (ds ++ [d + 1]) else (next ns ds).map (· ++ [0])
  | [], [], _ => rfl
  | m :: ns, e :: ds, h => by
    rw [List.cons_append, List.cons_append, next, next_concat (Nat.succ.inj h), next]
    by_cases hd : d + 1 < n
    · rw [if_pos hd, if_pos hd]
      rfl
    · rw [if_neg hd, if_neg hd]
      cases next ns ds with
      | none => by_cases he : e + 1 < m <;> simp [he, List.replicate_succ']
      | some ds' => rfl

end Odometer
