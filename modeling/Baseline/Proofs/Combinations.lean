import Baseline.Allign
import Baseline.Odometer

/-!
# All combinations of suppliers

`odometer_increment` is the step of an odometer whose bounds are the lengths of the arrays
(`odometer_increment_eq`), so the loop of `combineArrays` outputs one combination for each
position, in their order (`combineLoop_of_run`, `createUniqueSets_product`).
-/

namespace Baseline

namespace Allign

open Odometer

section CombineArrays

variable {α : Type} {arrays : List (List α)}

theorem formCombination_eq : ∀ (odometer : List ℕ) (arrays : List (List α)),
    odometer.length = arrays.length →
    formCombination odometer arrays = List.zipWith (fun i array => array[i]?) odometer arrays
  | [], [], _ => rfl
  | i :: odometer, array :: arrays, h => by
    rw [List.zipWith_cons_cons, ← formCombination_eq odometer arrays (Nat.succ.inj h)]
    simp [formCombination, List.mapIdx_cons]

theorem take_lengths_succ {i : ℕ} (hi : i < arrays.length) :
    (arrays.map List.length).take (i + 1)
      = (arrays.map List.length).take i ++ [(arrays[i]?.getD []).length] := by
  rw [List.take_add_one, List.getElem?_map, List.getElem?_eq_getElem hi]
  rfl

/-- The digit behind the first ones is read and set. -/
theorem digit_behind {ys : List ℕ} {i : ℕ} (hys : ys.length = i) (d : ℕ) (zs : List ℕ) :
    (ys ++ [d] ++ zs)[i]? = some d ∧
      ∀ e, (ys ++ [d] ++ zs).set i e = ys ++ [e] ++ zs := by
  rw [← hys, List.append_assoc]
  refine ⟨?_, fun e => ?_⟩
  · rw [List.getElem?_append_right (Nat.le_refl _), Nat.sub_self]
    rfl
  · rw [List.set_append_right _ _ (Nat.le_refl _), Nat.sub_self, List.append_assoc]
    rfl

/-- The digits before `zs`, of which there are `i`, are incremented from the last. -/
theorem incrementFrom_eq : ∀ (i : ℕ) (xs zs : List ℕ), xs.length = i → i ≤ arrays.length →
    (∀ xs', next ((arrays.map List.length).take i) xs = some xs' →
      incrementFrom arrays i (xs ++ zs) = (true, xs' ++ zs)) ∧
    (next ((arrays.map List.length).take i) xs = none →
      (incrementFrom arrays i (xs ++ zs)).1 = false)
  | 0, xs, zs, hxs, _ => by
    rw [List.length_eq_zero_iff.1 hxs]
    exact ⟨fun xs' h => (by cases h), fun _ => rfl⟩
  | i + 1, xs, zs, hxs, hi => by
    obtain ⟨ys, d, rfl⟩ : ∃ ys d, xs = ys ++ [d] :=
      ⟨_, _, (List.dropLast_append_getLast (List.ne_nil_of_length_eq_add_one hxs)).symm⟩
    have hys : ys.length = i := by simpa using hxs
    obtain ⟨hsome, hnone⟩ := incrementFrom_eq i ys (0 :: zs) hys (by omega)
    obtain ⟨hdigit, hset⟩ := digit_behind hys d zs
    have hlen : ys.length = ((arrays.map List.length).take i).length := by
      rw [List.length_take, List.length_map, hys]
      omega
    rw [take_lengths_succ (by omega), next_concat hlen, incrementFrom]
    simp only [hdigit, Option.getD_some, hset]
    generalize (arrays[i]?.getD []).length = n
    by_cases hd : d + 1 < n
    · rw [if_pos hd, if_pos (by omega)]
      exact ⟨fun xs' h => by rw [← Option.some.inj h], fun h => (by cases h)⟩
    have hzero : ys ++ [0] ++ zs = ys ++ 0 :: zs := by simp
    rw [if_neg hd, if_neg (by omega), hzero]
    by_cases hi0 : i = 0
    · subst hi0
      rw [List.length_eq_zero_iff.1 hys, if_pos rfl]
      exact ⟨fun xs' h => (by cases h), fun _ => rfl⟩
    rw [if_neg hi0]
    refine ⟨fun xs' h => ?_, fun h => hnone (Option.map_eq_none_iff.1 h)⟩
    obtain ⟨ys', hys', rfl⟩ := Option.map_eq_some_iff.1 h
    rw [hsome ys' hys', List.append_assoc]
    rfl

theorem odometer_increment_eq {odometer : List ℕ} (h : odometer.length = arrays.length) :
    (∀ odometer', next (arrays.map List.length) odometer = some odometer' →
      odometer_increment odometer arrays = (true, odometer')) ∧
    (next (arrays.map List.length) odometer = none →
      (odometer_increment odometer arrays).1 = false) := by
  have hfrom := incrementFrom_eq odometer.length odometer [] rfl (Nat.le_of_eq h)
  rw [List.take_of_length_le (by rw [List.length_map, h])] at hfrom
  simp only [List.append_nil] at hfrom
  exact hfrom

/-- The loop outputs what the run goes through. -/
theorem combineLoop_of_run {odometer : List ℕ} {l : List (List ℕ)}
    (h : Run (next (arrays.map List.length)) odometer l) : ∀ {turns output},
    (∀ p ∈ l, p.length = arrays.length) → l.length ≤ turns →
    combineLoop arrays turns odometer (output ++ [formCombination odometer arrays])
      = some (output ++ l.map fun p => formCombination p arrays) := by
  induction h with
  | @last a hnone =>
    intro turns output hlen hturns
    obtain ⟨turns, rfl⟩ : ∃ k, turns = k + 1 := ⟨turns - 1, by simp at hturns; omega⟩
    have hfalse := (odometer_increment_eq (hlen a (List.mem_cons_self ..))).2 hnone
    rw [combineLoop]
    cases hinc : odometer_increment a arrays with
    | mk more odometer' =>
      rw [hinc] at hfalse
      simp only at hfalse
      rw [hfalse]
      rfl
  | @cons a b l hsome hrun ih =>
    intro turns output hlen hturns
    obtain ⟨turns, rfl⟩ : ∃ k, turns = k + 1 := ⟨turns - 1, by simp at hturns; omega⟩
    have htrue := (odometer_increment_eq (hlen a (List.mem_cons_self ..))).1 b hsome
    rw [combineLoop, htrue]
    simp only
    rw [ih (fun p hp => hlen p (List.mem_cons_of_mem _ hp)) (by simpa using hturns),
      List.map_cons, List.append_assoc]
    rfl

theorem combineArrays_eq (hne : arrays ≠ []) (harrays : ∀ array ∈ arrays, array ≠ []) {turns : ℕ}
    (hturns : (positions (arrays.map List.length)).length ≤ turns) :
    combineArrays turns arrays
      = some ((positions (arrays.map List.length)).map
          (List.zipWith (fun i array => array[i]?) · arrays)) := by
  have hpos : ∀ n ∈ arrays.map List.length, 0 < n := by
    simpa using fun array h => List.length_pos_of_ne_nil (harrays array h)
  have hrun := run_positions hpos
  have hlen : ∀ p ∈ positions (arrays.map List.length), p.length = arrays.length := by
    intro p hp
    rw [(mem_positions.1 hp).length_eq, List.length_map]
  have hempty : ¬(arrays.any fun array => array.length = 0) = true := by
    simpa using fun h => harrays [] h rfl
  have hloop : combineLoop arrays turns _ ([] ++ [formCombination _ arrays]) = _ :=
    combineLoop_of_run hrun hlen hturns
  rw [List.length_map] at hloop
  rw [combineArrays, if_neg (by simpa using hne), if_neg hempty]
  refine hloop.trans ?_
  rw [List.nil_append, List.map_congr_left fun p hp => formCombination_eq p arrays (hlen p hp)]

end CombineArrays

/-- One combination for each position, in lexicographic order and each once. -/
theorem createUniqueSets_product {day : ℕ} {cSuppliers : List (Category × List Str)}
    (hne : cSuppliers ≠ []) (hlists : ∀ category ∈ cSuppliers, category.2 ≠ []) :
    ∃ all : List (List ℕ),
      all.length = (cSuppliers.map fun category => category.2.length).prod ∧
      all.Pairwise (· < ·) ∧
      (∀ p, p ∈ all ↔
        List.Forall₂ (· < ·) p (cSuppliers.map fun category => category.2.length)) ∧
      ∀ turns, all.length ≤ turns →
        createUniqueSets turns [(day, cSuppliers)]
          = some (all.map fun p =>
              List.zipWith (fun i category => category.2[i]?) p cSuppliers) := by
  have hlens : (cSuppliers.map Prod.snd).map List.length
      = cSuppliers.map fun category => category.2.length := by
    rw [List.map_map]
    rfl
  refine ⟨positions (cSuppliers.map fun category => category.2.length), length_positions _,
    positions_sorted _, fun p => mem_positions, fun turns hturns => ?_⟩
  have harrays : ∀ array ∈ cSuppliers.map Prod.snd, array ≠ [] := by
    intro array harray
    obtain ⟨category, hcategory, rfl⟩ := List.mem_map.1 harray
    exact hlists category hcategory
  have hcombine : combineArrays turns (cSuppliers.map Prod.snd) = _ :=
    combineArrays_eq (by simpa using hne) harrays (by rwa [hlens])
  rw [createUniqueSets, hcombine, hlens]
  simp only [List.zipWith_map_right]

theorem createUniqueSets_product_six :
    ∃ all : List (List ℕ), all.length = 6 ∧ all.Pairwise (· < ·) ∧
      (∀ p, p ∈ all ↔ List.Forall₂ (· < ·) p [3, 2]) ∧
      ∀ turns, all.length ≤ turns →
        createUniqueSets turns
            [(2, [(.Ports, [['a'], ['b'], ['c']]), (.Vessels, [['d'], ['e']])])]
          = some (all.map fun p => List.zipWith (fun i category => category.2[i]?) p
              [(Category.Ports, [['a'], ['b'], ['c']]), (.Vessels, [['d'], ['e']])]) :=
  @createUniqueSets_product 2 [(.Ports, [['a'], ['b'], ['c']]), (.Vessels, [['d'], ['e']])]
    (by simp) (by simp)

end Allign

end Baseline
