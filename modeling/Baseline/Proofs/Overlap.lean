import Baseline.Allign

/-!
# The first day on which every category is there

The first pass lists the days of all calendars, each with the categories that have somebody on it
(`get_listDays`), so the second finds a list to put every id on (`placeSuppliers_ok`), and a day
with as many categories as have suppliers at all has all of those. The first such day is what is
returned (`findOverlappingDay_first`); without suppliers there is no day to count for
(`findOverlappingDay_nobody`).
-/

namespace Baseline

namespace Allign

open Jobs Objects

/-! ## Suppliers and days -/

/-- A calendar's entry for a day is the day or nothing. -/
def IsCalendar (availability : List ℕ) : Prop :=
  ∀ i day, availability[i]? = some day → day = 0 ∨ day = i + 1

def OnDay (d : ℕ) (s : FileStructure) : Prop := 0 < d ∧ d ∈ s.content.supplierAvailability

instance (d : ℕ) : DecidablePred (OnDay d) := fun _ => inferInstanceAs (Decidable (_ ∧ _))

/-- In the order of a `Structure`'s keys. -/
def categories : List Category := [.Ports, .Spares, .Technicians, .Vessels]

def ofCategory (suppliers : List FileStructure) (c : Category) : List FileStructure :=
  suppliers.filter fun s => categoryOf s.type = c

/-- The categories with a supplier on the day. -/
def presentOn (suppliers : List FileStructure) (d : ℕ) : List Category :=
  categories.filter fun c => (ofCategory suppliers c).any fun s => OnDay d s

/-- The ids of the category's suppliers on the day. -/
def idsOn (suppliers : List FileStructure) (d : ℕ) (c : Category) : List Str :=
  (suppliers.filter fun s => categoryOf s.type = c ∧ OnDay d s).map fun s => s.content.supplierId

theorem mem_categories : ∀ c : Category, c ∈ categories := by
  rintro (_ | _ | _ | _) <;> decide

theorem nodup_categories : categories.Nodup := by decide

theorem foldl_pushSupplier : ∀ (suppliers : List FileStructure) (acc : Structure),
    suppliers.foldl pushSupplier acc
      = ⟨acc.Ports ++ ofCategory suppliers .Ports, acc.Spares ++ ofCategory suppliers .Spares,
        acc.Technicians ++ ofCategory suppliers .Technicians,
        acc.Vessels ++ ofCategory suppliers .Vessels⟩
  | [], acc => by simp [ofCategory]
  | supp :: suppliers, acc => by
    rw [List.foldl_cons, foldl_pushSupplier suppliers]
    cases h : supp.type <;> simp [pushSupplier, ofCategory, categoryOf, h]

theorem entries_partitionSuppliers (suppliers : List FileStructure) :
    (partitionSuppliers suppliers).entries
      = categories.map fun c => (c, ofCategory suppliers c) := by
  rw [partitionSuppliers, foldl_pushSupplier]
  simp [Structure.entries, categories]

/-! ## The first pass -/

section ListDays

variable {α : Type} {d day : ℕ} {c : Category} {sets : OverlapContainer}

theorem get_addDay : get d (addDay c day sets)
    = if day = d then some (set c [] ((get d sets).getD [])) else get d sets := by
  rw [addDay, get_setIndex]
  split_ifs with h
  · rw [h]
  · rfl

/-- Adding the category to a day again changes nothing. -/
theorem get_foldl {f : OverlapContainer → α → OverlapContainer} {p : α → Prop} [DecidablePred p]
    (hf : ∀ sets x, get d (f sets x)
      = if p x then some (set c [] ((get d sets).getD [])) else get d sets) :
    ∀ (xs : List α) sets, get d (xs.foldl f sets)
      = if ∃ x ∈ xs, p x then some (set c [] ((get d sets).getD [])) else get d sets
  | [], sets => by simp
  | x :: xs, sets => by
    rw [List.foldl_cons, get_foldl hf xs, hf]
    by_cases hx : p x <;> by_cases hxs : ∃ y ∈ xs, p y
    · rw [if_pos hxs, if_pos hx, if_pos ⟨x, List.mem_cons_self .., hx⟩, Option.getD_some, set_set]
    · rw [if_neg hxs, if_pos hx, if_pos ⟨x, List.mem_cons_self .., hx⟩]
    · obtain ⟨y, hy, hpy⟩ := hxs
      rw [if_pos ⟨y, hy, hpy⟩, if_neg hx, if_pos ⟨y, List.mem_cons_of_mem x hy, hpy⟩]
    · have hnone : ¬∃ y ∈ x :: xs, p y := by
        rintro ⟨y, hy, hpy⟩
        rcases List.mem_cons.1 hy with rfl | hy
        · exact hx hpy
        · exact hxs ⟨y, hy, hpy⟩
      rw [if_neg hxs, if_neg hx, if_neg hnone]

theorem get_foldl_supplier (s : FileStructure) (sets : OverlapContainer) :
    get d (s.content.supplierAvailability.foldl (fun sets day =>
        if day > 0 then addDay c day sets else sets) sets)
      = if OnDay d s then some (set c [] ((get d sets).getD [])) else get d sets := by
  rw [get_foldl (p := fun day => 0 < day ∧ day = d)]
  · refine if_congr ?_ rfl rfl
    constructor
    · rintro ⟨day, hday, hpos, rfl⟩
      exact ⟨hpos, hday⟩
    · rintro ⟨hpos, hday⟩
      exact ⟨d, hday, hpos, rfl⟩
  · intro sets day
    by_cases hpos : day > 0
    · rw [if_pos hpos, get_addDay]
      exact if_congr (and_iff_right hpos).symm rfl rfl
    · rw [if_neg hpos, if_neg fun h => hpos h.1]

/-- What the suppliers of one category add. -/
theorem get_foldl_category (ss : List FileStructure) (sets : OverlapContainer) :
    get d (ss.foldl (fun sets supplier =>
        supplier.content.supplierAvailability.foldl (fun sets day =>
          if day > 0 then addDay c day sets else sets) sets) sets)
      = if ss.any (fun s => OnDay d s) then some (set c [] ((get d sets).getD []))
        else get d sets := by
  rw [get_foldl (p := OnDay d) fun sets s => get_foldl_supplier s sets]
  exact if_congr (by simp) rfl rfl

theorem get_foldl_entries (ss : Category → List FileStructure) : ∀ (cs : List Category) sets,
    get d ((cs.map fun c => (c, ss c)).foldl (fun sets entry =>
        entry.2.foldl (fun sets supplier =>
          supplier.content.supplierAvailability.foldl (fun sets day =>
            if day > 0 then addDay entry.1 day sets else sets) sets) sets) sets)
      = (cs.filter fun c => (ss c).any fun s => OnDay d s).foldl
          (fun o c => some (set c [] (o.getD []))) (get d sets)
  | [], sets => rfl
  | c :: cs, sets => by
    rw [List.map_cons, List.foldl_cons, get_foldl_entries ss cs, get_foldl_category]
    by_cases h : (ss c).any fun s => OnDay d s
    · rw [if_pos h, List.filter_cons, if_pos h, List.foldl_cons]
    · rw [if_neg h, List.filter_cons, if_neg h]

theorem foldl_some (cs : List Category) : ∀ o : List (Category × List Str),
    cs.foldl (fun o c => some (set c [] (Option.getD o []))) (some o)
      = some (cs.foldl (fun o c => set c [] o) o) := by
  induction cs with
  | nil => exact fun _ => rfl
  | cons c cs ih => exact fun o => ih _

/-- Every day of a calendar is there, with the categories present. -/
theorem get_listDays (suppliers : List FileStructure) :
    get d (listDays (partitionSuppliers suppliers))
      = if presentOn suppliers d = [] then none
        else some ((presentOn suppliers d).map fun c => (c, [])) := by
  rw [listDays, entries_partitionSuppliers, get_foldl_entries, ← presentOn]
  have hnodup : (presentOn suppliers d).Nodup := nodup_categories.filter _
  cases h : presentOn suppliers d with
  | nil => rfl
  | cons c cs =>
    have hfirst : (c :: cs).foldl (fun o c => some (set c ([] : List Str) (o.getD []))) none
        = some ((c :: cs).foldl (fun o c => set c [] o) []) := foldl_some cs _
    rw [h] at hnodup
    rw [if_neg (List.cons_ne_nil c cs), show get d ([] : OverlapContainer) = none from rfl, hfirst,
      foldl_set hnodup (by simp), List.nil_append]

theorem foldl_ascending {f : OverlapContainer → α → OverlapContainer}
    (hf : ∀ sets x, Ascending sets → Ascending (f sets x)) : ∀ (xs : List α) {sets},
    Ascending sets → Ascending (xs.foldl f sets)
  | [], _, h => h
  | x :: xs, _, h => foldl_ascending hf xs (hf _ x h)

theorem ascending_listDays (sortedSupp : Structure) : Ascending (listDays sortedSupp) := by
  refine foldl_ascending (fun sets entry h => ?_) _ List.Pairwise.nil
  refine foldl_ascending (fun sets supplier h => ?_) _ h
  refine foldl_ascending (fun sets day h => ?_) _ h
  split_ifs
  · exact h.setIndex
  · exact h

end ListDays

/-! ## The second pass -/

section PlaceSuppliers

variable {k d : ℕ} {c : Category} {sets : OverlapContainer} {prefs : SupplierPreferenceData}

theorem placed_iff {s : FileStructure} (hs : IsCalendar s.content.supplierAvailability)
    (hk : 0 < k) : s.content.supplierAvailability[k - 1]?.getD 0 ≠ 0 ↔ OnDay k s := by
  constructor
  · intro h
    cases hday : s.content.supplierAvailability[k - 1]? with
    | none =>
      rw [hday] at h
      exact absurd rfl h
    | some day =>
      rw [hday, Option.getD_some] at h
      have hk' : day = k := by
        have := hs _ _ hday
        omega
      exact ⟨hk, hk' ▸ List.mem_of_getElem? hday⟩
  · rintro ⟨-, hmem⟩
    obtain ⟨i, hi⟩ := List.mem_iff_getElem?.1 hmem
    have hik : i = k - 1 := by
      have := hs _ _ hi
      omega
    rw [← hik, hi, Option.getD_some]
    omega

/-- The list for the category takes the id at its end. -/
theorem push_map {cs : List Category} (hcs : cs.Nodup) (hc : c ∈ cs) {f : Category → List Str}
    (hget : get k sets = some (cs.map fun c => (c, f c))) (id : Str) :
    push k c id sets
      = some (setIndex k (cs.map fun c' => (c', if c' = c then f c ++ [id] else f c')) sets) := by
  unfold push
  rw [hget]
  simp only [Option.bind_eq_bind, Option.bind_some, get_map hc, set_map hcs hc, Option.pure_def]

theorem idsOn_cons (s : FileStructure) (ss : List FileStructure) :
    idsOn (s :: ss) d c = idsOn [s] d c ++ idsOn ss d c := by
  rw [idsOn, idsOn, idsOn, ← List.map_append, ← List.filter_append, List.singleton_append]

theorem idsOn_singleton (s : FileStructure) :
    idsOn [s] d c = if categoryOf s.type = c ∧ OnDay d s then [s.content.supplierId] else [] := by
  unfold idsOn
  by_cases h : categoryOf s.type = c ∧ OnDay d s
  · simp [h]
  · simp [h]

/-- A supplier's id goes to the end of its category's list, if it is there on the day. -/
theorem placeSupplier_eq (hk : 0 < k) {cs : List Category} (hcs : cs.Nodup) {s : FileStructure}
    (hcal : IsCalendar s.content.supplierAvailability) (hmem : OnDay k s → categoryOf s.type ∈ cs)
    {f : Category → List Str} (hasc : Ascending sets)
    (hget : get k sets = some (cs.map fun c => (c, f c))) (prefs : SupplierPreferenceData) :
    ∃ sets' prefs', placeSupplier k (sets, prefs) s = some (sets', prefs') ∧ Ascending sets' ∧
      get k sets' = some (cs.map fun c => (c, f c ++ idsOn [s] k c)) ∧
      ∀ d, d ≠ k → get d sets' = get d sets := by
  have hplaced := placed_iff hcal hk
  by_cases hon : OnDay k s
  · rw [placeSupplier, if_pos (hplaced.2 hon), push_map hcs (hmem hon) hget s.content.supplierId]
    refine ⟨_, _, rfl, hasc.setIndex, ?_, fun d hd => ?_⟩
    · rw [get_setIndex, if_pos rfl]
      congr 1
      refine List.map_congr_left fun c _ => ?_
      rw [idsOn_singleton]
      by_cases hc : c = categoryOf s.type
      · rw [if_pos hc, if_pos ⟨hc.symm, hon⟩, hc]
      · rw [if_neg hc, if_neg fun h => hc h.1.symm, List.append_nil]
    · rw [get_setIndex, if_neg fun h => hd h.symm]
  · rw [placeSupplier, if_neg fun h => hon (hplaced.1 h)]
    refine ⟨sets, prefs, rfl, hasc, ?_, fun _ _ => rfl⟩
    rw [hget]
    congr 1
    refine List.map_congr_left fun c _ => ?_
    rw [idsOn_singleton, if_neg fun h => hon h.2, List.append_nil]

/-- One day's lists after all suppliers; other days are left alone. -/
theorem foldlM_placeSupplier (hk : 0 < k) {cs : List Category} (hcs : cs.Nodup) :
    ∀ (ss : List FileStructure) (f : Category → List Str) (sets : OverlapContainer)
      (prefs : SupplierPreferenceData),
      (∀ s ∈ ss, IsCalendar s.content.supplierAvailability) →
      (∀ s ∈ ss, OnDay k s → categoryOf s.type ∈ cs) →
      Ascending sets → get k sets = some (cs.map fun c => (c, f c)) →
      ∃ sets' prefs', ss.foldlM (placeSupplier k) (sets, prefs) = some (sets', prefs') ∧
        Ascending sets' ∧ get k sets' = some (cs.map fun c => (c, f c ++ idsOn ss k c)) ∧
        ∀ d, d ≠ k → get d sets' = get d sets
  | [], f, sets, prefs, _, _, hasc, hget =>
    ⟨sets, prefs, rfl, hasc, by simpa [idsOn] using hget, fun _ _ => rfl⟩
  | s :: ss, f, sets, prefs, hcal, hmem, hasc, hget => by
    rw [List.forall_mem_cons] at hcal hmem
    obtain ⟨sets₁, prefs₁, hplace, hasc₁, hget₁, hother₁⟩ :=
      placeSupplier_eq hk hcs hcal.1 hmem.1 hasc hget prefs
    obtain ⟨sets₂, prefs₂, hfold, hasc₂, hget₂, hother₂⟩ :=
      foldlM_placeSupplier hk hcs ss _ sets₁ prefs₁ hcal.2 hmem.2 hasc₁ hget₁
    refine ⟨sets₂, prefs₂, ?_, hasc₂, ?_, fun d hd => (hother₂ d hd).trans (hother₁ d hd)⟩
    · rw [List.foldlM_cons, hplace]
      exact hfold
    · rw [hget₂]
      congr 1
      refine List.map_congr_left fun c _ => ?_
      rw [List.append_assoc, ← idsOn_cons]

/-- All days, each with its own categories `cs d`. -/
theorem foldlM_days {cs : ℕ → List Category} (hcs : ∀ d, (cs d).Nodup) {ss : List FileStructure}
    (hcal : ∀ s ∈ ss, IsCalendar s.content.supplierAvailability)
    (hmem : ∀ d, ∀ s ∈ ss, OnDay d s → categoryOf s.type ∈ cs d) :
    ∀ (ks : List ℕ) (sets : OverlapContainer) (prefs : SupplierPreferenceData), ks.Nodup →
      (∀ k ∈ ks, 0 < k) → Ascending sets →
      (∀ k ∈ ks, get k sets = some ((cs k).map fun c => (c, []))) →
      ∃ sets' prefs', ks.foldlM (fun state key => ss.foldlM (placeSupplier key) state) (sets, prefs)
          = some (sets', prefs') ∧ Ascending sets' ∧
        ∀ d, get d sets'
          = if d ∈ ks then some ((cs d).map fun c => (c, idsOn ss d c)) else get d sets
  | [], sets, prefs, _, _, hasc, _ => ⟨sets, prefs, rfl, hasc, fun d => by simp⟩
  | k :: ks, sets, prefs, hks, hpos, hasc, hget => by
    obtain ⟨hnot, hrest⟩ := List.nodup_cons.1 hks
    obtain ⟨sets₁, prefs₁, hfold₁, hasc₁, hget₁, hother⟩ := foldlM_placeSupplier
      (hpos k (List.mem_cons_self ..)) (hcs k) ss (fun _ => []) sets prefs hcal (hmem k) hasc
      (hget k (List.mem_cons_self ..))
    have hne : ∀ j ∈ ks, j ≠ k := fun j hj h => hnot (h ▸ hj)
    obtain ⟨sets', prefs', hfold, hasc', hall⟩ := foldlM_days hcs hcal hmem ks sets₁ prefs₁ hrest
      (fun j hj => hpos j (List.mem_cons_of_mem _ hj)) hasc₁
      fun j hj => (hother j (hne j hj)).trans (hget j (List.mem_cons_of_mem _ hj))
    refine ⟨sets', prefs', ?_, hasc', fun d => ?_⟩
    · rw [List.foldlM_cons, hfold₁]
      exact hfold
    · rw [hall d]
      by_cases hd : d ∈ ks
      · rw [if_pos hd, if_pos (List.mem_cons_of_mem _ hd)]
      · by_cases hdk : d = k
        · subst hdk
          rw [if_neg hd, if_pos (List.mem_cons_self ..), hget₁]
          simp only [List.nil_append]
        · rw [if_neg hd, hother d hdk, if_neg fun h => (List.mem_cons.1 h).elim hdk hd]

theorem foldlM_entries (ss : Category → List FileStructure) :
    ∀ (cs : List Category) (state : OverlapContainer × SupplierPreferenceData),
      (cs.map fun c => (c, ss c)).foldlM (fun state entry =>
          entry.2.foldlM (placeSupplier k) state) state
        = (cs.flatMap ss).foldlM (placeSupplier k) state
  | [], _ => rfl
  | c :: cs, state => by
    rw [List.map_cons, List.foldlM_cons, List.flatMap_cons, List.foldlM_append]
    exact bind_congr fun state => foldlM_entries ss cs state

theorem idsOn_flatMap (suppliers : List FileStructure) (c : Category) :
    idsOn (categories.flatMap (ofCategory suppliers)) d c = idsOn suppliers d c := by
  have hother : ∀ c', c' ≠ c → (ofCategory suppliers c').filter
      (fun s => categoryOf s.type = c ∧ OnDay d s) = [] := by
    intro c' hc
    rw [ofCategory, List.filter_filter, List.filter_eq_nil_iff]
    intro s _
    simp only [Bool.and_eq_true, decide_eq_true_eq]
    exact fun h => hc (h.2.symm.trans h.1.1)
  have hsame : (ofCategory suppliers c).filter (fun s => categoryOf s.type = c ∧ OnDay d s)
      = suppliers.filter fun s => categoryOf s.type = c ∧ OnDay d s := by
    rw [ofCategory, List.filter_filter]
    refine List.filter_congr fun s _ => ?_
    by_cases h : categoryOf s.type = c <;> simp [h]
  unfold idsOn
  congr 1
  simp only [categories, List.flatMap_cons, List.flatMap_nil, List.filter_append, List.append_nil]
  cases c <;> simp (disch := decide) only [hsame, hother, List.nil_append, List.append_nil]

theorem mem_presentOn {suppliers : List FileStructure} : c ∈ presentOn suppliers d ↔
    ∃ s ∈ suppliers, categoryOf s.type = c ∧ OnDay d s := by
  rw [presentOn, List.mem_filter, and_iff_right (mem_categories c)]
  simp [ofCategory]

/-- Nothing throws, and each day has its categories with their ids. -/
theorem placeSuppliers_ok {suppliers : List FileStructure}
    (hcal : ∀ s ∈ suppliers, IsCalendar s.content.supplierAvailability) :
    ∃ sets prefs, placeSuppliers (partitionSuppliers suppliers)
        (listDays (partitionSuppliers suppliers)) = some (sets, prefs) ∧ Ascending sets ∧
      ∀ d, get d sets = if presentOn suppliers d = [] then none
        else some ((presentOn suppliers d).map fun c => (c, idsOn suppliers d c)) := by
  have hsub : ∀ s ∈ categories.flatMap (ofCategory suppliers), s ∈ suppliers := by
    intro s hs
    obtain ⟨c, -, hc⟩ := List.mem_flatMap.1 hs
    exact (List.mem_filter.1 hc).1
  have hkeys : ∀ k, k ∈ (listDays (partitionSuppliers suppliers)).map Prod.fst ↔
      presentOn suppliers k ≠ [] := by
    intro k
    rw [mem_keys_iff, get_listDays]
    split_ifs with h <;> simp [h]
  have hpos : ∀ k ∈ (listDays (partitionSuppliers suppliers)).map Prod.fst, 0 < k := by
    intro k hk
    obtain ⟨c, hc⟩ := List.exists_mem_of_ne_nil _ ((hkeys k).1 hk)
    obtain ⟨s, -, -, hon⟩ := mem_presentOn.1 hc
    exact hon.1
  have hlists : ∀ k ∈ (listDays (partitionSuppliers suppliers)).map Prod.fst,
      get k (listDays (partitionSuppliers suppliers))
        = some ((presentOn suppliers k).map fun c => (c, [])) := by
    intro k hk
    rw [get_listDays, if_neg ((hkeys k).1 hk)]
  obtain ⟨sets, prefs, hfold, hasc, hget⟩ := foldlM_days
    (fun d => nodup_categories.filter _) (fun s hs => hcal s (hsub s hs))
    (fun d s hs hon => mem_presentOn.2 ⟨s, hsub s hs, rfl, hon⟩) _ _ (fun _ => none)
    (ascending_listDays _).nodup hpos (ascending_listDays _) hlists
  refine ⟨sets, prefs, ?_, hasc, fun d => ?_⟩
  · rw [← hfold, placeSuppliers, entries_partitionSuppliers]
    congr 1
    funext state key
    exact foldlM_entries _ _ _
  · rw [hget d]
    by_cases h : presentOn suppliers d = []
    · rw [if_neg (mt (hkeys d).1 (not_not.2 h)), if_pos h, get_listDays, if_pos h]
    · rw [if_pos ((hkeys d).2 h), if_neg h]
      simp only [idsOn_flatMap]
      rfl

end PlaceSuppliers

/-! ## The first day -/

/-- Every category that has suppliers has one on the day. -/
def AllPresent (suppliers : List FileStructure) (d : ℕ) : Prop :=
  0 < d ∧ ∀ c, ofCategory suppliers c ≠ [] →
    ∃ s ∈ ofCategory suppliers c, d ∈ s.content.supplierAvailability

/-- The categories that have suppliers. -/
def represented (suppliers : List FileStructure) : List Category :=
  categories.filter fun c => ofCategory suppliers c ≠ []

/-- The day, with the ids of those who are there for each category. -/
def containerOn (suppliers : List FileStructure) (d : ℕ) : OverlapContainer :=
  [(d, (represented suppliers).map fun c => (c, idsOn suppliers d c))]

section FirstDay

variable {suppliers : List FileStructure} {d : ℕ}

theorem minNum_partitionSuppliers (suppliers : List FileStructure) :
    minNum (partitionSuppliers suppliers) = (represented suppliers).length := by
  have h : ∀ (cs : List Category) (n : ℕ),
      (cs.map fun c => (c, ofCategory suppliers c)).foldl (fun pVal cVal =>
        if cVal.2.length > 0 then pVal + 1 else pVal + 0) n
        = n + (cs.filter fun c => ofCategory suppliers c ≠ []).length := by
    intro cs
    induction cs with
    | nil => exact fun _ => rfl
    | cons c cs ih =>
      intro n
      rw [List.map_cons, List.foldl_cons, ih, List.filter_cons]
      by_cases hc : ofCategory suppliers c = []
      · simp [hc]
      · simp [hc, List.length_pos_of_ne_nil hc]
        omega
  rw [minNum, entries_partitionSuppliers, h, Nat.zero_add, represented]

theorem presentOn_sublist : (presentOn suppliers d).Sublist (represented suppliers) := by
  refine List.monotone_filter_right _ fun c hc => ?_
  simp only [List.any_eq_true] at hc
  obtain ⟨s, hs, -⟩ := hc
  simpa using List.ne_nil_of_mem hs

theorem presentOn_eq_of_allPresent (h : AllPresent suppliers d) :
    presentOn suppliers d = represented suppliers := by
  refine List.filter_congr fun c _ => ?_
  by_cases hc : ofCategory suppliers c = []
  · simp [hc]
  · obtain ⟨s, hs, hmem⟩ := h.2 c hc
    have hany : ((ofCategory suppliers c).any fun s => decide (OnDay d s)) = true :=
      List.any_eq_true.2 ⟨s, hs, decide_eq_true ⟨h.1, hmem⟩⟩
    rw [hany]
    simpa using hc

theorem represented_ne_nil (h : suppliers ≠ []) : represented suppliers ≠ [] := by
  obtain ⟨s, hs⟩ := List.exists_mem_of_ne_nil _ h
  have hmem : s ∈ ofCategory suppliers (categoryOf s.type) :=
    List.mem_filter.2 ⟨hs, decide_eq_true rfl⟩
  refine List.ne_nil_of_mem (a := categoryOf s.type) (List.mem_filter.2 ⟨mem_categories _, ?_⟩)
  simpa using List.ne_nil_of_mem hmem

/-- Counting the categories of a day is comparing them. -/
theorem allPresent_iff (h : suppliers ≠ []) : AllPresent suppliers d ↔
    presentOn suppliers d ≠ [] ∧
      (presentOn suppliers d).length = (represented suppliers).length := by
  constructor
  · intro hall
    rw [presentOn_eq_of_allPresent hall]
    exact ⟨represented_ne_nil h, rfl⟩
  · rintro ⟨hne, hlen⟩
    have heq := presentOn_sublist.eq_of_length hlen
    obtain ⟨c, hc⟩ := List.exists_mem_of_ne_nil _ hne
    obtain ⟨s, -, -, hon⟩ := mem_presentOn.1 hc
    refine ⟨hon.1, fun c hc => ?_⟩
    have hmem : c ∈ presentOn suppliers d := by
      rw [heq]
      exact List.mem_filter.2 ⟨mem_categories c, decide_eq_true hc⟩
    obtain ⟨s, hs, hcat, hon⟩ := mem_presentOn.1 hmem
    exact ⟨s, List.mem_filter.2 ⟨hs, decide_eq_true hcat⟩, hon.2⟩

theorem dayReducer_eq {sets : OverlapContainer} (h : Ascending sets) (min : ℕ) :
    dayReducer sets min = sets.filter fun entry => entry.2.length = min := by
  have hnil : ∀ q ∈ ([] : OverlapContainer), ∀ r ∈ sets, q.1 < r.1 := by simp
  simpa only [dayReducer, decide_eq_true_eq, List.nil_append] using
    h.foldl_setIndex (p := fun entry => entry.2.length = min) hnil

/-- What the first pass and the second leave to choose from. -/
theorem findOverlappingDay_eq (hcal : ∀ s ∈ suppliers, IsCalendar s.content.supplierAvailability) :
    ∃ sets prefs, findOverlappingDay (partitionSuppliers suppliers)
        = some ((sets.filter fun entry => entry.2.length = (represented suppliers).length).take 1,
          prefs) ∧
      Ascending sets ∧
      ∀ d, get d sets = if presentOn suppliers d = [] then none
        else some ((presentOn suppliers d).map fun c => (c, idsOn suppliers d c)) := by
  obtain ⟨sets, prefs, hplace, hasc, hget⟩ := placeSuppliers_ok hcal
  refine ⟨sets, prefs, ?_, hasc, hget⟩
  rw [findOverlappingDay, hplace]
  simp only [Option.bind_eq_bind, Option.bind_some, minNum_partitionSuppliers, dayReducer_eq hasc]
  rfl

/-- The first day on which all categories with suppliers are there, with the ids of who is, and
nothing if there is no such day or nobody to be there. -/
theorem findOverlappingDay_first
    (hcal : ∀ s ∈ suppliers, IsCalendar s.content.supplierAvailability) :
    ∃ container prefs,
      findOverlappingDay (partitionSuppliers suppliers) = some (container, prefs) ∧
      (∀ d, suppliers ≠ [] → AllPresent suppliers d → (∀ j < d, ¬AllPresent suppliers j) →
        container = containerOn suppliers d) ∧
      (suppliers = [] ∨ (∀ d, ¬AllPresent suppliers d) → container = []) := by
  obtain ⟨sets, prefs, heq, hasc, hget⟩ := findOverlappingDay_eq hcal
  have hsome : ∀ d v, get d sets = some v ↔ presentOn suppliers d ≠ [] ∧
      v = (presentOn suppliers d).map fun c => (c, idsOn suppliers d c) := by
    intro d v
    rw [hget d]
    split_ifs with h
    · simp [h]
    · simp [h, eq_comm]
  refine ⟨_, prefs, heq, fun d hne hall hfirst => ?_, fun hnone => ?_⟩
  · obtain ⟨hpresent, hlen⟩ := (allPresent_iff hne).1 hall
    have hhead : (sets.filter fun entry => entry.2.length = (represented suppliers).length).head?
        = some (d, (presentOn suppliers d).map fun c => (c, idsOn suppliers d c)) := by
      refine hasc.head_filter ((hsome d _).2 ⟨hpresent, rfl⟩) (by simpa using hlen) ?_
      intro j w hj hw hp
      obtain ⟨hpj, rfl⟩ := (hsome j w).1 hw
      exact hfirst j hj ((allPresent_iff hne).2 ⟨hpj, by simpa using hp⟩)
    rw [List.take_one, hhead, presentOn_eq_of_allPresent hall, containerOn]
    rfl
  · have hempty : (sets.filter fun entry => entry.2.length = (represented suppliers).length)
        = [] := by
      refine List.filter_eq_nil_iff.2 fun entry hentry hlen => ?_
      obtain ⟨hpj, hw⟩ := (hsome _ _).1 (hasc.mem_iff.1 hentry)
      obtain ⟨c, hc⟩ := List.exists_mem_of_ne_nil _ hpj
      obtain ⟨s, hs, -⟩ := mem_presentOn.1 hc
      rcases hnone with rfl | hnone
      · exact List.not_mem_nil hs
      · refine hnone entry.1 ((allPresent_iff (List.ne_nil_of_mem hs)).2 ⟨hpj, ?_⟩)
        rw [hw] at hlen
        simpa using hlen
    rw [hempty]
    rfl

theorem findOverlappingDay_first_technician :
    ∃ container prefs,
      findOverlappingDay (partitionSuppliers [⟨.TECHNICIAN, ⟨['a'], 1, 1, [0, 2]⟩⟩])
        = some (container, prefs) ∧
      (∀ d, [(⟨.TECHNICIAN, ⟨['a'], 1, 1, [0, 2]⟩⟩ : FileStructure)] ≠ [] →
        AllPresent [⟨.TECHNICIAN, ⟨['a'], 1, 1, [0, 2]⟩⟩] d →
        (∀ j < d, ¬AllPresent [⟨.TECHNICIAN, ⟨['a'], 1, 1, [0, 2]⟩⟩] j) →
        container = containerOn [⟨.TECHNICIAN, ⟨['a'], 1, 1, [0, 2]⟩⟩] d) ∧
      ([(⟨.TECHNICIAN, ⟨['a'], 1, 1, [0, 2]⟩⟩ : FileStructure)] = [] ∨
        (∀ d, ¬AllPresent [⟨.TECHNICIAN, ⟨['a'], 1, 1, [0, 2]⟩⟩] d) → container = []) := by
  refine findOverlappingDay_first fun s hs => ?_
  rw [List.mem_singleton.1 hs]
  rintro (_ | _ | i) day hday <;> simp at hday <;> omega

/-- Without suppliers every day would do, and none is returned. -/
theorem findOverlappingDay_nobody :
    ¬∀ suppliers : List FileStructure,
      (∀ s ∈ suppliers, IsCalendar s.content.supplierAvailability) →
      ∃ container prefs,
        findOverlappingDay (partitionSuppliers suppliers) = some (container, prefs) ∧
        (∀ d, AllPresent suppliers d → (∀ j < d, ¬AllPresent suppliers j) →
          container = containerOn suppliers d) ∧
        ((∀ d, ¬AllPresent suppliers d) → container = []) := by
  intro h
  obtain ⟨container, prefs, heq, hday, -⟩ := h [] (by simp)
  have hempty : findOverlappingDay (partitionSuppliers []) = some ([], fun _ => none) := rfl
  have hone := hday 1 ⟨by omega, fun c hc => absurd rfl hc⟩ fun j hj hall => by
    have := hall.1
    omega
  rw [hempty, hone] at heq
  exact absurd (Prod.mk.inj (Option.some.inj heq)).1 (List.cons_ne_nil _ _).symm

end FirstDay

end Allign

end Baseline
