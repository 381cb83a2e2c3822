import Baseline.Proofs.Overlap
import Baseline.Proofs.Combinations
import Mathlib.Data.List.Nodup

/-!
# The set that is selected

Whatever the order in which the days are filled, a supplier that is there on one of them has its
own preferences under its id (`preferences_of_onDay`), since ids are the keys of an object. The
first combination takes the first of each list (`head_positions`). So the selection is of the first
supplier of each category who is there on the first day that suits all of them, at their prices
(`finalSet_of_day`).
-/

namespace Baseline

namespace Allign

open Jobs Objects Odometer

/-! ## Folds that may fail -/

section Folds

variable {α β : Type} {P : β → Prop} {f : β → α → Option β}

theorem foldlM_keeps : ∀ {xs : List α} {b b' : β},
    (∀ x ∈ xs, ∀ b b', P b → f b x = some b' → P b') → xs.foldlM f b = some b' → P b → P b'
  | [], _, _, _, h, hb => Option.some.inj h ▸ hb
  | x :: xs, b, b', hstep, h, hb => by
    rw [List.foldlM_cons] at h
    obtain ⟨b₁, hfirst, hrest⟩ := Option.bind_eq_some_iff.mp h
    exact foldlM_keeps (fun y hy => hstep y (List.mem_cons_of_mem x hy)) hrest
      (hstep x List.mem_cons_self b b₁ hb hfirst)

/-- What one element brings about and the others keep. -/
theorem foldlM_reaches {x : α} : ∀ {xs : List α} {b b' : β},
    (∀ y ∈ xs, ∀ b b', P b → f b y = some b' → P b') → x ∈ xs →
    (∀ b b', f b x = some b' → P b') → xs.foldlM f b = some b' → P b'
  | y :: xs, b, b', hstep, hx, hreach, h => by
    rw [List.foldlM_cons] at h
    obtain ⟨b₁, hfirst, hrest⟩ := Option.bind_eq_some_iff.mp h
    have hlater : ∀ z ∈ xs, ∀ b b', P b → f b z = some b' → P b' :=
      fun z hz => hstep z (List.mem_cons_of_mem y hz)
    rcases List.mem_cons.mp hx with rfl | hx
    · exact foldlM_keeps hlater hrest (hreach b b₁ hfirst)
    · exact foldlM_reaches hlater hx hreach hrest

end Folds

/-! ## Preferences -/

section Preferences

variable {suppliers : List FileStructure} {sets : OverlapContainer}
  {prefs : SupplierPreferenceData} {s : FileStructure} {k d : ℕ}

def preferenceOf (s : FileStructure) : Preference :=
  ⟨s.content.supplierCost, s.content.supplierReputation, s.type⟩

/-- Under an id there are the preferences of a supplier with this id. -/
def Known (suppliers : List FileStructure) (prefs : SupplierPreferenceData) : Prop :=
  ∀ id p, prefs id = some p →
    ∃ s ∈ suppliers, s.content.supplierId = id ∧ p = preferenceOf s

theorem placeSupplier_prefs {state state' : OverlapContainer × SupplierPreferenceData}
    (h : placeSupplier k state s = some state') :
    state'.2 = if s.content.supplierAvailability[k - 1]?.getD 0 ≠ 0 then
        fun id => if id = s.content.supplierId then some (preferenceOf s) else state.2 id
      else state.2 := by
  unfold placeSupplier at h
  by_cases hplaced : s.content.supplierAvailability[k - 1]?.getD 0 ≠ 0
  · rw [if_pos hplaced] at h ⊢
    obtain ⟨sets, _, hsome⟩ := Option.bind_eq_some_iff.mp h
    obtain rfl := Option.some.inj hsome
    rfl
  · rw [if_neg hplaced] at h ⊢
    rw [Option.some.inj h]

theorem known_placeSupplier (hs : s ∈ suppliers)
    {state state' : OverlapContainer × SupplierPreferenceData}
    (hknown : Known suppliers state.2) (h : placeSupplier k state s = some state') :
    Known suppliers state'.2 := by
  intro id p hp
  rw [placeSupplier_prefs h] at hp
  split_ifs at hp with hplaced
  · simp only at hp
    split_ifs at hp with hid
    · exact ⟨s, hs, hid.symm, (Option.some.inj hp).symm⟩
    · exact hknown id p hp
  · exact hknown id p hp

theorem isSome_placeSupplier {id : Str} {state state' : OverlapContainer × SupplierPreferenceData}
    (hsome : (state.2 id).isSome) (h : placeSupplier k state s = some state') :
    (state'.2 id).isSome := by
  rw [placeSupplier_prefs h]
  split_ifs with hplaced
  · simp only
    split_ifs
    · rfl
    · exact hsome
  · exact hsome

theorem eq_of_id_eq (hids : (suppliers.map fun s => s.content.supplierId).Nodup)
    {s t : FileStructure} (hs : s ∈ suppliers) (ht : t ∈ suppliers)
    (h : s.content.supplierId = t.content.supplierId) : s = t :=
  List.inj_on_of_nodup_map hids hs ht h

theorem placeSuppliers_eq_foldlM (suppliers : List FileStructure) (sets : OverlapContainer) :
    placeSuppliers (partitionSuppliers suppliers) sets
      = (sets.map Prod.fst).foldlM (fun state key =>
          (categories.flatMap (ofCategory suppliers)).foldlM (placeSupplier key) state)
          (sets, fun _ => none) := by
  rw [placeSuppliers, entries_partitionSuppliers]
  congr 1
  funext state key
  exact foldlM_entries _ _ _

theorem mem_flatMap_categories :
    s ∈ categories.flatMap (ofCategory suppliers) ↔ s ∈ suppliers := by
  simp [ofCategory, mem_categories]

/-- A supplier who is there on some day has its own preferences under its id. -/
theorem preferences_of_onDay (hcal : ∀ s ∈ suppliers, IsCalendar s.content.supplierAvailability)
    (hids : (suppliers.map fun s => s.content.supplierId).Nodup)
    (h : placeSuppliers (partitionSuppliers suppliers)
      (listDays (partitionSuppliers suppliers)) = some (sets, prefs))
    (hs : s ∈ suppliers) (hon : OnDay d s) :
    prefs s.content.supplierId = some (preferenceOf s) := by
  rw [placeSuppliers_eq_foldlM] at h
  have hday : d ∈ (listDays (partitionSuppliers suppliers)).map Prod.fst := by
    have hne : presentOn suppliers d ≠ [] := List.ne_nil_of_mem (mem_presentOn.2 ⟨s, hs, rfl, hon⟩)
    rw [mem_keys_iff, get_listDays, if_neg hne]
    simp
  have hknown : Known suppliers prefs := by
    refine foldlM_keeps (P := fun state => Known suppliers state.2) (fun k _ b b' hb hf => ?_) h
      (fun id p hp => by simp at hp)
    exact foldlM_keeps (P := fun state => Known suppliers state.2)
      (fun t ht b b' hb hf => known_placeSupplier (mem_flatMap_categories.1 ht) hb hf) hf hb
  have hkeep : ∀ t ∈ categories.flatMap (ofCategory suppliers), ∀ k,
      ∀ b b' : OverlapContainer × SupplierPreferenceData,
      (b.2 s.content.supplierId).isSome → placeSupplier k b t = some b' →
      (b'.2 s.content.supplierId).isSome :=
    fun t _ k b b' hb hf => isSome_placeSupplier hb hf
  have hsome : (prefs s.content.supplierId).isSome := by
    refine foldlM_reaches (P := fun state => (state.2 s.content.supplierId).isSome)
      (fun k _ b b' hb hf => ?_) hday (fun b b' hf => ?_) h
    · exact foldlM_keeps (P := fun state => (state.2 s.content.supplierId).isSome)
        (fun t ht b b' => hkeep t ht k b b') hf hb
    · refine foldlM_reaches (P := fun state => (state.2 s.content.supplierId).isSome)
        (fun t ht b b' => hkeep t ht d b b') (mem_flatMap_categories.2 hs) (fun b b' hf => ?_) hf
      rw [placeSupplier_prefs hf, if_pos ((placed_iff (hcal s hs) hon.1).2 hon)]
      simp
  obtain ⟨p, hp⟩ := Option.isSome_iff_exists.1 hsome
  obtain ⟨t, ht, hid, rfl⟩ := hknown _ p hp
  rw [hp, eq_of_id_eq hids ht hs hid]

end Preferences

/-! ## The first combination -/

section First

variable {suppliers : List FileStructure} {d : ℕ}

theorem head_positions : ∀ {ns : List ℕ}, (∀ n ∈ ns, 0 < n) →
    (positions ns).head? = some (List.replicate ns.length 0)
  | [], _ => rfl
  | n :: ns, h => by
    rw [List.forall_mem_cons] at h
    obtain ⟨m, rfl⟩ : ∃ m, n = m + 1 := ⟨n - 1, by omega⟩
    rw [positions, List.range_succ_eq_map, List.flatMap_cons, List.head?_append, List.head?_map,
      head_positions h.2]
    rfl

theorem zipWith_zeros {α : Type} : ∀ arrays : List (List α),
    List.zipWith (fun i array => array[i]?) (List.replicate arrays.length 0) arrays
      = arrays.map List.head?
  | [] => rfl
  | array :: arrays => by
    rw [List.length_cons, List.replicate_succ, List.zipWith_cons_cons, zipWith_zeros arrays,
      List.map_cons, List.head?_eq_getElem?]

/-- For each category with suppliers, the first who is there on the day. -/
def chosen (suppliers : List FileStructure) (d : ℕ) : List FileStructure :=
  (represented suppliers).filterMap fun c =>
    suppliers.find? fun s => categoryOf s.type = c ∧ OnDay d s

theorem mem_chosen {s : FileStructure} (h : s ∈ chosen suppliers d) :
    s ∈ suppliers ∧ OnDay d s := by
  obtain ⟨c, -, hc⟩ := List.mem_filterMap.1 h
  have hfound := List.find?_some hc
  simp only [decide_eq_true_eq] at hfound
  exact ⟨List.mem_of_find?_eq_some hc, hfound.2⟩

theorem head_idsOn (suppliers : List FileStructure) (d : ℕ) (c : Category) :
    (idsOn suppliers d c).head?
      = (suppliers.find? fun s => categoryOf s.type = c ∧ OnDay d s).map
          fun s => s.content.supplierId := by
  rw [idsOn, List.head?_map, List.head?_filter]

theorem idsOn_ne_nil (hall : AllPresent suppliers d) {c : Category}
    (hc : c ∈ represented suppliers) : idsOn suppliers d c ≠ [] := by
  rw [← presentOn_eq_of_allPresent hall] at hc
  obtain ⟨s, hs, hcat, hon⟩ := mem_presentOn.1 hc
  exact List.ne_nil_of_mem
    (List.mem_map_of_mem (List.mem_filter.2 ⟨hs, by simpa using ⟨hcat, hon⟩⟩))

/-- The first ids of the lists are those of the chosen. -/
theorem heads_eq : ∀ {cs : List Category}, (∀ c ∈ cs, idsOn suppliers d c ≠ []) →
    (cs.map (idsOn suppliers d)).map List.head?
      = (cs.filterMap fun c => suppliers.find? fun s => categoryOf s.type = c ∧ OnDay d s).map
          fun s => some s.content.supplierId
  | [], _ => rfl
  | c :: cs, h => by
    rw [List.forall_mem_cons] at h
    have hhead := head_idsOn suppliers d c
    rw [List.map_cons, List.map_cons, heads_eq h.2, List.filterMap_cons]
    cases hfind : suppliers.find? (fun s => categoryOf s.type = c ∧ OnDay d s) with
    | none =>
      rw [hfind, Option.map_none, List.head?_eq_none_iff] at hhead
      exact absurd hhead h.1
    | some s =>
      rw [hfind, Option.map_some] at hhead
      rw [hhead]
      rfl

/-- The container of the first day that suits all, and the preferences of whoever is there. -/
theorem findOverlappingDay_of_day
    (hcal : ∀ s ∈ suppliers, IsCalendar s.content.supplierAvailability)
    (hids : (suppliers.map fun s => s.content.supplierId).Nodup) :
    ∃ container prefs,
      findOverlappingDay (partitionSuppliers suppliers) = some (container, prefs) ∧
      (∀ s ∈ suppliers, ∀ d, OnDay d s →
        prefs s.content.supplierId = some (preferenceOf s)) ∧
      (∀ d, suppliers ≠ [] → AllPresent suppliers d → (∀ j < d, ¬AllPresent suppliers j) →
        container = containerOn suppliers d) ∧
      (suppliers = [] ∨ (∀ d, ¬AllPresent suppliers d) → container = []) := by
  obtain ⟨sets, prefs, heq, hasc, hget⟩ := findOverlappingDay_eq hcal
  obtain ⟨⟨sets', prefs'⟩, hplace, hresult⟩ := Option.bind_eq_some_iff.mp heq
  obtain rfl : prefs' = prefs := congrArg Prod.snd (Option.some.inj hresult)
  -- the days that are kept are those on which everybody is there
  have hkept : ∀ {d v}, get d sets = some v → suppliers ≠ [] →
      (v.length = (represented suppliers).length ↔ AllPresent suppliers d) := by
    intro d v hv hne
    rw [hget d] at hv
    split_ifs at hv with hnobody
    rw [← Option.some.inj hv, List.length_map, allPresent_iff hne]
    exact (and_iff_right hnobody).symm
  refine ⟨_, prefs', heq, fun s hs d hon => preferences_of_onDay hcal hids hplace hs hon,
    fun d hne hall hfirst => ?_, fun hnone => ?_⟩
  · have hpresent := ((allPresent_iff hne).1 hall).1
    have hd : get d sets
        = some ((represented suppliers).map fun c => (c, idsOn suppliers d c)) := by
      rw [hget d, if_neg hpresent, presentOn_eq_of_allPresent hall]
    have hhead := hasc.head_filter (p := fun entry =>
      decide (entry.2.length = (represented suppliers).length)) hd (by simp) fun j w hj hw hlen =>
        hfirst j hj ((hkept hw hne).1 (by simpa using hlen))
    rw [List.take_one, hhead]
    rfl
  · refine (List.take_eq_nil_iff).2 (.inr (List.filter_eq_nil_iff.2 fun entry hentry hlen => ?_))
    have hv := hasc.mem_iff.1 hentry
    have hne : suppliers ≠ [] := by
      rintro rfl
      rw [hget] at hv
      simp [presentOn, ofCategory] at hv
    exact (hnone.resolve_left hne) entry.1 ((hkept hv hne).1 (by simpa using hlen))

end First

/-! ## The price of a set -/

section Prices

variable {prefs : SupplierPreferenceData} (mjReqs : ReqContent)

theorem foldl_addSupplier : ∀ (ss : List FileStructure) (price rep : ℤ),
    (∀ s ∈ ss, prefs s.content.supplierId = some (preferenceOf s)) →
    (ss.map fun s => some s.content.supplierId).foldl (addSupplier prefs mjReqs) (price, some rep)
      = (price + (ss.map fun s => priceOf mjReqs (preferenceOf s)).sum,
          some (rep + (ss.map fun s => s.content.supplierReputation).sum))
  | [], price, rep, _ => by simp
  | s :: ss, price, rep, h => by
    rw [List.forall_mem_cons] at h
    have hfirst : addSupplier prefs mjReqs (price, some rep) (some s.content.supplierId)
        = (price + priceOf mjReqs (preferenceOf s),
            some (rep + s.content.supplierReputation)) := by
      simp only [addSupplier, Option.getD_some, h.1]
      rfl
    rw [List.map_cons, List.foldl_cons, hfirst, foldl_addSupplier ss _ _ h.2]
    simp only [List.map_cons, List.sum_cons, add_assoc]

end Prices

/-! ## The selection -/

section FinalSet

variable {Number : Type} (divide : Option ℤ → ℕ → Number)

/-- The chosen suppliers, what they cost together and what they are rated. -/
def selectionOf (reqs : ReqContent) (ss : List FileStructure) : Selection Number where
  supplierSet := ss.map fun s => some s.content.supplierId
  totalPrice := (ss.map fun s => priceOf reqs (preferenceOf s)).sum
  averageRating := divide (some (ss.map fun s => s.content.supplierReputation).sum) ss.length

theorem formatSet_eq {prefs : SupplierPreferenceData} (reqs : ReqContent)
    {ss : List FileStructure} (h : ∀ s ∈ ss, prefs s.content.supplierId = some (preferenceOf s)) :
    formatSet divide prefs reqs (ss.map fun s => some s.content.supplierId)
      = selectionOf divide reqs ss := by
  rw [formatSet, foldl_addSupplier reqs ss 0 0 h]
  simp [selectionOf]

/-- The sets of a day start with the one of the chosen. -/
theorem createUniqueSets_of_day {suppliers : List FileStructure} {d : ℕ} (hne : suppliers ≠ [])
    (hall : AllPresent suppliers d) :
    ∃ bound, ∀ turns, bound ≤ turns →
      ∃ sets, createUniqueSets turns (containerOn suppliers d) = some sets ∧
        sets[0]? = some ((chosen suppliers d).map fun s => some s.content.supplierId) := by
  have hlists : ∀ array ∈ (represented suppliers).map (idsOn suppliers d), array ≠ [] := by
    intro array harray
    obtain ⟨c, hc, rfl⟩ := List.mem_map.1 harray
    exact idsOn_ne_nil hall hc
  have hpos : ∀ n ∈ ((represented suppliers).map (idsOn suppliers d)).map List.length, 0 < n := by
    intro n hn
    obtain ⟨array, harray, rfl⟩ := List.mem_map.1 hn
    exact List.length_pos_of_ne_nil (hlists array harray)
  let lengths := ((represented suppliers).map (idsOn suppliers d)).map List.length
  refine ⟨(positions lengths).length, fun turns hturns => ?_⟩
  have hcombine := combineArrays_eq (by simpa using represented_ne_nil hne) hlists hturns
  have hcreate : createUniqueSets turns (containerOn suppliers d)
      = combineArrays turns ((represented suppliers).map (idsOn suppliers d)) := by
    rw [containerOn, createUniqueSets, List.map_map]
    rfl
  refine ⟨_, hcreate.trans hcombine, ?_⟩
  rw [List.getElem?_map, ← List.head?_eq_getElem?, head_positions hpos, Option.map_some,
    List.length_map, zipWith_zeros, heads_eq fun c => idsOn_ne_nil hall]
  rfl

theorem finalSet_eq {turns : ℕ} {availableSuppliers : List (Str × FileStructure)}
    {container : OverlapContainer} {prefs : SupplierPreferenceData}
    {sets : List (List (Option Str))} (reqs : ReqContent)
    (hoverlap : findOverlappingDay (partitionSuppliers (condensedSuppliers availableSuppliers))
      = some (container, prefs))
    (hsets : createUniqueSets turns container = some sets) :
    finalSet divide turns availableSuppliers reqs
      = some (sets[0]?.map (formatSet divide prefs reqs)) := by
  rw [finalSet, hoverlap]
  simp only [Option.bind_eq_bind, Option.bind_some, hsets, formatUniqueSets, List.getElem?_map,
    Option.pure_def]

/-- The final selection: nothing if no day suits, and otherwise, on the first day that does, the
first supplier of each category with suppliers who is there. -/
theorem finalSet_of_day (availableSuppliers : List (Str × FileStructure)) (reqs : ReqContent)
    (hkeys : (availableSuppliers.map Prod.fst).Nodup)
    (hcal : ∀ entry ∈ availableSuppliers, IsCalendar entry.2.content.supplierAvailability) :
    let suppliers := condensedSuppliers availableSuppliers
    ∃ bound, ∀ turns, bound ≤ turns →
      ∃ selection, finalSet divide turns availableSuppliers reqs = some selection ∧
        (availableSuppliers = [] ∨ (∀ d, ¬AllPresent suppliers d) → selection = none) ∧
        ∀ d, availableSuppliers ≠ [] → AllPresent suppliers d → (∀ j < d, ¬AllPresent suppliers j) →
          selection = some (selectionOf divide reqs (chosen suppliers d)) := by
  intro suppliers
  have hempty : suppliers = [] ↔ availableSuppliers = [] := List.map_eq_nil_iff
  have hids : (suppliers.map fun s => s.content.supplierId).Nodup := by
    simpa [suppliers, condensedSuppliers, Function.comp_def] using hkeys
  have hcal' : ∀ s ∈ suppliers, IsCalendar s.content.supplierAvailability := by
    intro s hs
    obtain ⟨entry, hentry, rfl⟩ := List.mem_map.1 hs
    exact hcal entry hentry
  obtain ⟨container, prefs, heq, hprefs, hday, hnone⟩ := findOverlappingDay_of_day hcal' hids
  by_cases hsuits : availableSuppliers = [] ∨ ∀ d, ¬AllPresent suppliers d
  · obtain rfl := hnone (hsuits.imp_left hempty.2)
    refine ⟨0, fun turns _ => ⟨none, ?_, fun _ => rfl, fun d hne hall _ => ?_⟩⟩
    · exact finalSet_eq divide reqs heq rfl
    · exact absurd hsuits (not_or.2 ⟨hne, fun h => h d hall⟩)
  · obtain ⟨hne, hex⟩ := not_or.1 hsuits
    have hex : ∃ d, AllPresent suppliers d := not_forall_not.1 hex
    classical
    have hall := Nat.find_spec hex
    have hfirst : ∀ j < Nat.find hex, ¬AllPresent suppliers j := fun j hj => Nat.find_min hex hj
    obtain rfl := hday _ (mt hempty.1 hne) hall hfirst
    obtain ⟨bound, hsets⟩ := createUniqueSets_of_day (mt hempty.1 hne) hall
    refine ⟨bound, fun turns hturns => ?_⟩
    obtain ⟨sets, hcreate, hhead⟩ := hsets turns hturns
    refine ⟨some (selectionOf divide reqs (chosen suppliers (Nat.find hex))), ?_,
      fun h => absurd h hsuits, fun d _ hd hmin => ?_⟩
    · rw [finalSet_eq divide reqs heq hcreate, hhead, Option.map_some,
        formatSet_eq divide reqs fun s hs => hprefs s (mem_chosen hs).1 _ (mem_chosen hs).2]
    · obtain rfl : d = Nat.find hex := by
        rcases Nat.lt_trichotomy d (Nat.find hex) with hlt | heq | hgt
        · exact absurd hd (hfirst d hlt)
        · exact heq
        · exact absurd hall (hmin _ hgt)
      rfl

/-- Two technicians, who are there on the second day. -/
theorem finalSet_of_day_two :
    let technician (cost : ℤ) : FileStructure := ⟨.TECHNICIAN, ⟨[], cost, 4, [0, 2, 0]⟩⟩
    let availableSuppliers := [("0x1".toList, technician 30), ("0x2".toList, technician 20)]
    let divide : Option ℤ → ℕ → Option ℤ × ℕ := fun reputation n => (reputation, n)
    let suppliers := condensedSuppliers availableSuppliers
    ∃ bound, ∀ turns, bound ≤ turns →
      ∃ selection, finalSet divide turns availableSuppliers ⟨2, 3⟩ = some selection ∧
        (availableSuppliers = [] ∨ (∀ d, ¬AllPresent suppliers d) → selection = none) ∧
        ∀ d, availableSuppliers ≠ [] → AllPresent suppliers d → (∀ j < d, ¬AllPresent suppliers j) →
          selection = some (selectionOf divide ⟨2, 3⟩ (chosen suppliers d)) := by
  intro technician availableSuppliers divide suppliers
  have hday : IsCalendar [0, 2, 0] := by
    intro i day hday
    rcases i with _ | _ | _ | i <;> simp at hday <;> omega
  refine finalSet_of_day divide availableSuppliers ⟨2, 3⟩ (by decide) fun entry hentry => ?_
  rcases List.mem_pair.1 hentry with rfl | rfl
  · exact hday
  · exact hday

end FinalSet

end Allign

end Baseline
