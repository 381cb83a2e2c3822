import Baseline.Jobs
import Mathlib.Data.List.Induction
import Mathlib.Data.List.Nodup
import Mathlib.Tactic.Basic

/-!
# Which days are suitable, and which jobs can be started

`loop2` adds the number of free days from a day on, up to the task's length (`loop2_eq`), so the
count of a day is the length only if all those days are free (`suitabilityFinder_suitable`).

`jobCanBeStarted` asks that the suppliers' types be among the required ones, not that the required
ones be among the suppliers' (`jobCanBeStarted_eq`); the two answers differ where one of the sets
is a proper part of the other, and for the code the `switch` does not list it throws
(`jobCanBeStarted_iff`).
-/

namespace Baseline

namespace Jobs

/-! ## Suitable days -/

section SuitabilityFinder

variable (suppInfo : List ℤ) (timeWindow : ℤ × ℤ) (taskLength : ℕ)

/-- How many of the next days are free, without a day that is not. -/
def freeDays : ℕ → ℕ → ℕ
  | 0, _ => 0
  | turns + 1, ci => if suppInfo[ci]? = some 0 then 0 else freeDays turns (ci + 1) + 1

/-- The task ends before the calendar and before the window. -/
def Fits (index : ℕ) : Prop :=
  index + taskLength < suppInfo.length ∧ (index + taskLength : ℤ) < timeWindow.2

instance (index : ℕ) : Decidable (Fits suppInfo timeWindow taskLength index) :=
  inferInstanceAs (Decidable (_ ∧ _))

/-- What the turn of `loop1` for a day adds to it. -/
def dayCount (index : ℕ) : ℕ :=
  if (index : ℤ) ≥ timeWindow.1 - 1 ∧ suppInfo[index]? ≠ some 0 ∧
      Fits suppInfo timeWindow taskLength index then
    freeDays suppInfo taskLength index
  else 0

variable {suppInfo timeWindow taskLength}

theorem modify_add_zero (l : List ℕ) (i : ℕ) : l.modify i (· + 0) = l :=
  List.modify_id i l

theorem loop2_of_fits {index : ℕ} (h : Fits suppInfo timeWindow taskLength index) :
    ∀ turns ci keys, loop2 suppInfo timeWindow taskLength index turns ci keys
      = keys.modify index (· + freeDays suppInfo turns ci)
  | 0, ci, keys => by rw [loop2, freeDays, modify_add_zero]
  | turns + 1, ci, keys => by
    have hguard : ¬(index + taskLength ≥ suppInfo.length ∨
        (index + taskLength : ℤ) ≥ timeWindow.2) := by
      have := h.1
      have := h.2
      omega
    rw [loop2, if_neg hguard, freeDays]
    split_ifs with hday
    · rw [modify_add_zero]
    · rw [loop2_of_fits h, List.modify_modify_eq]
      congr 1
      funext n
      simp only [Function.comp_apply]
      omega

theorem loop2_of_not_fits {index : ℕ} (h : ¬Fits suppInfo timeWindow taskLength index) :
    ∀ turns ci keys, loop2 suppInfo timeWindow taskLength index turns ci keys = keys
  | 0, _, _ => rfl
  | turns + 1, ci, keys => by
    rw [loop2, if_pos]
    unfold Fits at h
    omega

/-- A turn of `loop1`. -/
theorem loop1_turn {index : ℕ} {day : ℤ} (hday : suppInfo[index]? = some day) (keys : List ℕ) :
    (if (index : ℤ) ≥ timeWindow.1 - 1 ∧ day ≠ 0 then
        loop2 suppInfo timeWindow taskLength index taskLength index keys else keys)
      = keys.modify index (· + dayCount suppInfo timeWindow taskLength index) := by
  unfold dayCount
  rw [hday]
  simp only [ne_eq, Option.some.injEq]
  by_cases h : (index : ℤ) ≥ timeWindow.1 - 1 ∧ ¬day = 0
  · by_cases hfits : Fits suppInfo timeWindow taskLength index
    · rw [if_pos h, if_pos ⟨h.1, h.2, hfits⟩, loop2_of_fits hfits]
    · rw [if_pos h, if_neg fun hand => hfits hand.2.2, loop2_of_not_fits hfits, modify_add_zero]
  · rw [if_neg h, if_neg fun hand => h ⟨hand.1, hand.2.1⟩, modify_add_zero]

theorem loop1_getElem? : ∀ {index days keys}, suppInfo.drop index = days → ∀ i,
    (loop1 suppInfo timeWindow taskLength index days keys)[i]?
      = if index ≤ i ∧ i < suppInfo.length then
          keys[i]?.map (· + dayCount suppInfo timeWindow taskLength i)
        else keys[i]?
  | index, [], keys, hdrop, i => by
    have := List.drop_eq_nil_iff.1 hdrop
    rw [loop1, if_neg (by omega)]
  | index, day :: days, keys, hdrop, i => by
    have hday : suppInfo[index]? = some day := by
      rw [← List.head?_drop, hdrop, List.head?_cons]
    have hrest : suppInfo.drop (index + 1) = days := by
      rw [← List.tail_drop, hdrop, List.tail_cons]
    have hlt : index < suppInfo.length := (List.getElem?_eq_some_iff.1 hday).1
    rw [loop1, loop1_turn hday, loop1_getElem? hrest, List.getElem?_modify]
    by_cases hi : index = i
    · subst hi
      rw [if_neg (by omega), if_pos ⟨Nat.le_refl _, hlt⟩]
      simp
    · have hkeep : (fun a => if index = i then a + dayCount suppInfo timeWindow taskLength index
          else a) <$> keys[i]? = keys[i]? := by
        simp [hi]
      rw [hkeep]
      exact if_congr (by omega) rfl rfl

theorem freeDays_eq_iff : ∀ {turns ci}, freeDays suppInfo turns ci = turns ↔
    ∀ j < turns, suppInfo[ci + j]? ≠ some 0
  | 0, ci => by simp [freeDays]
  | turns + 1, ci => by
    rw [freeDays]
    by_cases hday : suppInfo[ci]? = some 0
    · rw [if_pos hday]
      exact ⟨fun h => absurd h (by omega), fun h => absurd hday (h 0 (by omega))⟩
    · rw [if_neg hday, Nat.succ_inj, freeDays_eq_iff]
      constructor
      · intro h j hj
        cases j with
        | zero => exact hday
        | succ j =>
          have := h j (by omega)
          rwa [Nat.add_right_comm] at this
      · intro h j hj
        have := h (j + 1) (by omega)
        rwa [← Nat.add_assoc, Nat.add_right_comm] at this

/-- A task of so many days can start on day `d`, and ends before the window does. -/
structure Suitable (suppInfo : List ℤ) (s e : ℤ) (taskLength d : ℕ) : Prop where
  from_start : s ≤ d
  until_end : d ≤ e - taskLength
  free : ∀ j < taskLength, ∃ day, suppInfo[d - 1 + j]? = some day ∧ day ≠ 0

theorem dayCount_eq_iff {s e : ℤ} (hlen : suppInfo.length = 30) (he : e ≤ 30)
    (hpos : 1 ≤ taskLength) {i : ℕ} :
    dayCount suppInfo (s, e) taskLength i = taskLength
      ↔ Suitable suppInfo s e taskLength (i + 1) := by
  unfold dayCount
  constructor
  · intro h
    split_ifs at h with hday
    · obtain ⟨hs, -, hfit, hend⟩ := hday
      refine ⟨by push_cast; omega, by push_cast; omega, fun j hj => ?_⟩
      have hne := freeDays_eq_iff.1 h j hj
      have hlt : i + j < suppInfo.length := by omega
      refine ⟨suppInfo[i + j], by rw [Nat.add_sub_cancel, List.getElem?_eq_getElem hlt], ?_⟩
      rwa [List.getElem?_eq_getElem hlt, ne_eq, Option.some.injEq] at hne
    · omega
  · rintro ⟨hs, hend, hfree⟩
    push_cast at hs hend
    have hne : ∀ j < taskLength, suppInfo[i + j]? ≠ some 0 := by
      intro j hj
      obtain ⟨day, hday, hday0⟩ := hfree j hj
      rw [Nat.add_sub_cancel] at hday
      rw [hday]
      exact fun h => hday0 (Option.some.inj h)
    rw [if_pos ⟨by omega, hne 0 hpos, by omega, by omega⟩]
    exact freeDays_eq_iff.2 hne

theorem length_foldl_set : ∀ (is : List ℕ) (l : List ℕ),
    (is.foldl (fun l a => l.set a (a + 1)) l).length = l.length
  | [], _ => rfl
  | a :: is, l => by rw [List.foldl_cons, length_foldl_set is, List.length_set]

theorem foldl_set_getElem? : ∀ (is : List ℕ) {l : List ℕ} {i : ℕ}, i < l.length →
    (is.foldl (fun l a => l.set a (a + 1)) l)[i]? = if i ∈ is then some (i + 1) else l[i]?
  | [], _, _, _ => by simp
  | a :: is, l, i, hi => by
    rw [List.foldl_cons, foldl_set_getElem? is (by rwa [List.length_set]), List.getElem?_set]
    by_cases hmem : i ∈ is
    · rw [if_pos hmem, if_pos (List.mem_cons_of_mem a hmem)]
    · by_cases ha : a = i
      · subst ha
        rw [if_neg hmem, if_pos rfl, if_pos hi, if_pos (List.mem_cons_self ..)]
      · have hnot : i ∉ a :: is := by
          rw [List.mem_cons, not_or]
          exact ⟨fun h => ha h.symm, hmem⟩
        rw [if_neg hmem, if_neg ha, if_neg hnot]

theorem length_loop1 : ∀ (days : List ℤ) (index : ℕ) (keys : List ℕ),
    (loop1 suppInfo timeWindow taskLength index days keys).length = keys.length
  | [], _, _ => rfl
  | day :: days, index, keys => by
    rw [loop1, length_loop1 days]
    split_ifs with hday
    · by_cases hfits : Fits suppInfo timeWindow taskLength index
      · rw [loop2_of_fits hfits, List.length_modify]
      · rw [loop2_of_not_fits hfits]
    · rfl

/-- The days on which a task can start, and zeros for the others. -/
theorem suitabilityFinder_suitable {s e : ℤ} (hlen : suppInfo.length = 30) (he : e ≤ 30)
    (hpos : 1 ≤ taskLength) :
    (suitabilityFinder (some suppInfo) (s, e) taskLength).length = 30 ∧
      ∀ i < 30,
        (Suitable suppInfo s e taskLength (i + 1) →
          (suitabilityFinder (some suppInfo) (s, e) taskLength)[i]? = some (i + 1)) ∧
        (¬Suitable suppInfo s e taskLength (i + 1) →
          (suitabilityFinder (some suppInfo) (s, e) taskLength)[i]? = some 0) := by
  simp only [suitabilityFinder]
  refine ⟨by rw [length_foldl_set, List.length_replicate], fun i hi => ?_⟩
  have hkeys : (loop1 suppInfo (s, e) taskLength 0 suppInfo (List.replicate 30 0))[i]?
      = some (dayCount suppInfo (s, e) taskLength i) := by
    rw [loop1_getElem? List.drop_zero, if_pos ⟨Nat.zero_le i, by omega⟩,
      List.getElem?_replicate_of_lt hi, Option.map_some, Nat.zero_add]
  have hmem : i ∈ (List.range (loop1 suppInfo (s, e) taskLength 0 suppInfo
        (List.replicate 30 0)).length).filter (fun i =>
          (loop1 suppInfo (s, e) taskLength 0 suppInfo (List.replicate 30 0))[i]?
            = some taskLength)
      ↔ Suitable suppInfo s e taskLength (i + 1) := by
    rw [List.mem_filter, List.mem_range, length_loop1, List.length_replicate, hkeys,
      decide_eq_true_eq, Option.some.injEq, dayCount_eq_iff hlen he hpos]
    exact and_iff_right hi
  rw [foldl_set_getElem? _ (by rwa [List.length_replicate])]
  refine ⟨fun h => if_pos (hmem.2 h), fun h => ?_⟩
  rw [if_neg (mt hmem.1 h), List.getElem?_replicate_of_lt hi]

theorem suitabilityFinder_suitable_free :
    (suitabilityFinder (some (List.replicate 30 7)) (1, 30) 2).length = 30 ∧
      ∀ i < 30,
        (Suitable (List.replicate 30 7) 1 30 2 (i + 1) →
          (suitabilityFinder (some (List.replicate 30 7)) (1, 30) 2)[i]? = some (i + 1)) ∧
        (¬Suitable (List.replicate 30 7) 1 30 2 (i + 1) →
          (suitabilityFinder (some (List.replicate 30 7)) (1, 30) 2)[i]? = some 0) :=
  suitabilityFinder_suitable (by decide) (by decide) (by decide)

end SuitabilityFinder

/-! ## The types of a job -/

theorem reqExpander_concat (jobs : List Job) (last : Job) (taskId : ℤ) :
    reqExpander (jobs ++ [last]) taskId
      = if taskId = last.id then (reqSuppsOf last.mJCode).or (reqExpander jobs taskId)
        else reqExpander jobs taskId := by
  rw [reqExpander, List.foldl_append, ← reqExpander, List.foldl_cons, List.foldl_nil]
  cases reqSuppsOf last.mJCode with
  | some types => rfl
  | none => exact (ite_self _).symm

theorem reqExpander_of_ne {jobs : List Job} {taskId : ℤ}
    (hne : ∀ job ∈ jobs, job.id ≠ taskId) : reqExpander jobs taskId = none := by
  induction jobs using List.reverseRecOn with
  | nil => rfl
  | append_singleton jobs last ih =>
    rw [reqExpander_concat, if_neg (hne last List.mem_concat_self).symm]
    exact ih fun job hjob => hne job (List.mem_append_left _ hjob)

/-- A job whose id no other has is given the types of its code. -/
theorem reqExpander_of_nodup {jobs : List Job} (hids : (jobs.map Job.id).Nodup) :
    ∀ job ∈ jobs, reqExpander jobs job.id = reqSuppsOf job.mJCode := by
  induction jobs using List.reverseRecOn with
  | nil => exact fun job hjob => absurd hjob List.not_mem_nil
  | append_singleton jobs last ih =>
    rw [List.map_append, List.map_singleton, List.nodup_append] at hids
    obtain ⟨hids, -, hlast⟩ := hids
    have hne : ∀ job ∈ jobs, job.id ≠ last.id := fun job hjob =>
      hlast job.id (List.mem_map_of_mem hjob) last.id (List.mem_singleton_self _)
    intro job hjob
    rw [reqExpander_concat]
    rcases List.mem_append.1 hjob with hjob | hjob
    · rw [if_neg (hne job hjob)]
      exact ih hids job hjob
    · obtain rfl := List.mem_singleton.1 hjob
      rw [if_pos rfl, reqExpander_of_ne hne, Option.or_none]

theorem reqExpander_singleton (job : Job) : reqExpander [job] job.id = reqSuppsOf job.mJCode :=
  @reqExpander_of_nodup [job] (List.nodup_singleton job.id) job (List.mem_singleton_self job)

/-! ## Starting a job -/

section JobCanBeStarted

variable {job : Job} {suppliers : List (Str × FileStructure)}

/-- The types a job of a code of the catalogue needs. -/
def required (code : Str) : List SupplierType :=
  if code = ['1', '1'] ∨ code = ['2', '2'] then [.TECHNICIAN]
  else if code = ['3', '3'] then [.SPARE, .TECHNICIAN]
  else if code = ['4', '4'] then [.SPARE, .PORT, .TECHNICIAN]
  else []

/-- The types of the suppliers that responded. -/
def offered (suppliers : List (Str × FileStructure)) : List SupplierType :=
  suppliers.map fun entry => entry.2.type

def Catalogued (code : Str) : Prop := ∃ n ∈ MJcodes, code = Conversions.numeral 10 n

theorem catalogued_cases {code : Str} (h : Catalogued code) :
    code = ['1', '1'] ∨ code = ['2', '2'] ∨ code = ['3', '3'] ∨ code = ['4', '4'] := by
  obtain ⟨n, hn, rfl⟩ := h
  simp only [MJcodes, List.mem_cons, List.not_mem_nil, or_false] at hn
  rcases hn with rfl | rfl | rfl | rfl <;> decide

theorem jobCanBeStarted_22 (hcode : job.mJCode = ['2', '2']) (hne : suppliers ≠ []) :
    jobCanBeStarted job suppliers = none := by
  have hlen : suppliers.length ≠ 0 := by simpa using hne
  rw [jobCanBeStarted, if_neg hlen, reqExpander_singleton, hcode]
  rfl

/-- The suppliers' types have to be among the required ones. -/
theorem jobCanBeStarted_eq (hcode : Catalogued job.mJCode) (h22 : job.mJCode ≠ ['2', '2'])
    (hne : suppliers ≠ []) :
    jobCanBeStarted job suppliers
      = some ((offered suppliers).all fun type => type ∈ required job.mJCode) := by
  have hlen : suppliers.length ≠ 0 := by simpa using hne
  rw [jobCanBeStarted, if_neg hlen, offered, List.all_map, reqExpander_singleton]
  rcases catalogued_cases hcode with h | h | h | h
  · rw [h]
    rfl
  · exact absurd h h22
  · rw [h]
    rfl
  · rw [h]
    rfl

/-- The answer is right if the code is not 22 and neither the types offered nor the types required
are a proper part of the other. -/
theorem jobCanBeStarted_iff (hcode : Catalogued job.mJCode) (hne : suppliers ≠ []) :
    (∃ answer, jobCanBeStarted job suppliers = some answer ∧
        (answer = true ↔ required job.mJCode ⊆ offered suppliers)) ↔
      job.mJCode ≠ ['2', '2'] ∧
        ¬(offered suppliers ⊆ required job.mJCode ∧ ¬required job.mJCode ⊆ offered suppliers) ∧
        ¬(required job.mJCode ⊆ offered suppliers ∧ ¬offered suppliers ⊆ required job.mJCode) := by
  by_cases h22 : job.mJCode = ['2', '2']
  · rw [jobCanBeStarted_22 h22 hne]
    simp [h22]
  · have hanswer : ((offered suppliers).all fun type => type ∈ required job.mJCode) = true ↔
        offered suppliers ⊆ required job.mJCode := by
      rw [List.all_eq_true]
      simp only [decide_eq_true_eq]
      rfl
    rw [jobCanBeStarted_eq hcode h22 hne]
    constructor
    · rintro ⟨answer, heq, hiff⟩
      rw [← Option.some.inj heq, hanswer] at hiff
      exact ⟨h22, fun h => h.2 (hiff.1 h.1), fun h => h.2 (hiff.2 h.1)⟩
    · rintro ⟨-, hless, hmore⟩
      refine ⟨_, rfl, hanswer.trans ⟨fun h => ?_, fun h => ?_⟩⟩
      · exact Decidable.byContradiction fun hnot => hless ⟨h, hnot⟩
      · exact Decidable.byContradiction fun hnot => hmore ⟨h, hnot⟩

/-- A supplier of a type, of which nothing else is read. -/
def ofType (type : SupplierType) : FileStructure :=
  ⟨type, ⟨[], 0, 0, []⟩⟩

theorem jobCanBeStarted_iff_technician :
    (∃ answer, jobCanBeStarted ⟨1, ['1', '1']⟩ [(['a'], ofType .TECHNICIAN)] = some answer ∧
        (answer = true ↔
          required ['1', '1'] ⊆ offered [(['a'], ofType .TECHNICIAN)])) ↔
      ['1', '1'] ≠ ['2', '2'] ∧
        ¬(offered [(['a'], ofType .TECHNICIAN)] ⊆ required ['1', '1'] ∧
          ¬required ['1', '1'] ⊆ offered [(['a'], ofType .TECHNICIAN)]) ∧
        ¬(required ['1', '1'] ⊆ offered [(['a'], ofType .TECHNICIAN)] ∧
          ¬offered [(['a'], ofType .TECHNICIAN)] ⊆ required ['1', '1']) :=
  @jobCanBeStarted_iff ⟨1, ['1', '1']⟩ _ ⟨11, by decide, by decide⟩ (by simp)

/-- A job that needs spares is started with a technician alone. -/
theorem jobCanBeStarted_without_spare :
    ¬∀ (job : Job) (suppliers : List (Str × FileStructure)), Catalogued job.mJCode →
      suppliers ≠ [] → ∃ answer, jobCanBeStarted job suppliers = some answer ∧
        (answer = true ↔ required job.mJCode ⊆ offered suppliers) := by
  intro h
  have hstarted : jobCanBeStarted ⟨1, ['3', '3']⟩ [(['a'], ofType .TECHNICIAN)] = some true := by
    decide
  obtain ⟨answer, heq, hiff⟩ := h ⟨1, ['3', '3']⟩ [(['a'], ofType .TECHNICIAN)]
    ⟨33, by decide, by decide⟩ (by simp)
  have hsub := hiff.1 (Option.some.inj (heq.symm.trans hstarted))
  exact absurd (hsub (List.mem_cons_self ..)) (by decide)

end JobCanBeStarted

end Jobs

end Baseline
