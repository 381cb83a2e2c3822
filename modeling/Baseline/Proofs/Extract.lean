import Baseline.Extract
import Baseline.Proofs.Avail

/-!
# What the schedule has in it

A schedule that is written as the repository's is gives back, for each priority, the rows that have
it, as jobs (`retrieveJobs_of_written`). A priority is looked for in the whole line, and found where
its quotes are: a line of a well-formed row has no others (`isMatch_text`). The supplier types that
are then listed for a job agree with its requirements, except that code 22 has none
(`reqExpander_of_written`).
-/

namespace Baseline

namespace Extract

open Avail Conversions Jobs Mimc

/-- The catalogue with its requirements has the codes that are listed of it. -/
theorem isSome_MJcodes (code : ℕ) : (MJcodes code).isSome ↔ code ∈ Jobs.MJcodes := by
  have hlisted : code ∈ Jobs.MJcodes ↔ code = 11 ∨ code = 22 ∨ code = 33 ∨ code = 44 := by
    simp [Jobs.MJcodes]
  rw [hlisted, MJcodes]
  split_ifs with h1 h2 h3
  · exact iff_of_true rfl (by omega)
  · exact iff_of_true rfl (by omega)
  · exact iff_of_true rfl (by omega)
  · exact iff_of_false Bool.false_ne_true (by omega)

/-! ## What a row says -/

structure ScheduleRow where
  id : ℤ
  priority : Priority
  wtId : Str
  mJCode : ℤ
  tw : ℤ × ℤ
  deriving DecidableEq

/-- The numbers are safe ones, and the turbine's name can stand between commas in a line. -/
structure ScheduleRow.WellFormed (row : ScheduleRow) : Prop where
  safe : ∀ n ∈ [row.id, row.mJCode, row.tw.1, row.tw.2], n.natAbs < 2 ^ 53
  name : ',' ∉ row.wtId ∧ '\n' ∉ row.wtId ∧ '"' ∉ row.wtId

namespace ScheduleRow

variable (row : ScheduleRow)

/-- The fields, with the one for the priority as it is given. -/
def fields (priority : Str) : List Str :=
  [toStringBase 10 row.id, priority, row.wtId, toStringBase 10 row.mJCode,
    toStringBase 10 row.tw.1, toStringBase 10 row.tw.2]

def text : Str := [','].intercalate (row.fields ('"' :: (prio row.priority ++ ['"'])))

/-- The job that a row is, but that a zero is no id and no day. -/
def job : Job where
  id := if row.id = 0 then -1 else row.id
  wtId := some row.wtId
  mJCode := toStringBase 10 row.mJCode
  tw := (if row.tw.1 = 0 then -1 else row.tw.1, if row.tw.2 = 0 then -1 else row.tw.2)
  reqs := MJcodes row.mJCode

end ScheduleRow

/-- The supplier types that the requirements in the catalogue come to. -/
def typesOf (reqs : ReqContent) : List SupplierType :=
  (if reqs.spare = "none".toList then [] else [.SPARE]) ++
    (if reqs.port = "no".toList then [] else [.PORT]) ++
      List.replicate reqs.tech.toNat .TECHNICIAN

def scheduleText (rows : List ScheduleRow) : Str :=
  ['\n'].intercalate (rows.map ScheduleRow.text)

/-- The rows of a priority in the schedules that are there. -/
def rowsOf (schedules : Str → Option (List ScheduleRow)) (scheduleList : List Str)
    (priority : Priority) : List ScheduleRow :=
  scheduleList.flatMap fun file =>
    ((schedules file).getD []).filter fun row => row.priority = priority

/-! ## The fields of a row -/

theorem notMem_prio {c : Char} (hc : c = ',' ∨ c = '\n' ∨ c = '"') (priority : Priority) :
    c ∉ prio priority := by
  rcases hc with rfl | rfl | rfl <;> cases priority <;> decide

/-- None of the three that a row is written with occurs in a number. -/
theorem notMem_number {c : Char} (hc : c = ',' ∨ c = '\n' ∨ c = '"') (n : ℤ) :
    c ∉ toStringBase 10 n := by
  rcases hc with rfl | rfl | rfl <;> exact notMem_toStringBase (by decide) (by decide) n

theorem notMem_fields {row : ScheduleRow} {c : Char} (hc : c = ',' ∨ c = '\n' ∨ c = '"')
    {priority : Str} (hpriority : c ∉ priority) (hname : c ∉ row.wtId) :
    ∀ text ∈ row.fields priority, c ∉ text := by
  simp only [ScheduleRow.fields, List.forall_mem_cons, List.not_mem_nil, false_implies,
    implies_true, and_true]
  exact ⟨notMem_number hc _, hpriority, hname, notMem_number hc _, notMem_number hc _,
    notMem_number hc _⟩

theorem filter_intercalate {c sep : Char} (hsep : sep ≠ c) : ∀ texts : List Str,
    ([sep].intercalate texts).filter (fun d => d ≠ c)
      = [sep].intercalate (texts.map fun text => text.filter fun d => d ≠ c)
  | [] => rfl
  | [text] => by simp only [List.intercalate_singleton, List.map_cons, List.map_nil]
  | text :: text' :: texts => by
    rw [List.intercalate_cons_cons, List.map_cons, List.map_cons, List.intercalate_cons_cons,
      List.filter_append, List.filter_append, filter_intercalate hsep (text' :: texts),
      List.map_cons, List.filter_cons_of_pos (by simpa using hsep), List.filter_nil]

theorem filter_of_notMem {c : Char} {text : Str} (h : c ∉ text) :
    text.filter (fun d => d ≠ c) = text := by
  refine List.filter_eq_self.2 fun d hd => decide_eq_true ?_
  rintro rfl
  exact h hd

section Fields

variable {row : ScheduleRow} (hrow : row.WellFormed)

include hrow

/-- Without its quotes a line is the fields with the bare priority. -/
theorem filter_text :
    row.text.filter (fun c => c ≠ '"') = [','].intercalate (row.fields (prio row.priority)) := by
  have hnumber : ∀ n, (toStringBase 10 n).filter (fun c => c ≠ '"') = toStringBase 10 n :=
    fun n => filter_of_notMem (notMem_number (.inr (.inr rfl)) n)
  have hpriority : ('"' :: (prio row.priority ++ ['"'])).filter (fun c => c ≠ '"')
      = prio row.priority := by
    cases row.priority <;> rfl
  rw [ScheduleRow.text, filter_intercalate (by decide)]
  simp only [ScheduleRow.fields, List.map_cons, List.map_nil, hnumber, hpriority,
    filter_of_notMem hrow.name.2.2]

theorem splitOn_filter_text :
    (row.text.filter fun c => c ≠ '"').splitOn ',' = row.fields (prio row.priority) := by
  rw [filter_text hrow]
  exact List.splitOn_intercalate ','
    (notMem_fields (.inl rfl) (notMem_prio (.inl rfl) row.priority) hrow.name.1)
    (List.cons_ne_nil _ _)

theorem newline_notMem_text : '\n' ∉ row.text := by
  have hpriority := notMem_prio (.inr (.inl rfl)) row.priority
  refine notMem_intercalate (by decide) (notMem_fields (.inr (.inl rfl)) ?_ hrow.name.2.1)
  rw [List.mem_cons, List.mem_append, List.mem_singleton]
  rintro (h | h | h)
  · exact absurd h (by decide)
  · exact hpriority h
  · exact absurd h (by decide)

theorem jobFormatter_text :
    jobFormatter [row.text.filter fun c => c ≠ '"'] = [row.job] := by
  rw [jobFormatter, List.map_singleton, splitOn_filter_text hrow]
  simp only [ScheduleRow.fields, ScheduleRow.job, List.getElem?_cons_succ,
    List.getElem?_cons_zero, parseOr_toStringBase, Option.getD_some, Option.bind_some,
    parseInteger_toStringBase]

end Fields

/-! ## The priority of a row -/

theorem prio_injective : Function.Injective prio := by
  intro p q h
  cases p <;> cases q <;> first | rfl | exact absurd h (by decide)

/-- What stands between the only two quotes of a text. -/
theorem eq_of_quoted {x y a b : Str} (hx : '"' ∉ x) (hy : '"' ∉ y) (ha : '"' ∉ a)
    (hb : '"' ∉ b) (h : '"' :: (x ++ ['"']) <:+: a ++ '"' :: (y ++ '"' :: b)) : x = y := by
  obtain ⟨s, t, heq⟩ := h
  have heq : s ++ '"' :: (x ++ '"' :: t) = a ++ '"' :: (y ++ '"' :: b) := by
    simpa using heq
  -- Both sides have two quotes, so there is none before or after those around `x`.
  have hcount := congrArg (List.count '"') heq
  simp only [List.count_append, List.count_cons_self, List.count_eq_zero.2 hx,
    List.count_eq_zero.2 hy, List.count_eq_zero.2 ha, List.count_eq_zero.2 hb] at hcount
  have hs : '"' ∉ s := List.count_eq_zero.1 (by omega)
  have ht : '"' ∉ t := List.count_eq_zero.1 (by omega)
  have hjoin : ∀ u v w : Str, u ++ '"' :: (v ++ '"' :: w) = ['"'].intercalate [u, v, w] := by
    intro u v w
    simp [List.intercalate_cons_cons]
  have hsplit := congrArg (List.splitOn '"') heq
  rw [hjoin, hjoin, List.splitOn_intercalate '"' (by simp [hs, hx, ht]) (List.cons_ne_nil _ _),
    List.splitOn_intercalate '"' (by simp [ha, hy, hb]) (List.cons_ne_nil _ _)] at hsplit
  simpa using (List.cons.inj (List.cons.inj hsplit).2).1

theorem eq_of_toUpper_quote {c : Char} (h : c.toUpper = '"') : c = '"' := by
  have hsmall : ∀ n < 0x80, (Char.ofNat n).toUpper = '"' → Char.ofNat n = '"' := by decide
  by_cases hc : c.toNat < 0x80
  · have hquote := hsmall c.toNat hc
    rw [Char.ofNat_toNat] at hquote
    exact hquote h
  · have hnot : ¬('a'.val ≤ c.val ∧ c.val ≤ 'z'.val) := by
      rintro ⟨-, hz⟩
      have hz : c.toNat ≤ 122 := hz
      omega
    have hupper : c.toUpper = c := dif_neg hnot
    rwa [hupper] at h

theorem quote_notMem_map_toUpper {text : Str} (h : '"' ∉ text) :
    '"' ∉ text.map Char.toUpper := by
  rw [List.mem_map]
  rintro ⟨c, hc, hquote⟩
  exact h (eq_of_toUpper_quote hquote ▸ hc)

/-- A line is taken for the priority of its row, and for no other. -/
theorem isMatch_text {row : ScheduleRow} (hrow : row.WellFormed) (priority : Priority) :
    isMatch priority row.text = decide (row.priority = priority) := by
  obtain ⟨a, b, htext, ha, hb⟩ : ∃ a b, row.text = a ++ '"' :: (prio row.priority ++ '"' :: b) ∧
      '"' ∉ a ∧ '"' ∉ b := by
    have hnumber := notMem_number (c := '"') (.inr (.inr rfl))
    refine ⟨toStringBase 10 row.id ++ [','], ',' :: [','].intercalate [row.wtId,
      toStringBase 10 row.mJCode, toStringBase 10 row.tw.1, toStringBase 10 row.tw.2], ?_, ?_, ?_⟩
    · simp [ScheduleRow.text, ScheduleRow.fields, List.intercalate_cons_cons]
    · simp [hnumber]
    · rw [List.mem_cons, not_or]
      exact ⟨by decide, notMem_intercalate (by decide) (by simp [hnumber, hrow.name.2.2])⟩
  have hupper : (prio row.priority).map Char.toUpper = prio row.priority := by
    cases row.priority <;> rfl
  have hmap : row.text.map Char.toUpper
      = a.map Char.toUpper ++ '"' :: (prio row.priority ++ '"' :: b.map Char.toUpper) := by
    rw [htext, List.map_append, List.map_cons, List.map_append, List.map_cons, hupper]
    rfl
  rw [isMatch, hmap]
  refine decide_eq_decide.2 ⟨fun h => ?_, ?_⟩
  · have hquote : ∀ p, '"' ∉ prio p := notMem_prio (.inr (.inr rfl))
    exact (prio_injective (eq_of_quoted (hquote _) (hquote _)
      (quote_notMem_map_toUpper ha) (quote_notMem_map_toUpper hb) h)).symm
  · rintro rfl
    exact ⟨a.map Char.toUpper, b.map Char.toUpper, by simp⟩

/-! ## Schedules -/

/-- What is put into `jobs` for a file. -/
def linesOf (priority : Priority) (fileContents : Str) : List Str :=
  ((fileContents.splitOn '\n').filter (isMatch priority)).map fun item =>
    item.filter fun c => c ≠ '"'

theorem linesOf_nil (priority : Priority) : linesOf priority [] = [] := by
  have hnot : isMatch priority [] = false := by
    cases priority <;> decide
  rw [linesOf, List.splitOn_nil, List.filter_singleton, hnot]
  rfl

/-- A file that is refused has nothing in it that would be found. -/
theorem flatMap_fileReader (priority : Priority) (file : Option Str) :
    (fileReader file).toList.flatMap (linesOf priority) = linesOf priority (file.getD []) := by
  rw [fileReader_eq]
  split_ifs with hread
  · rw [Option.toList_some, List.flatMap_singleton]
  · rcases file with _ | contents
    · exact (linesOf_nil priority).symm
    · have hnil : contents = [] := by
        by_contra hne
        exact hread ⟨contents, rfl, hne⟩
      rw [hnil]
      exact (linesOf_nil priority).symm

/-- The jobs of all files, one after the other. -/
theorem retrieveJobs_eq (readFileSync : Str → Option Str) (scheduleList : List Str)
    (priority : Priority) :
    retrieveJobs readFileSync scheduleList priority
      = scheduleList.flatMap fun file =>
          jobFormatter (linesOf priority ((readFileSync file).getD [])) := by
  have hdata : retrieveJobs readFileSync scheduleList priority = jobFormatter
      ((scheduleList.filterMap fun file => fileReader (readFileSync file)).flatMap
        (linesOf priority)) := by
    rw [retrieveJobs]
    split_ifs with hnone
    · rw [List.length_eq_zero_iff.1 hnone]
      rfl
    · simp only
      split_ifs with hjobs
      · have hjobs := List.length_eq_zero_iff.1 hjobs
        exact (congrArg jobFormatter hjobs).symm
      · rfl
  rw [hdata, List.filterMap_eq_flatMap_toList, List.flatMap_assoc]
  simp only [flatMap_fileReader]
  exact List.map_flatMap

theorem scheduleText_splitOn {rows : List ScheduleRow} (hrows : ∀ row ∈ rows, row.WellFormed)
    (hne : rows ≠ []) : (scheduleText rows).splitOn '\n' = rows.map ScheduleRow.text := by
  refine List.splitOn_intercalate '\n' (fun text htext => ?_) (by simpa using hne)
  obtain ⟨row, hrow, rfl⟩ := List.mem_map.1 htext
  exact newline_notMem_text (hrows row hrow)

theorem jobFormatter_linesOf {rows : List ScheduleRow} (hrows : ∀ row ∈ rows, row.WellFormed)
    (priority : Priority) : jobFormatter (linesOf priority (scheduleText rows))
      = (rows.filter fun row => row.priority = priority).map ScheduleRow.job := by
  by_cases hne : rows = []
  · rw [hne]
    exact congrArg jobFormatter (linesOf_nil priority)
  · have hmatch : ∀ row ∈ rows,
        (isMatch priority ∘ ScheduleRow.text) row = decide (row.priority = priority) :=
      fun row hrow => isMatch_text (hrows row hrow) priority
    rw [linesOf, scheduleText_splitOn hrows hne, List.filter_map, List.filter_congr hmatch,
      jobFormatter, List.map_map, List.map_map]
    refine List.map_congr_left fun row hrow => ?_
    exact (List.cons.inj (jobFormatter_text (hrows row (List.mem_of_mem_filter hrow)))).1

/-! ## The repository's own schedule -/

def ownRows : List ScheduleRow :=
  [⟨20211, .HIGH, "WT12".toList, 11, (6, 18)⟩, ⟨20212, .LOW, "WT02".toList, 22, (6, 18)⟩,
    ⟨20213, .MEDIUM, "WT45".toList, 33, (6, 18)⟩, ⟨20214, .HIGH, "WT34".toList, 44, (6, 18)⟩]

def ownSchedule (file : Str) : Option (List ScheduleRow) :=
  if file = "schedule.txt".toList then some ownRows else none

/-- `schedule.txt`, beside which there is no other file. -/
def ownFile (file : Str) : Option Str :=
  if file = "schedule.txt".toList then some
    ("20211,\"HIGH\",WT12,11,6,18\n20212,\"LOW\",WT02,22,6,18\n" ++
      "20213,\"MED\",WT45,33,6,18\n20214,\"HIGH\",WT34,44,6,18").toList
  else none

theorem ownFile_eq {files : List Str} :
    ∀ file ∈ files, ownFile file = (ownSchedule file).map scheduleText := by
  intro file _
  unfold ownFile ownSchedule
  split_ifs
  · exact congrArg some (by decide +kernel)
  · rfl

theorem ownSchedule_wellFormed {files : List Str} :
    ∀ file ∈ files, ∀ rows ∈ ownSchedule file, ∀ row ∈ rows, row.WellFormed := by
  intro file _ rows hrows
  simp only [ownSchedule, Option.mem_def, Option.ite_none_right_eq_some] at hrows
  obtain ⟨-, hrows⟩ := hrows
  obtain rfl := Option.some.inj hrows
  simp only [ownRows, List.forall_mem_cons, List.not_mem_nil, false_implies, implies_true,
    and_true]
  exact ⟨⟨by decide, by decide⟩, ⟨by decide, by decide⟩, ⟨by decide, by decide⟩,
    ⟨by decide, by decide⟩⟩

/-! ## Schedules that are written -/

section Written

variable {readFileSync : Str → Option Str} {scheduleList : List Str}
  (schedules : Str → Option (List ScheduleRow))

/-- Of schedules that are written row by row, a missing one among them or not, the jobs of a
priority are the rows of that priority, in their order. -/
theorem retrieveJobs_of_written
    (hread : ∀ file ∈ scheduleList, readFileSync file = (schedules file).map scheduleText)
    (hrows : ∀ file ∈ scheduleList, ∀ rows ∈ schedules file, ∀ row ∈ rows, row.WellFormed)
    (priority : Priority) :
    retrieveJobs readFileSync scheduleList priority
      = (rowsOf schedules scheduleList priority).map ScheduleRow.job := by
  rw [retrieveJobs_eq, rowsOf, List.map_flatMap]
  refine List.flatMap_congr fun file hfile => ?_
  rw [hread file hfile]
  cases hschedule : schedules file with
  | none => exact congrArg jobFormatter (linesOf_nil priority)
  | some rows => exact jobFormatter_linesOf (hrows file hfile rows hschedule) priority

theorem retrieveJobs_of_written_schedule :
    retrieveJobs ownFile ["none.txt".toList, "schedule.txt".toList] .HIGH
      = [⟨⟨20211, "11".toList⟩, some "WT12".toList, (6, 18), MJcodes 11⟩,
        ⟨⟨20214, "44".toList⟩, some "WT34".toList, (6, 18), MJcodes 44⟩] :=
  (retrieveJobs_of_written ownSchedule ownFile_eq ownSchedule_wellFormed .HIGH).trans rfl

theorem toStringBase_inj {n m : ℤ} : toStringBase 10 n = toStringBase 10 m ↔ n = m := by
  refine ⟨fun h => ?_, fun h => congrArg _ h⟩
  have hparse := congrArg parseInteger h
  rw [parseInteger_toStringBase, parseInteger_toStringBase] at hparse
  exact Option.some.inj hparse

theorem reqSuppsOf_toStringBase (code : ℤ) :
    reqSuppsOf (toStringBase 10 code)
      = if code = 22 then none else (MJcodes code).map typesOf := by
  by_cases hcode : code = 11 ∨ code = 22 ∨ code = 33 ∨ code = 44
  · rcases hcode with rfl | rfl | rfl | rfl <;> rfl
  · simp only [not_or] at hcode
    obtain ⟨h11, h22, h33, h44⟩ := hcode
    have hlabels : toStringBase 10 11 = ['1', '1'] ∧ toStringBase 10 33 = ['3', '3'] ∧
        toStringBase 10 44 = ['4', '4'] := ⟨rfl, rfl, rfl⟩
    rw [reqSuppsOf, ← hlabels.1, ← hlabels.2.1, ← hlabels.2.2, if_neg (mt toStringBase_inj.1 h11),
      if_neg (mt toStringBase_inj.1 h33), if_neg (mt toStringBase_inj.1 h44), if_neg h22, MJcodes,
      if_neg (not_or.2 ⟨h11, h22⟩), if_neg h33, if_neg h44]
    rfl

/-- The types that a job is given are what its requirements in the catalogue come to. For code 22,
which no label of the `switch` is, there are none. -/
theorem reqExpander_of_written
    (hread : ∀ file ∈ scheduleList, readFileSync file = (schedules file).map scheduleText)
    (hrows : ∀ file ∈ scheduleList, ∀ rows ∈ schedules file, ∀ row ∈ rows, row.WellFormed)
    (priority : Priority)
    (hids : ((rowsOf schedules scheduleList priority).map fun row => row.job.id).Nodup) :
    ∀ row ∈ rowsOf schedules scheduleList priority,
      reqExpander ((retrieveJobs readFileSync scheduleList priority).map Job.toJob) row.job.id
        = if row.mJCode = 22 then none else row.job.reqs.map typesOf := by
  intro row hrow
  rw [retrieveJobs_of_written schedules hread hrows, List.map_map]
  have hjob : row.job.toJob ∈ (rowsOf schedules scheduleList priority).map
      (Job.toJob ∘ ScheduleRow.job) := List.mem_map_of_mem hrow
  have hexpand := reqExpander_of_nodup (by rwa [List.map_map]) _ hjob
  exact hexpand.trans (reqSuppsOf_toStringBase row.mJCode)

theorem reqExpander_of_written_schedule :
    reqExpander ((retrieveJobs ownFile ["schedule.txt".toList] .HIGH).map Job.toJob) 20214
        = some ([.SPARE, .PORT] ++ List.replicate 12 .TECHNICIAN) ∧
      reqExpander ((retrieveJobs ownFile ["schedule.txt".toList] .LOW).map Job.toJob) 20212
        = none :=
  ⟨reqExpander_of_written ownSchedule ownFile_eq ownSchedule_wellFormed .HIGH (by decide)
      ⟨20214, .HIGH, "WT34".toList, 44, (6, 18)⟩ (by decide),
    reqExpander_of_written ownSchedule ownFile_eq ownSchedule_wellFormed .LOW (by decide)
      ⟨20212, .LOW, "WT02".toList, 22, (6, 18)⟩ (by decide)⟩

end Written

end Extract

end Baseline
