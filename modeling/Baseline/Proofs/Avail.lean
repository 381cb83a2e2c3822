import Baseline.Avail
import Baseline.Proofs.Jobs
import Baseline.Proofs.Overlap
import Baseline.Proofs.Mimc
import Mathlib.Data.List.TakeWhile

/-!
# What the files of the suppliers give

Whatever a file has in it, its supplier is given a calendar of thirty days (`isCalendar_finder`),
so `requestAvailability` returns what the search for a common day relies on
(`requestAvailability_calendars`). A file that is written as theirs are is read back
(`requestAvailability_of_written`), except that zero is not a cost or a reputation.
-/

namespace Baseline

namespace Avail

open Jobs Allign Conversions Mimc

/-! ## Calendars -/

/-- Each day of the result is itself or nothing, of whatever it is the result. -/
theorem isCalendar_finder (suppInfo : Option (List ℤ)) (timeWindow : ℤ × ℤ) (taskLength : ℕ) :
    IsCalendar (suitabilityFinder suppInfo timeWindow taskLength) ∧
      (suitabilityFinder suppInfo timeWindow taskLength).length = 30 := by
  have hzeros : ∀ (i day : ℕ), (List.replicate 30 0)[i]? = some day → day = 0 := by
    intro i day hday
    exact List.eq_of_mem_replicate (List.mem_of_getElem? hday)
  cases suppInfo with
  | none => exact ⟨fun i day hday => .inl (hzeros i day hday), List.length_replicate⟩
  | some suppInfo =>
    have hlen : ∀ is : List ℕ,
        (is.foldl (fun l a => l.set a (a + 1)) (List.replicate 30 0)).length = 30 :=
      fun is => by rw [length_foldl_set, List.length_replicate]
    refine ⟨fun i day hday => ?_, hlen _⟩
    have hi : i < 30 := (List.getElem?_eq_some_iff.1 hday).1.trans_eq (hlen _)
    simp only [suitabilityFinder] at hday
    rw [foldl_set_getElem? _ (by rwa [List.length_replicate])] at hday
    split_ifs at hday with hmem
    · exact .inr (Option.some.inj hday).symm
    · exact .inl (hzeros i day hday)

/-! ## Folders -/

theorem tagOf_folderOf : ∀ type : SupplierType, tagOf (folderOf type) = some type := by
  intro type
  cases type <;> decide

theorem mapM_eq_ite {α β : Type} {f : α → Option β} {g : α → β} {p : α → Prop} [DecidablePred p]
    (h : ∀ x, f x = if p x then some (g x) else none) :
    ∀ xs : List α, xs.mapM f = if ∀ x ∈ xs, p x then some (xs.map g) else none
  | [] => by simp
  | x :: xs => by
    rw [List.mapM_cons, mapM_eq_ite h xs, h x]
    simp only [List.forall_mem_cons]
    by_cases hx : p x
    · by_cases hxs : ∀ x ∈ xs, p x
      · rw [if_pos hx, if_pos hxs, if_pos ⟨hx, hxs⟩]
        rfl
      · rw [if_pos hx, if_neg hxs, if_neg (not_and_of_not_right _ hxs)]
        rfl
    · rw [if_neg hx, if_neg (not_and_of_not_left _ hx)]
      rfl

section Folders

variable (readdir : Str → Option (List (Option Str)))

/-- A file that can be read and has something in it. -/
def Readable (file : Option Str) : Prop := ∃ contents, file = some contents ∧ contents ≠ []

/-- The folder of a type can be read, and so can all its files. -/
def FolderReadable (type : SupplierType) : Prop :=
  ∃ files, readdir (folderOf type) = some files ∧ ∀ file ∈ files, Readable file

/-- The contents of a type's folder. -/
def contentsOf (type : SupplierType) : List (Str × SupplierType) :=
  ((readdir (folderOf type)).getD []).map fun file => (file.getD [], type)

open scoped Classical in
theorem fileReader_eq (file : Option Str) :
    fileReader file = if Readable file then some (file.getD []) else none := by
  rcases file with _ | contents
  · simp [fileReader, Readable]
  · by_cases h : contents = []
    · simp [fileReader, Readable, h]
    · simp [fileReader, Readable, h, Option.filter]

open scoped Classical in
theorem fileImporter_eq (suppliers : List SupplierType) :
    fileImporter readdir (supplierResolver suppliers)
      = if ∀ type ∈ suppliers, FolderReadable readdir type then
          some (suppliers.flatMap (contentsOf readdir)) else none := by
  have hfolder : ∀ type, (do
      let files ← readdir (folderOf type)
      files.mapM fun file => do
        let fileTag ← tagOf (folderOf type)
        let fileContents ← fileReader file
        return (fileContents, fileTag))
      = if FolderReadable readdir type then some (contentsOf readdir type) else none := by
    intro type
    cases hfiles : readdir (folderOf type) with
    | none => simp [FolderReadable, hfiles]
    | some files =>
      have hfile : ∀ file : Option Str, (do
          let fileTag ← tagOf (folderOf type)
          let fileContents ← fileReader file
          return (fileContents, fileTag))
          = if Readable file then some (file.getD [], type) else none := by
        intro file
        rw [tagOf_folderOf, fileReader_eq]
        by_cases h : Readable file
        · simp [h]
        · simp [h]
      rw [Option.bind_eq_bind, Option.bind_some, mapM_eq_ite hfile]
      simp [FolderReadable, contentsOf, hfiles]
  rw [fileImporter, supplierResolver, List.mapM_map]
  have hfolders := mapM_eq_ite hfolder suppliers
  simp only [Function.comp_def]
  rw [hfolders]
  by_cases h : ∀ type ∈ suppliers, FolderReadable readdir type
  · rw [if_pos h, if_pos h, List.flatMap_def]
    rfl
  · rw [if_neg h, if_neg h]
    rfl

/-- When the request is answered, and with what. -/
theorem requestAvailability_iff (suppliers : List SupplierType) (timeWindow : ℤ × ℤ)
    (taskLength : ℕ) (suppFormatted : List FileStructure) :
    requestAvailability readdir suppliers timeWindow taskLength = some suppFormatted ↔
      (∀ type ∈ suppliers, FolderReadable readdir type) ∧ suppFormatted ≠ [] ∧
        suppFormatted = (suppliers.flatMap (contentsOf readdir)).map
          (formatSupplier timeWindow taskLength) := by
  rw [requestAvailability, fileImporter_eq]
  by_cases h : ∀ type ∈ suppliers, FolderReadable readdir type
  · rw [if_pos h, Option.bind_eq_bind, Option.bind_some]
    by_cases hempty : suppliers.flatMap (contentsOf readdir) = []
    · rw [hempty, if_pos List.length_nil]
      exact ⟨fun hnone => (nomatch hnone), fun hsome => absurd hsome.2.2 hsome.2.1⟩
    · rw [if_neg (mt List.length_eq_zero_iff.1 hempty)]
      constructor
      · intro hsome
        obtain rfl := Option.some.inj hsome
        exact ⟨h, mt List.map_eq_nil_iff.1 hempty, rfl⟩
      · rintro ⟨-, -, rfl⟩
        rfl
  · rw [if_neg h]
    exact ⟨fun hnone => (nomatch hnone), fun hsome => absurd hsome.1 h⟩

theorem of_requestAvailability {suppliers : List SupplierType} {timeWindow : ℤ × ℤ}
    {taskLength : ℕ} {suppFormatted : List FileStructure}
    (hsome : requestAvailability readdir suppliers timeWindow taskLength = some suppFormatted) :
    ∀ supplier ∈ suppFormatted, supplier.type ∈ suppliers ∧
      IsCalendar supplier.content.supplierAvailability ∧
      supplier.content.supplierAvailability.length = 30 := by
  intro supplier hsupplier
  obtain ⟨-, -, rfl⟩ := (requestAvailability_iff readdir _ _ _ _).1 hsome
  obtain ⟨entry, hentry, rfl⟩ := List.mem_map.1 hsupplier
  obtain ⟨type, htype, hentry⟩ := List.mem_flatMap.1 hentry
  obtain ⟨file, -, rfl⟩ := List.mem_map.1 hentry
  refine ⟨htype, ?_⟩
  dsimp only [formatSupplier]
  exact isCalendar_finder _ timeWindow taskLength

/-- Whatever the files have in them, who is returned is of a type that was asked for and has a
calendar. -/
theorem requestAvailability_calendars (suppliers : List SupplierType) (timeWindow : ℤ × ℤ)
    (taskLength : ℕ) :
    (requestAvailability readdir suppliers timeWindow taskLength = none ↔
      (∃ type ∈ suppliers, ¬FolderReadable readdir type) ∨
        ∀ type ∈ suppliers, contentsOf readdir type = []) ∧
      ∀ suppFormatted,
        requestAvailability readdir suppliers timeWindow taskLength = some suppFormatted →
        ∀ supplier ∈ suppFormatted, supplier.type ∈ suppliers ∧
          IsCalendar supplier.content.supplierAvailability ∧
          supplier.content.supplierAvailability.length = 30 := by
  refine ⟨?_, fun suppFormatted => of_requestAvailability readdir⟩
  rw [Option.eq_none_iff_forall_not_mem]
  simp only [Option.mem_def, requestAvailability_iff, not_and]
  constructor
  · intro h
    by_cases hread : ∀ type ∈ suppliers, FolderReadable readdir type
    · refine .inr fun type htype => List.eq_nil_iff_forall_not_mem.2 fun entry hentry => ?_
      refine h _ hread (mt List.map_eq_nil_iff.1 ?_) rfl
      exact List.ne_nil_of_mem (List.mem_flatMap.2 ⟨type, htype, hentry⟩)
    · simp only [not_forall] at hread
      obtain ⟨type, htype, hread⟩ := hread
      exact .inl ⟨type, htype, hread⟩
  · rintro (⟨type, htype, hnot⟩ | hnil) suppFormatted hread hne
    · exact absurd (hread type htype) hnot
    · rintro rfl
      exact hne (List.map_eq_nil_iff.2 (List.flatMap_eq_nil_iff.2 hnil))

end Folders

/-! ## Files as they are written -/

theorem ne_of_digit {c : Char} (h : ∃ d < 10, digit c = some d) :
    c ≠ '-' ∧ c ≠ '+' ∧ c ≠ 'x' ∧ c ≠ 'X' ∧ isSpace c = false ∧ (parseInt c 10).isSome := by
  obtain ⟨d, hd, hc⟩ := h
  have hparse : (parseInt c 10).isSome := by
    rw [(parseInt_eq_some (by norm_num) (by norm_num)).2 ⟨hd, hc⟩]
    rfl
  refine ⟨?_, ?_, ?_, ?_, isSpace_of_digit hc, hparse⟩ <;> rintro rfl <;> revert hparse <;> decide

theorem parseUnsigned_of_isNumeral {ds : Str} (hne : ds ≠ []) (hds : IsNumeral 10 ds) :
    parseUnsigned ds = some (valueOf 10 ds) := by
  have htake : ds.takeWhile (fun c => (parseInt c 10).isSome) = ds :=
    List.takeWhile_eq_self_iff.2 fun c hc => (ne_of_digit (hds c hc)).2.2.2.2.2
  have hx : ∀ c ∈ ds, c ≠ 'x' ∧ c ≠ 'X' := by
    intro c hc
    obtain ⟨-, -, hx, hX, -⟩ := ne_of_digit (hds c hc)
    exact ⟨hx, hX⟩
  unfold parseUnsigned
  split
  · exact absurd rfl (hx 'x' (by simp)).1
  · exact absurd rfl (hx 'X' (by simp)).2
  · rw [leadingDigits, htake, digitsToNat, if_neg hne,
      mapM_parseInt (by norm_num) (by norm_num) hds]
    rfl

theorem parseInteger_toStringBase (n : ℤ) : parseInteger (toStringBase 10 n) = some n := by
  have hnum : IsNumeral 10 (numeral 10 n.natAbs) :=
    isNumeral_numeral (by norm_num) (by norm_num) n.natAbs
  have hne : numeral 10 n.natAbs ≠ [] := numeral_ne_nil (by norm_num) n.natAbs
  have hval : valueOf 10 (numeral 10 n.natAbs) = n.natAbs :=
    valueOf_numeral (by norm_num) (by norm_num) n.natAbs
  unfold toStringBase
  generalize numeral 10 n.natAbs = ds at hnum hne hval
  have hparse := parseUnsigned_of_isNumeral hne hnum
  rw [hval] at hparse
  have hdrop : ds.dropWhile isSpace = ds := by
    rcases ds with _ | ⟨c, ds⟩
    · rfl
    · have hspace := (ne_of_digit (hnum c List.mem_cons_self)).2.2.2.2.1
      rw [List.dropWhile_cons, hspace, if_neg Bool.false_ne_true]
  split_ifs with hn
  · have hminus : ('-' :: ds).dropWhile isSpace = '-' :: ds := rfl
    simp only [parseInteger, hminus, hparse, Option.map_some]
    exact congrArg some (by omega : -(n.natAbs : ℤ) = n)
  · rw [parseInteger, hdrop]
    split
    · exact absurd rfl (ne_of_digit (hnum _ List.mem_cons_self)).1
    · exact absurd rfl (ne_of_digit (hnum _ List.mem_cons_self)).2.1
    · rw [hparse, Option.map_some]
      exact congrArg some (by omega : (n.natAbs : ℤ) = n)

/-- What the lines of a file say. -/
structure SupplierFile where
  days : List ℤ
  reputation : ℤ
  cost : ℤ
  id : Str

/-- There is a day at least, the numbers are safe ones, and the id is one line. -/
structure SupplierFile.WellFormed (file : SupplierFile) : Prop where
  days_ne_nil : file.days ≠ []
  safe : ∀ n ∈ file.reputation :: file.cost :: file.days, n.natAbs < 2 ^ 53
  id_line : '\n' ∉ file.id

def SupplierFile.text (file : SupplierFile) : Str :=
  ['\n'].intercalate [[','].intercalate (file.days.map (toStringBase 10)),
    toStringBase 10 file.reputation, toStringBase 10 file.cost, file.id]

/-- The supplier that a file is about, but that a zero is no cost and no reputation. -/
def SupplierFile.supplier (file : SupplierFile) (type : SupplierType) (timeWindow : ℤ × ℤ)
    (taskLength : ℕ) : FileStructure where
  type := type
  content :=
    { supplierId := file.id
      supplierCost := if file.cost = 0 then -1 else file.cost
      supplierReputation := if file.reputation = 0 then -1 else file.reputation
      supplierAvailability := suitabilityFinder (some file.days) timeWindow taskLength }

theorem SupplierFile.text_ne_nil (file : SupplierFile) : file.text ≠ [] := by
  rw [text, List.intercalate_cons_cons]
  exact List.append_ne_nil_of_left_ne_nil (List.append_ne_nil_of_right_ne_nil _ (by simp)) _

theorem parseOr_toStringBase (otherwise n : ℤ) :
    parseOr otherwise (some (toStringBase 10 n)) = if n = 0 then otherwise else n := by
  rw [parseOr, Option.bind_some, parseInteger_toStringBase]

/-- A text with no digit and no sign in it does not occur in a number. -/
theorem notMem_toStringBase {c : Char} (hsign : c ≠ '-') (hdigit : digit c = none) (n : ℤ) :
    c ∉ toStringBase 10 n := by
  intro hc
  have hnum : IsNumeral 10 (numeral 10 n.natAbs) :=
    isNumeral_numeral (by norm_num) (by norm_num) n.natAbs
  have hnot : c ∉ numeral 10 n.natAbs := by
    intro hc
    obtain ⟨d, -, hd⟩ := hnum c hc
    rw [hdigit] at hd
    exact nomatch hd
  unfold toStringBase at hc
  split_ifs at hc
  · exact (List.mem_cons.1 hc).elim hsign hnot
  · exact hnot hc

theorem notMem_intercalate {c sep : Char} (hsep : c ≠ sep) : ∀ {texts : List Str},
    (∀ text ∈ texts, c ∉ text) → c ∉ [sep].intercalate texts
  | [], _ => List.not_mem_nil
  | [text], h => by
    rw [List.intercalate_singleton]
    exact h text List.mem_cons_self
  | text :: text' :: texts, h => by
    rw [List.intercalate_cons_cons, List.mem_append, List.mem_append, List.mem_singleton]
    rintro ((hc | hc) | hc)
    · exact h text List.mem_cons_self hc
    · exact hsep hc
    · exact notMem_intercalate hsep (fun text hmem => h text (List.mem_cons_of_mem _ hmem)) hc

/-- A file is read as what it says, but for the zeros. -/
theorem formatSupplier_text {file : SupplierFile} (hfile : file.WellFormed) (type : SupplierType)
    (timeWindow : ℤ × ℤ) (taskLength : ℕ) :
    formatSupplier timeWindow taskLength (file.text, type)
      = file.supplier type timeWindow taskLength := by
  have hnewline := notMem_toStringBase (c := '\n') (by decide) (by decide)
  have hlines : file.text.splitOn '\n' = [[','].intercalate (file.days.map (toStringBase 10)),
      toStringBase 10 file.reputation, toStringBase 10 file.cost, file.id] := by
    refine List.splitOn_intercalate '\n' ?_ (List.cons_ne_nil _ _)
    simp only [List.forall_mem_cons, List.not_mem_nil, false_implies, implies_true, and_true]
    refine ⟨notMem_intercalate (by decide) fun text htext => ?_, hnewline _, hnewline _,
      hfile.id_line⟩
    obtain ⟨day, -, rfl⟩ := List.mem_map.1 htext
    exact hnewline day
  have hdays : ((([','].intercalate (file.days.map (toStringBase 10))).splitOn ',').map
      fun day => parseOr 0 (some day)) = file.days := by
    rw [List.splitOn_intercalate ',' ?_ (by simpa using hfile.days_ne_nil), List.map_map]
    · have hday : ∀ day ∈ file.days,
          ((fun day => parseOr 0 (some day)) ∘ toStringBase 10) day = id day := by
        intro day _
        rw [Function.comp_apply, parseOr_toStringBase]
        split_ifs with h
        · exact h.symm
        · rfl
      rw [List.map_congr_left hday, List.map_id]
    · intro text htext
      obtain ⟨day, -, rfl⟩ := List.mem_map.1 htext
      exact notMem_toStringBase (by decide) (by decide) day
  unfold formatSupplier
  simp only [SupplierFile.supplier, hlines, List.headD_cons, hdays, List.getElem?_cons_succ,
    List.getElem?_cons_zero, parseOr_toStringBase, Option.getD_some]

/-- What comes back for folders of written files: the suppliers of each type in its turn. -/
theorem requestAvailability_of_written {readdir : Str → Option (List (Option Str))}
    {suppliers : List SupplierType} (folders : SupplierType → List SupplierFile)
    (hread : ∀ type ∈ suppliers, readdir (folderOf type)
      = some ((folders type).map fun file => some file.text))
    (hfiles : ∀ type ∈ suppliers, ∀ file ∈ folders type, file.WellFormed)
    (hany : ∃ type ∈ suppliers, folders type ≠ []) (timeWindow : ℤ × ℤ) (taskLength : ℕ) :
    requestAvailability readdir suppliers timeWindow taskLength
      = some (suppliers.flatMap fun type => (folders type).map fun file =>
          file.supplier type timeWindow taskLength) := by
  rw [requestAvailability_iff]
  have hcontents : ∀ type ∈ suppliers, (contentsOf readdir type).map
        (formatSupplier timeWindow taskLength)
      = (folders type).map fun file =>
          file.supplier type timeWindow taskLength := by
    intro type htype
    rw [contentsOf, hread type htype, Option.getD_some, List.map_map, List.map_map]
    exact List.map_congr_left fun file hfile =>
      formatSupplier_text (hfiles type htype file hfile) type timeWindow taskLength
  refine ⟨fun type htype => ⟨_, hread type htype, fun file hfile => ?_⟩, ?_, ?_⟩
  · obtain ⟨file, -, rfl⟩ := List.mem_map.1 hfile
    exact ⟨file.text, rfl, file.text_ne_nil⟩
  · obtain ⟨type, htype, hne⟩ := hany
    obtain ⟨file, hfile⟩ := List.exists_mem_of_ne_nil _ hne
    exact List.ne_nil_of_mem (List.mem_flatMap.2 ⟨type, htype, List.mem_map_of_mem hfile⟩)
  · rw [List.map_flatMap]
    exact (List.flatMap_congr hcontents).symm

theorem requestAvailability_of_written_one :
    let file : SupplierFile := ⟨[0, 2, 3], 4, 225000, "Spares5".toList⟩
    let readdir : Str → Option (List (Option Str)) := fun _ => some [some file.text]
    requestAvailability readdir [.SPARE] (1, 3) 1 = some [file.supplier .SPARE (1, 3) 1] := by
  intro file readdir
  have hfile : file.WellFormed := ⟨by decide, by decide, by decide⟩
  exact requestAvailability_of_written (fun _ => [file]) (by simp [readdir]) (by simp [hfile])
    ⟨.SPARE, by simp, by simp⟩ (1, 3) 1

end Avail

end Baseline
