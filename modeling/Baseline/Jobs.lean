import Baseline.Conversions
import Mathlib.Data.Int.Notation

/-!
# Jobs and the days suppliers have for them

Of the base example: `extract.ts`, which tells the supplier types a maintenance job needs and
whether it can be started, and `suitabilityFinder` of `avail.ts`, which finds the days of a
calendar on which a task fits. Files are read elsewhere; the numbers of a calendar are integers.
-/

namespace Baseline

namespace Jobs

/-! ## `types.ts` -/

inductive SupplierType
  | PORT
  | SPARE
  | TECHNICIAN
  | VESSEL
  deriving DecidableEq

structure FileContentStructure where
  supplierId : Str
  supplierCost : ℤ
  supplierReputation : ℤ
  /-- The days themselves, where there is one. -/
  supplierAvailability : List ℕ

/-- `FileStructure`, without the metadata of its request. -/
structure FileStructure where
  type : SupplierType
  content : FileContentStructure

structure Job where
  id : ℤ
  mJCode : Str

/-! ## `extract.ts` -/

/-- The codes of the catalogue. -/
def MJcodes : List ℕ := [11, 22, 33, 44]

/-- What the `switch` lists for a code. The label `"11" || "22"` is `"11"`. -/
def reqSuppsOf (mjId : Str) : Option (List SupplierType) :=
  if mjId = ['1', '1'] then some [.TECHNICIAN, .TECHNICIAN]
  else if mjId = ['3', '3'] then some [.SPARE, .TECHNICIAN, .TECHNICIAN]
  else if mjId = ['4', '4'] then some ([.SPARE, .PORT] ++ List.replicate 12 .TECHNICIAN)
  else none

/-- The types for each job's id; a job with a code of no case is passed over. -/
def reqExpander (jobs : List Job) : ℤ → Option (List SupplierType) :=
  jobs.foldl (fun reqSupps job =>
    match reqSuppsOf job.mJCode with
    | some types => fun taskId => if taskId = job.id then some types else reqSupps taskId
    | none => reqSupps) fun _ => none

/-- Each type once. -/
def singular (reqSupps : List SupplierType) : List SupplierType :=
  reqSupps.foldl (fun pVal cVal => if cVal ∈ pVal then pVal else pVal ++ [cVal]) []

/-- Suppliers are the entries of an object; `none` if reading the length of `undefined` throws. -/
def jobCanBeStarted (job : Job) (suppliers : List (Str × FileStructure)) : Option Bool :=
  if suppliers.length = 0 then some false
  else do
    let reqSupps ← reqExpander [job] job.id
    if reqSupps.length = 0 then return false
    else return suppliers.all fun entry => entry.2.type ∈ singular reqSupps

/-! ## `avail.ts` -/

section SuitabilityFinder

variable (suppInfo : List ℤ) (timeWindow : ℤ × ℤ) (taskLength : ℕ)

/-- `loop2` with so many turns to go before `ci` is `index + taskLength`. -/
def loop2 (index : ℕ) : ℕ → ℕ → List ℕ → List ℕ
  | 0, _, keys_of_interest => keys_of_interest
  | turns + 1, ci, keys_of_interest =>
    if index + taskLength ≥ suppInfo.length ∨ (index + taskLength : ℤ) ≥ timeWindow.2 then
      keys_of_interest
    else if suppInfo[ci]? = some 0 then keys_of_interest
    else loop2 index turns (ci + 1) (keys_of_interest.modify index (· + 1))

def loop1 : ℕ → List ℤ → List ℕ → List ℕ
  | _, [], keys_of_interest => keys_of_interest
  | index, day :: days, keys_of_interest =>
    loop1 (index + 1) days
      (if (index : ℤ) ≥ timeWindow.1 - 1 ∧ day ≠ 0 then
        loop2 suppInfo timeWindow taskLength index taskLength index keys_of_interest
      else keys_of_interest)

end SuitabilityFinder

/-- Of a task of a natural number of days. -/
def suitabilityFinder (suppInfo : Option (List ℤ)) (timeWindow : ℤ × ℤ) (taskLength : ℕ) :
    List ℕ :=
  match suppInfo with
  | none => List.replicate 30 0
  | some suppInfo =>
    let keys_of_interest := loop1 suppInfo timeWindow taskLength 0 suppInfo (List.replicate 30 0)
    let indices_available :=
      (List.range keys_of_interest.length).filter fun i => keys_of_interest[i]? = some taskLength
    indices_available.foldl (fun final_availability a => final_availability.set a (a + 1))
      (List.replicate 30 0)

end Jobs

end Baseline
