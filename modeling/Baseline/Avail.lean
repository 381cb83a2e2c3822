import Baseline.Jobs
import Baseline.Mimc

/-!
# The files of the suppliers

The rest of `avail.ts` of the base example: for each type that is asked for, the files of its
folder are read, with a calendar in the first line and the reputation, the cost and the id in the
next three. What a folder has is a parameter, and `none` stands for what cannot be read. A number
is an integer, which it is up to `2 ^ 53`.
-/

namespace Baseline

namespace Avail

open Jobs

/-- The number that the digits in front make. -/
def leadingDigits (base : ℕ) (s : Str) : Option ℕ :=
  Mimc.digitsToNat base (s.takeWhile fun c => (Conversions.parseInt c base).isSome)

def parseUnsigned : Str → Option ℕ
  | '0' :: 'x' :: s | '0' :: 'X' :: s => leadingDigits 16 s
  | s => leadingDigits 10 s

/-- `parseInt(s)`, which stops at the first character that is no digit; `NaN` is `none`. -/
def parseInteger (s : Str) : Option ℤ :=
  match s.dropWhile Mimc.isSpace with
  | '-' :: s => (parseUnsigned s).map fun n : ℕ => -(n : ℤ)
  | '+' :: s => (parseUnsigned s).map fun n : ℕ => (n : ℤ)
  | s => (parseUnsigned s).map fun n : ℕ => (n : ℤ)

/-- `parseInt(s) || otherwise`, of a string that may be missing. -/
def parseOr (otherwise : ℤ) (s : Option Str) : ℤ :=
  match s.bind parseInteger with
  | some n => if n = 0 then otherwise else n
  | none => otherwise

/-- The folder of a type, `SupplierType[cVal].toLocaleLowerCase() + "s"`. -/
def folderOf : SupplierType → Str
  | .PORT => "ports".toList
  | .SPARE => "spares".toList
  | .TECHNICIAN => "technicians".toList
  | .VESSEL => "vessels".toList

def supplierResolver (suppliers : List SupplierType) : List Str := suppliers.map folderOf

/-- The `switch` of `fileImporter`, which throws on other folders. -/
def tagOf (folder : Str) : Option SupplierType :=
  if folder = "ports".toList then some .PORT
  else if folder = "spares".toList then some .SPARE
  else if folder = "technicians".toList then some .TECHNICIAN
  else if folder = "vessels".toList then some .VESSEL
  else none

/-- An empty file is refused as well. -/
def fileReader (file : Option Str) : Option Str := file.filter fun fileContents => fileContents ≠ []

section

variable (readdir : Str → Option (List (Option Str)))

/-- `none` if a folder or a file cannot be read. -/
def fileImporter (folders : List Str) : Option (List (Str × SupplierType)) := do
  let contentQueue ← folders.mapM fun folder => do
    let files ← readdir folder
    files.mapM fun file => do
      let fileTag ← tagOf folder
      let fileContents ← fileReader file
      return (fileContents, fileTag)
  return contentQueue.flatten

/-- One entry of `suppFormatted`. An id that is missing is used as the text `undefined`. -/
def formatSupplier (timeWindow : ℤ × ℤ) (taskLength : ℕ) (entry : Str × SupplierType) :
    FileStructure :=
  let entryData := entry.1.splitOn '\n'
  let entryAvailability := suitabilityFinder
    (some (((entryData.headD []).splitOn ',').map fun day => parseOr 0 (some day)))
    timeWindow taskLength
  { type := entry.2
    content :=
      { supplierId := entryData[3]?.getD "undefined".toList
        supplierCost := parseOr (-1) entryData[2]?
        supplierReputation := parseOr (-1) entryData[1]?
        supplierAvailability := entryAvailability } }

/-- `none` if it rejects or is never settled. -/
def requestAvailability (suppliers : List SupplierType) (timeWindow : ℤ × ℤ) (taskLength : ℕ) :
    Option (List FileStructure) := do
  let folderInfo ← fileImporter readdir (supplierResolver suppliers)
  if folderInfo.length = 0 then none
  else return folderInfo.map (formatSupplier timeWindow taskLength)

end

end Avail

end Baseline
