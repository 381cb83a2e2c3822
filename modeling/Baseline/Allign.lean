import Baseline.Jobs
import Baseline.Objects

/-!
# Aligning suppliers

Of the base example: `partitionSuppliers`, `findOverlappingDay`, `createUniqueSets` and
`formatUniqueSets` of `allign.ts`, `combineArrays` of its `utils.ts`, and the selection that the
test of the whole workflow makes with them. An object is the list of its entries; days are keys far
below `2 ^ 32`, which are listed in ascending order. What an array of arrays has no entry for is
`undefined`, here `none`.
-/

namespace Baseline

namespace Allign

open Jobs Objects

/-! ## Categories -/

/-- The keys of a `Structure`. -/
inductive Category
  | Ports
  | Spares
  | Technicians
  | Vessels
  deriving DecidableEq

structure Structure where
  Ports : List FileStructure := []
  Spares : List FileStructure := []
  Technicians : List FileStructure := []
  Vessels : List FileStructure := []

/-- `Object.entries(s)`. -/
def Structure.entries (s : Structure) : List (Category × List FileStructure) :=
  [(.Ports, s.Ports), (.Spares, s.Spares), (.Technicians, s.Technicians), (.Vessels, s.Vessels)]

/-- The `switch` of `partitionSuppliers`. -/
def pushSupplier (folderStructure : Structure) (supp : FileStructure) : Structure :=
  match supp.type with
  | .PORT => { folderStructure with Ports := folderStructure.Ports ++ [supp] }
  | .VESSEL => { folderStructure with Vessels := folderStructure.Vessels ++ [supp] }
  | .SPARE => { folderStructure with Spares := folderStructure.Spares ++ [supp] }
  | .TECHNICIAN => { folderStructure with Technicians := folderStructure.Technicians ++ [supp] }

def partitionSuppliers (suppliers : List FileStructure) : Structure :=
  suppliers.foldl pushSupplier {}

/-- The key under which the second `switch` looks for a supplier's list. -/
def categoryOf : SupplierType → Category
  | .PORT => .Ports
  | .SPARE => .Spares
  | .TECHNICIAN => .Technicians
  | .VESSEL => .Vessels

/-! ## Overlapping days -/

abbrev OverlapContainer : Type := List (ℕ × List (Category × List Str))

structure Preference where
  supplierCost : ℤ
  supplierReputation : ℤ
  supplierType : SupplierType

/-- Only ever read by an id. -/
abbrev SupplierPreferenceData : Type := Str → Option Preference

def minNum (sortedSupp : Structure) : ℕ :=
  sortedSupp.entries.foldl (fun pVal cVal => if cVal.2.length > 0 then pVal + 1 else pVal + 0) 0

/-- An empty list for the category on the day. -/
def addDay (category : Category) (day : ℕ) (sets : OverlapContainer) : OverlapContainer :=
  setIndex day (set category [] ((get day sets).getD [])) sets

/-- The first pass over the suppliers. -/
def listDays (sortedSupp : Structure) : OverlapContainer :=
  sortedSupp.entries.foldl (fun sets entry =>
    entry.2.foldl (fun sets supplier =>
      supplier.content.supplierAvailability.foldl (fun sets day =>
        if day > 0 then addDay entry.1 day sets else sets) sets) sets) []

/-- `sets[key][category].push(id)`; reading a property of `undefined` throws. -/
def push (key : ℕ) (category : Category) (id : Str) (sets : OverlapContainer) :
    Option OverlapContainer := do
  let day ← get key sets
  let ids ← get category day
  return setIndex key (set category (ids ++ [id]) day) sets

/-- One supplier on one day. -/
def placeSupplier (key : ℕ) (state : OverlapContainer × SupplierPreferenceData)
    (supplier : FileStructure) : Option (OverlapContainer × SupplierPreferenceData) :=
  if supplier.content.supplierAvailability[key - 1]?.getD 0 ≠ 0 then do
    let sets ← push key (categoryOf supplier.type) supplier.content.supplierId state.1
    return (sets, fun id =>
      if id = supplier.content.supplierId then
        some ⟨supplier.content.supplierCost, supplier.content.supplierReputation, supplier.type⟩
      else state.2 id)
  else some state

/-- The second pass, over the days of the first. -/
def placeSuppliers (sortedSupp : Structure) (sets : OverlapContainer) :
    Option (OverlapContainer × SupplierPreferenceData) :=
  (sets.map Prod.fst).foldlM (fun state key =>
    sortedSupp.entries.foldlM (fun state entry =>
      entry.2.foldlM (placeSupplier key) state) state) (sets, fun _ => none)

def dayReducer (totalSet : OverlapContainer) (min : ℕ) : OverlapContainer :=
  totalSet.foldl (fun reducedTotalSet entry =>
    if entry.2.length = min then setIndex entry.1 entry.2 reducedTotalSet
    else reducedTotalSet) []

/-- `none` if it throws. -/
def findOverlappingDay (sortedSupp : Structure) :
    Option (OverlapContainer × SupplierPreferenceData) := do
  let (sets, preferenceSets) ← placeSuppliers sortedSupp (listDays sortedSupp)
  let viableResultFilter := dayReducer sets (minNum sortedSupp)
  let finalResult := viableResultFilter.take 1
  return (finalResult, preferenceSets)

/-! ## Combinations -/

section CombineArrays

variable {α : Type}

def formCombination (odometer : List ℕ) (array_of_arrays : List (List α)) : List (Option α) :=
  odometer.mapIdx fun odometer_index odometer_value =>
    array_of_arrays[odometer_index]?.bind fun array => array[odometer_value]?

/-- The `for` of `odometer_increment`, from the digit before the first argument. -/
def incrementFrom (array_of_arrays : List (List α)) : ℕ → List ℕ → Bool × List ℕ
  | 0, odometer => (false, odometer)
  | i_odometer_digit + 1, odometer =>
    let maxee := (array_of_arrays[i_odometer_digit]?.getD []).length - 1
    let digit := odometer[i_odometer_digit]?.getD 0
    if digit + 1 ≤ maxee then (true, odometer.set i_odometer_digit (digit + 1))
    else if i_odometer_digit = 0 then (false, odometer)
    else incrementFrom array_of_arrays i_odometer_digit (odometer.set i_odometer_digit 0)

/-- Whether the odometer was incremented, and what it is then. -/
def odometer_increment (odometer : List ℕ) (array_of_arrays : List (List α)) : Bool × List ℕ :=
  incrementFrom array_of_arrays odometer.length odometer

/-- The `while` of `combineArrays`; `none` if it has not ended after so many turns. -/
def combineLoop (array_of_arrays : List (List α)) :
    ℕ → List ℕ → List (List (Option α)) → Option (List (List (Option α)))
  | 0, _, _ => none
  | turns + 1, odometer, output =>
    match odometer_increment odometer array_of_arrays with
    | (true, odometer) =>
      combineLoop array_of_arrays turns odometer
        (output ++ [formCombination odometer array_of_arrays])
    | (false, _) => some output

def combineArrays (turns : ℕ) (array_of_arrays : List (List α)) :
    Option (List (List (Option α))) :=
  if array_of_arrays.length = 0 then some []
  else if array_of_arrays.any fun array => array.length = 0 then some []
  else
    let odometer := List.replicate array_of_arrays.length 0
    combineLoop array_of_arrays turns odometer [formCombination odometer array_of_arrays]

end CombineArrays

/-- `none` if it has not ended after so many turns of its loop. -/
def createUniqueSets (turns : ℕ) (coreSet : OverlapContainer) : Option (List (List (Option Str))) :=
  match coreSet with
  | [(_, cSuppliers)] => combineArrays turns (cSuppliers.map Prod.snd)
  | _ => some []

/-! ## Prices -/

/-- What a job asks for, as far as it has a price. -/
structure ReqContent where
  tech : ℤ
  taskLength : ℤ

/-- An entry of `optimalContainer`. -/
structure Selection (Number : Type) where
  supplierSet : List (Option Str)
  totalPrice : ℤ
  averageRating : Number

/-- What a supplier adds to the price of a set. -/
def priceOf (mjReqs : ReqContent) (currentMeta : Preference) : ℤ :=
  match currentMeta.supplierType with
  | .PORT => currentMeta.supplierCost
  | .SPARE => currentMeta.supplierCost * 1
  | .TECHNICIAN => currentMeta.supplierCost * 8 * mjReqs.tech * mjReqs.taskLength
  | .VESSEL => currentMeta.supplierCost * 1 * mjReqs.taskLength

/-- One turn of `supSet.map`, on the price and the reputation of the set so far; without
preferences for the id the reputation is no number from there on. -/
def addSupplier (metaDict : SupplierPreferenceData) (mjReqs : ReqContent)
    (set : ℤ × Option ℤ) (id : Option Str) : ℤ × Option ℤ :=
  match metaDict (id.getD "undefined".toList) with
  | some currentMeta =>
    (set.1 + priceOf mjReqs currentMeta, set.2.map (· + currentMeta.supplierReputation))
  | none => (set.1, none)

section FormatUniqueSets

-- a rating is the quotient of two numbers, or of `NaN`
variable {Number : Type} (divide : Option ℤ → ℕ → Number)

def formatSet (metaDict : SupplierPreferenceData) (mjReqs : ReqContent)
    (supSet : List (Option Str)) : Selection Number :=
  let (setPrice, setRep) := supSet.foldl (addSupplier metaDict mjReqs) (0, some 0)
  let avgdReputation := divide setRep supSet.length
  { supplierSet := supSet, totalPrice := setPrice, averageRating := avgdReputation }

def formatUniqueSets (uniqueSetIds : List (List (Option Str))) (metaDict : SupplierPreferenceData)
    (mjReqs : ReqContent) : Option (Selection Number) :=
  let optimalContainer := uniqueSetIds.map (formatSet divide metaDict mjReqs)
  optimalContainer[0]?

/-- The suppliers that have answered, an object by their addresses, each with its address as id. -/
def condensedSuppliers (availableSuppliers : List (Str × FileStructure)) : List FileStructure :=
  availableSuppliers.map fun curr =>
    { curr.2 with content := { curr.2.content with supplierId := curr.1 } }

/-- The final selection; `none` if something throws or the loop has not ended after so many
turns. -/
def finalSet (turns : ℕ) (availableSuppliers : List (Str × FileStructure)) (reqs : ReqContent) :
    Option (Option (Selection Number)) := do
  let (overlapContainer, overlapMetadata) ←
    findOverlappingDay (partitionSuppliers (condensedSuppliers availableSuppliers))
  let uniqueSets ← createUniqueSets turns overlapContainer
  return formatUniqueSets divide uniqueSets overlapMetadata reqs

end FormatUniqueSets

end Allign

end Baseline
