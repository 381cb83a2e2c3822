import Baseline.Allign
import Baseline.Avail
import Mathlib.Data.List.Infix

/-!
# The maintenance schedule

The rest of `extract.ts` of the base example: the lines of the schedule files that have a priority
are read as jobs. What a file has is a parameter, and `none` stands for what cannot be read.
-/

namespace Baseline

namespace Extract

open Avail

inductive Priority
  | HIGH
  | MEDIUM
  | LOW
  deriving DecidableEq

/-- What a job asks for, that which has no price included. -/
structure ReqContent extends Allign.ReqContent where
  spare : Str
  vessel : Str
  port : Str

/-- A job with all its fields. There is no turbine on a line that is too short, and there are no
requirements of a code that the catalogue does not have. -/
structure Job extends Jobs.Job where
  wtId : Option Str
  tw : ℤ × ℤ
  reqs : Option ReqContent

def MJcodes (code : ℤ) : Option ReqContent :=
  if code = 11 ∨ code = 22 then some
    { spare := "none".toList, vessel := "CTV".toList, tech := 2, port := "no".toList,
      taskLength := 1 }
  else if code = 33 then some
    { spare := "GB oil".toList, vessel := "CTV".toList, tech := 2, port := "no".toList,
      taskLength := 1 }
  else if code = 44 then some
    { spare := "Gearbox replacement".toList, vessel := "HLV".toList, tech := 12,
      port := "yes".toList, taskLength := 3 }
  else none

/-- A code that is missing is read as the text `undefined`, which is no number and no case. -/
def jobFormatter (jobs : List Str) : List Job :=
  jobs.map fun job =>
    let _job := job.splitOn ','
    { id := parseOr (-1) _job[0]?
      wtId := _job[2]?
      mJCode := _job[3]?.getD "undefined".toList
      tw := (parseOr (-1) _job[4]?, parseOr (-1) _job[5]?)
      reqs := (_job[3]?.bind parseInteger).bind MJcodes }

def prio : Priority → Str
  | .HIGH => "HIGH".toList
  | .MEDIUM => "MED".toList
  | .LOW => "LOW".toList

/-- `item.match(new RegExp('"\\b' + prio + '\\b"', "gi"))`. Next to a quote and a letter there is
always a word boundary, and a letter is matched in both its cases. -/
def isMatch (priority : Priority) (item : Str) : Bool :=
  '"' :: (prio priority ++ ['"']) <:+: item.map Char.toUpper

/-- The guard on the names of the files lets every list pass, as an array is never falsy. -/
def retrieveJobs (readFileSync : Str → Option Str) (scheduleList : List Str)
    (priority : Priority) : List Job :=
  let scheduleData := scheduleList.filterMap fun _file => fileReader (readFileSync _file)
  if scheduleData.length = 0 then []
  else
    let jobs := scheduleData.flatMap fun fileContents =>
      ((fileContents.splitOn '\n').filter (isMatch priority)).map fun item =>
        item.filter fun c => c ≠ '"'
    if jobs.length = 0 then [] else jobFormatter jobs

end Extract

end Baseline
