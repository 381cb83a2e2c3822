import Baseline.Conversions
import Mathlib.Data.List.Infix

/-!
# `NatsService.unsubscribe`

`providers/nats/nats.ts` of the messaging package, over the service of the `ts-natsutil` package. An
error is its message.
-/

namespace Baseline

namespace Nats

open Conversions

/-- What is called of a service with states `σ`. -/
structure INatsService (σ : Type*) where
  getSubscribedSubjects : σ → List Str
  unsubscribe : σ → Str → σ

/-- The field `service`, set by `connect` and reset to `null` by `disconnect`. -/
inductive Field (σ : Type*)
  | undefined
  | null
  | set (service : σ)

variable {σ : Type*} (api : INatsService σ)

def getSubjectsToUnsubscribeFrom (service : σ) (subject : Str) : List Str :=
  let subscribedTo := api.getSubscribedSubjects service
  let substrsToMatch := (subject.takeWhile (· ≠ '>')).splitOn '*'
  subscribedTo.foldl (fun unsubscribeFrom subscribedSubject =>
    let subjectIncludesAllSubstrings := substrsToMatch.foldl (fun included substr =>
      if ¬ substr <:+: subscribedSubject ∧ substr ≠ [] then false else included) true
    if subjectIncludesAllSubstrings then unsubscribeFrom ++ [subscribedSubject]
    else unsubscribeFrom) []

/-- The state the service is left in. -/
def unsubscribe (service : Field σ) (subject : Str) : Except Str σ :=
  match service with
  | .undefined => throw "Cannot read property 'getSubscribedSubjects' of undefined".toList
  | .null => throw "Cannot read property 'getSubscribedSubjects' of null".toList
  | .set service =>
    let unsubscribeFrom := getSubjectsToUnsubscribeFrom api service subject
    return unsubscribeFrom.foldl api.unsubscribe service

end Nats

end Baseline
