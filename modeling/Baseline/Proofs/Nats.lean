import Baseline.Nats
import Baseline.Subjects

/-!
# Which subscriptions `unsubscribe` ends

It ends those whose subject has every piece of the pattern somewhere in it (`mem_unsubscribe`). All
subjects that match are among them (`includes_of_matches`), but so is each that has the pieces in
other places or within longer tokens, and the pattern is kept to only where no such subject is
subscribed (`unsubscribe_matching_iff`).
-/

namespace Baseline

namespace Nats

open Conversions Subjects

/-! ## The pieces of a pattern -/

section Pieces

/-- Every piece of the pattern is somewhere in the subject. -/
def Includes (subject subscribed : Str) : Prop :=
  ∀ substr ∈ pieces '*' '>' subject, substr <:+: subscribed

instance (subject subscribed : Str) : Decidable (Includes subject subscribed) :=
  inferInstanceAs (Decidable (∀ substr ∈ _, _))

/-- The subject matches by its tokens, as a server matches it. -/
def MatchesSubject (subject subscribed : Str) : Prop := MatchesText '.' '*' '>' subject subscribed

instance (subject subscribed : Str) : Decidable (MatchesSubject subject subscribed) :=
  inferInstanceAs (Decidable (MatchesText _ _ _ _ _))

theorem includes_of_matches {subject subscribed : Str} (h : MatchesSubject subject subscribed) :
    Includes subject subscribed :=
  infix_of_matches h

theorem foldl_included (subscribed : Str) : ∀ (substrs : List Str) (included : Bool),
    substrs.foldl (fun included substr =>
        if ¬ substr <:+: subscribed ∧ substr ≠ [] then false else included) included = true ↔
      included = true ∧ ∀ substr ∈ substrs, substr <:+: subscribed
  | [], included => by simp
  | substr :: substrs, included => by
    rw [List.foldl_cons, foldl_included subscribed substrs, List.forall_mem_cons, ← and_assoc]
    refine and_congr_left fun _ => ?_
    by_cases h : substr <:+: subscribed
    · simp [h]
    · have hne : substr ≠ [] := fun hnil => h (hnil ▸ List.nil_infix)
      simp [h, hne]

end Pieces

/-! ## The loops -/

section Loops

variable {σ : Type*} {api : INatsService σ}

theorem foldl_append_of {p : Str → Prop} [DecidablePred p] : ∀ xs acc : List Str,
    xs.foldl (fun acc x => if p x then acc ++ [x] else acc) acc = acc ++ xs.filter p
  | [], acc => (List.append_nil acc).symm
  | x :: xs, acc => by
    rw [List.foldl_cons, foldl_append_of xs]
    by_cases hx : p x
    · rw [if_pos hx, List.filter_cons_of_pos (by simpa using hx), List.append_assoc]
      rfl
    · rw [if_neg hx, List.filter_cons_of_neg (by simpa using hx)]

theorem getSubjectsToUnsubscribeFrom_eq (service : σ) (subject : Str) :
    getSubjectsToUnsubscribeFrom api service subject
      = (api.getSubscribedSubjects service).filter (Includes subject ·) := by
  unfold getSubjectsToUnsubscribeFrom
  simp only [foldl_append_of, List.nil_append]
  exact List.filter_congr fun s _ =>
    decide_eq_decide.2 ((foldl_included s _ true).trans (and_iff_right rfl))

variable (api) in
/-- To unsubscribe from a subject removes it and no other. -/
def Forgets : Prop :=
  ∀ service subject s, s ∈ api.getSubscribedSubjects (api.unsubscribe service subject) ↔
    s ∈ api.getSubscribedSubjects service ∧ s ≠ subject

theorem mem_foldl_unsubscribe (h : Forgets api) (s : Str) : ∀ (subjects : List Str) (service : σ),
    s ∈ api.getSubscribedSubjects (subjects.foldl api.unsubscribe service) ↔
      s ∈ api.getSubscribedSubjects service ∧ s ∉ subjects
  | [], service => by simp
  | subject :: subjects, service => by
    rw [List.foldl_cons, mem_foldl_unsubscribe h s subjects, h, List.mem_cons, not_or, and_assoc]

theorem mem_unsubscribe (h : Forgets api) (service : σ) (subject : Str) :
    ∃ after, unsubscribe api (.set service) subject = .ok after ∧
      ∀ s, s ∈ api.getSubscribedSubjects after ↔
        s ∈ api.getSubscribedSubjects service ∧ ¬ Includes subject s := by
  refine ⟨_, rfl, fun s => ?_⟩
  rw [mem_foldl_unsubscribe h, getSubjectsToUnsubscribeFrom_eq, List.mem_filter, decide_eq_true_iff]
  exact and_congr_right fun hs => not_congr (and_iff_right hs)

end Loops

/-! ## What `unsubscribe` is for -/

section Matching

variable {σ : Type*} (api : INatsService σ)

/-- The subjects that match the pattern are unsubscribed from, and the others stay. -/
def UnsubscribesMatching (service : σ) (subject : Str) : Prop :=
  ∃ after, unsubscribe api (.set service) subject = .ok after ∧
    ∀ s, s ∈ api.getSubscribedSubjects after ↔
      s ∈ api.getSubscribedSubjects service ∧ ¬ MatchesSubject subject s

variable {api}

theorem unsubscribesMatching_iff (h : Forgets api) (service : σ) (subject : Str) :
    UnsubscribesMatching api service subject ↔
      ∀ s ∈ api.getSubscribedSubjects service, Includes subject s → MatchesSubject subject s := by
  obtain ⟨after, hafter, hmem⟩ := mem_unsubscribe h service subject
  constructor
  · rintro ⟨after', hafter', hmem'⟩ s hs hincludes
    obtain rfl : after = after' := Except.ok.inj (hafter.symm.trans hafter')
    by_contra hmatches
    exact ((hmem s).1 ((hmem' s).2 ⟨hs, hmatches⟩)).2 hincludes
  · intro hall
    refine ⟨after, hafter, fun s => (hmem s).trans (and_congr_right fun hs => not_congr ?_)⟩
    exact ⟨hall s hs, includes_of_matches⟩

theorem unsubscribe_matching_iff (h : Forgets api) (service : σ) (subject : Str) :
    (UnsubscribesMatching api service subject ↔
      ∀ s ∈ api.getSubscribedSubjects service, Includes subject s →
        ¬ Departs ['*'] ['>'] (tokens '.' subject) (tokens '.' s)) ∧
    (['*'] ∉ tokens '.' subject → (tokens '.' subject).getLast? ≠ some ['>'] →
      (UnsubscribesMatching api service subject ↔
        ∀ s ∈ api.getSubscribedSubjects service, Includes subject s → subject = s)) := by
  rw [unsubscribesMatching_iff h]
  refine ⟨forall₂_congr fun s _ => imp_congr_right fun _ => matches_iff _ _, fun hany hrest => ?_⟩
  exact forall₂_congr fun s _ => imp_congr_right fun _ => matches_iff_eq hany hrest

/-- A service that is no more than its subjects. -/
def subjectList : INatsService (List Str) where
  getSubscribedSubjects subjects := subjects
  unsubscribe subjects subject := subjects.filter (· ≠ subject)

theorem forgets_subjectList : Forgets subjectList := by
  intro service subject s
  simp [subjectList]

theorem unsubscribe_matching_wildcard :
    Forgets subjectList ∧
      UnsubscribesMatching subjectList ["a.b.c".toList, "a.b.d".toList] "a.*.c".toList := by
  refine ⟨forgets_subjectList, (unsubscribe_matching_iff forgets_subjectList _ _).1.2 ?_⟩
  intro s hs hincludes
  rw [← matches_iff]
  revert hincludes
  revert s
  decide

/-- A subject goes with each one that it is the beginning of. -/
theorem unsubscribe_longer :
    Forgets subjectList ∧
      unsubscribe subjectList (.set ["a.b".toList, "a.bc".toList]) "a.b".toList = .ok [] ∧
      ¬ MatchesSubject "a.b".toList "a.bc".toList ∧
      ¬ UnsubscribesMatching subjectList ["a.b".toList, "a.bc".toList] "a.b".toList := by
  refine ⟨forgets_subjectList, by rfl, by decide, fun hmatching => ?_⟩
  have hall := (unsubscribesMatching_iff forgets_subjectList _ _).1 hmatching
  exact absurd (hall "a.bc".toList (List.mem_cons_of_mem _ List.mem_cons_self) (by decide))
    (by decide)

end Matching

end Nats

end Baseline
