import Mathlib.Data.List.Basic
import Mathlib.Data.List.Infix

/-!
# Subjects and their patterns

A subject is a text of tokens. Among a pattern's tokens `any` stands for one token of the subject,
and `rest`, if it is the last, for one or more. Every other token stands for itself, so what matches
is what departs from the pattern nowhere (`matches_iff`), and a pattern without wildcards matches
one subject (`matches_iff_eq`). A subject that matches has all the text of the pattern between its
wildcards, in that order (`covers_of_matches`), hence each piece of it somewhere
(`infix_of_matches`). The converse does not hold.
-/

namespace Subjects

/-! ## Tokens -/

section Tokens

variable {β : Type*} [DecidableEq β] (any rest : β)

def Matches : List β → List β → Prop
  | [], ts => ts = []
  | _ :: _, [] => False
  | p :: ps, t :: ts => p = rest ∧ ps = [] ∨ (p = any ∨ p = t) ∧ Matches ps ts

instance decidableMatches : ∀ ps ts : List β, Decidable (Matches any rest ps ts)
  | [], ts => inferInstanceAs (Decidable (ts = []))
  | _ :: _, [] => inferInstanceAs (Decidable False)
  | p :: ps, t :: ts =>
    have := decidableMatches ps ts
    inferInstanceAs (Decidable (p = rest ∧ ps = [] ∨ (p = any ∨ p = t) ∧ Matches any rest ps ts))

/-- At some place the pattern asks for another token than the subject has there. -/
def Differs (ps ts : List β) : Prop :=
  ∃ i, ∃ p ∈ ps[i]?, ∃ t ∈ ts[i]?, p ≠ t ∧ p ≠ any ∧ ¬ (p = rest ∧ i + 1 = ps.length)

/-- The subject has too few tokens or too many, or another one somewhere. -/
def Departs (ps ts : List β) : Prop :=
  (if ps.getLast? = some rest then ts.length < ps.length else ts.length ≠ ps.length) ∨
    Differs any rest ps ts

variable {any rest}

omit [DecidableEq β] in
theorem differs_cons (p t : β) (ps ts : List β) :
    Differs any rest (p :: ps) (t :: ts) ↔
      p ≠ t ∧ p ≠ any ∧ ¬ (p = rest ∧ ps = []) ∨ Differs any rest ps ts := by
  rw [Differs, ← Nat.or_exists_add_one]
  simp [Differs, eq_comm]

theorem matches_iff : ∀ ps ts : List β, Matches any rest ps ts ↔ ¬ Departs any rest ps ts
  | [], ts => by
    simp [Matches, Departs, Differs]
  | p :: ps, [] => by
    simp [Matches, Departs]
  | [p], t :: ts => by
    have hnil : ¬ Differs any rest [] ts := by simp [Differs]
    rw [Matches, Departs, differs_cons]
    by_cases hp : p = rest
    · simp [hp, hnil]
    · simp only [hp, and_true, Matches, false_or, List.getLast?_singleton, Option.some.injEq,
        ↓reduceIte, List.length_cons, List.length_nil, Nat.zero_add, ne_eq, Nat.add_eq_right,
        List.length_eq_zero_iff, not_false_eq_true, hnil, or_false, not_or, Decidable.not_not]
      tauto
  | p :: q :: ps, t :: ts => by
    have ih := matches_iff (q :: ps) ts
    rw [Departs] at ih
    rw [Matches, ih, Departs, differs_cons, List.getLast?_cons_cons]
    simp only [reduceCtorEq, and_false, List.length_cons, ne_eq, not_or, false_or,
      Nat.add_lt_add_iff_right, Nat.add_right_cancel_iff, not_false_eq_true,
      and_true]
    tauto

omit [DecidableEq β] in
theorem matches_iff_eq_of_not_mem : ∀ {ps : List β}, any ∉ ps → ps.getLast? ≠ some rest →
    ∀ ts, Matches any rest ps ts ↔ ps = ts
  | [], _, _, ts => eq_comm
  | p :: ps, _, _, [] => ⟨False.elim, fun h => absurd h (List.cons_ne_nil p ps)⟩
  | [p], hany, hrest, t :: ts => by
    have hp : p ≠ rest := fun h => hrest (congrArg some h)
    have hp' : p ≠ any := fun h => hany (List.mem_singleton.2 h.symm)
    simp [Matches, hp, hp', eq_comm]
  | p :: q :: ps, hany, hrest, t :: ts => by
    rw [List.mem_cons, not_or] at hany
    rw [List.getLast?_cons_cons] at hrest
    rw [Matches, matches_iff_eq_of_not_mem hany.2 hrest ts]
    simp [Ne.symm hany.1]

end Tokens

/-! ## Texts -/

section Texts

variable {α : Type*} (any rest : α)

/-- The second text has the letters of the first, with any text in the place of an `any` and past a
`rest` or the end. -/
inductive Covers : List α → List α → Prop
  | nil (s : List α) : Covers [] s
  | rest (p s : List α) : Covers (rest :: p) s
  | any (t : List α) {p s : List α} (h : Covers p s) : Covers (any :: p) (t ++ s)
  | cons (c : α) {p s : List α} (h : Covers p s) : Covers (c :: p) (c :: s)

variable {any rest}

theorem Covers.append_left {p s : List α} (h : Covers any rest p s) : ∀ q : List α,
    Covers any rest (q ++ p) (q ++ s)
  | [] => h
  | c :: q => .cons c (h.append_left q)

theorem Covers.refl (p : List α) : Covers any rest p p := by
  have h : Covers any rest (p ++ []) (p ++ []) := (Covers.nil []).append_left p
  rwa [List.append_nil] at h

theorem covers_of_matches (dot : α) : ∀ {ps ts : List (List α)}, Matches [any] [rest] ps ts →
    Covers any rest ([dot].intercalate ps) ([dot].intercalate ts)
  | [], ts, _ => .nil _
  | [p], t :: ts, h => by
    rcases h with ⟨rfl, -⟩ | ⟨rfl | rfl, rfl⟩
    · rw [List.intercalate_singleton]
      exact .rest [] _
    · rw [List.intercalate_singleton, List.intercalate_singleton, ← List.append_nil t]
      exact .any t (.nil [])
    · exact .refl _
  | p :: q :: ps, t :: ts, h => by
    obtain ⟨hp, h⟩ := h.resolve_left fun h => List.cons_ne_nil q ps h.2
    rcases ts with _ | ⟨t', ts⟩
    · exact h.elim
    have hrest := (covers_of_matches dot h).cons dot
    rw [List.intercalate_cons_cons, List.intercalate_cons_cons, List.append_assoc,
      List.append_assoc]
    rcases hp with rfl | rfl
    · exact hrest.any t
    · exact hrest.append_left p

variable [DecidableEq α]

variable (any rest) in
/-- The texts of a pattern before its first `rest` and between one `any` and the next. -/
def pieces (p : List α) : List (List α) := (p.takeWhile (· ≠ rest)).splitOn any

theorem pieces_cons (c : α) (p : List α) :
    pieces any rest (c :: p) = if c = rest then [[]] else
      if c = any then [] :: pieces any rest p else (pieces any rest p).modifyHead (c :: ·) := by
  unfold pieces
  by_cases hrest : c = rest
  · simp [hrest]
  have htake : (c :: p).takeWhile (· ≠ rest) = c :: p.takeWhile (· ≠ rest) := by simp [hrest]
  rw [htake, List.splitOn_cons_eq_if_modifyHead, if_neg hrest]
  simp only [beq_iff_eq]

/-- The first piece is where the text begins, and the others come later. -/
theorem Covers.pieces {p s : List α} (h : Covers any rest p s) :
    ∃ first others, pieces any rest p = first :: others ∧ first <+: s ∧
      ∀ piece ∈ others, piece <:+: s := by
  induction h with
  | nil s => exact ⟨[], [], rfl, List.nil_prefix, by simp⟩
  | rest p s => exact ⟨[], [], by rw [pieces_cons, if_pos rfl], List.nil_prefix, by simp⟩
  | any t h ih =>
    obtain ⟨first, others, hp, hfirst, hothers⟩ := ih
    by_cases hrest : any = rest
    · exact ⟨[], [], by rw [pieces_cons, if_pos hrest], List.nil_prefix, by simp⟩
    refine ⟨[], first :: others, ?_, List.nil_prefix, ?_⟩
    · rw [pieces_cons, if_neg hrest, if_pos rfl, hp]
    · exact List.forall_mem_cons.2 ⟨List.infix_append_of_infix_right hfirst.isInfix,
        fun piece hpiece => List.infix_append_of_infix_right (hothers piece hpiece)⟩
  | cons c h ih =>
    obtain ⟨first, others, hp, hfirst, hothers⟩ := ih
    rw [pieces_cons, hp]
    split_ifs with hrest hany
    · exact ⟨[], [], rfl, List.nil_prefix, by simp⟩
    · refine ⟨[], first :: others, rfl, List.nil_prefix, ?_⟩
      exact List.forall_mem_cons.2 ⟨List.infix_cons hfirst.isInfix,
        fun piece hpiece => List.infix_cons (hothers piece hpiece)⟩
    · exact ⟨c :: first, others, rfl, List.cons_prefix_cons.2 ⟨rfl, hfirst⟩,
        fun piece hpiece => List.infix_cons (hothers piece hpiece)⟩

end Texts

/-! ## Subjects -/

section Subjects

variable {α : Type*} [DecidableEq α] (dot any rest : α)

def tokens (s : List α) : List (List α) := s.splitOn dot

def MatchesText (pattern s : List α) : Prop :=
  Matches [any] [rest] (tokens dot pattern) (tokens dot s)

instance (pattern s : List α) : Decidable (MatchesText dot any rest pattern s) :=
  inferInstanceAs (Decidable (Matches _ _ _ _))

variable {dot any rest} {pattern s : List α}

theorem infix_of_matches (h : MatchesText dot any rest pattern s) :
    ∀ piece ∈ pieces any rest pattern, piece <:+: s := by
  have hcovers := covers_of_matches dot h
  rw [tokens, tokens, List.intercalate_splitOn, List.intercalate_splitOn] at hcovers
  obtain ⟨first, others, hp, hfirst, hothers⟩ := hcovers.pieces
  rw [hp]
  exact List.forall_mem_cons.2 ⟨hfirst.isInfix, hothers⟩

theorem tokens_inj : tokens dot pattern = tokens dot s ↔ pattern = s := by
  refine ⟨fun h => ?_, congrArg _⟩
  have hjoin := congrArg [dot].intercalate h
  rwa [tokens, tokens, List.intercalate_splitOn, List.intercalate_splitOn] at hjoin

theorem matches_iff_eq (hany : [any] ∉ tokens dot pattern)
    (hrest : (tokens dot pattern).getLast? ≠ some [rest]) :
    MatchesText dot any rest pattern s ↔ pattern = s :=
  (matches_iff_eq_of_not_mem hany hrest _).trans tokens_inj

end Subjects

end Subjects
