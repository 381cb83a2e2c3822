import Mathlib.Data.List.Basic

/-!
# Cooperative processes over a shared state

An asynchronous function runs without interruption from one `await` to the next. A process is
such a function as the sequence of its awaits: each names the point it is at, acts on the shared
state atomically when it is served, and hands what it got to the rest. Run alone (`Proc.run`) it
is a function of the state; in a `Pool` the awaits of several processes are served in any order.

A `Discipline` says what a process waiting at a point relies on and what it guarantees when it is
served there, and which awaits may be served while others wait. `Proc.Safe` is a process that
keeps a discipline, whatever the others do within it.

A process may also stop for good after any of its awaits (`Proc.serves`); what holds throughout a
run holds of every such state.
-/

namespace Await

/-- Every step of a run meets a condition where it is taken. -/
def Along {S E : Type*} (step : S → E → S) (C : S → E → Prop) : S → List E → Prop
  | _, [] => True
  | s, e :: es => C s e ∧ Along step C (step s e) es

instance decidableAlong {S E : Type*} {step : S → E → S} {C : S → E → Prop}
    [∀ s e, Decidable (C s e)] : ∀ (s : S) (es : List E), Decidable (Along step C s es)
  | _, [] => isTrue trivial
  | s, e :: es =>
    have : Decidable (Along step C (step s e) es) := decidableAlong (step s e) es
    inferInstanceAs (Decidable (C s e ∧ Along step C (step s e) es))

/-- A process with await points `ι`, shared state `σ` and exceptions `ε`. -/
inductive Proc (ι σ ε : Type) (α : Type) : Type 1
  | ret (a : α)
  | throw (e : ε)
  | await {β : Type} (l : ι) (op : σ → β × σ) (k : β → Proc ι σ ε α)

variable {ι σ ε ε' α β γ : Type}

namespace Proc

protected def bind : Proc ι σ ε α → (α → Proc ι σ ε β) → Proc ι σ ε β
  | ret a, f => f a
  | throw e, _ => throw e
  | await l op k, f => await l op fun b => (k b).bind f

instance : Monad (Proc ι σ ε) where
  pure := ret
  bind := Proc.bind

/-- `try` and `catch`. -/
protected def tryCatch : Proc ι σ ε α → (ε → Proc ι σ ε' α) → Proc ι σ ε' α
  | ret a, _ => ret a
  | throw e, handler => handler e
  | await l op k, handler => await l op fun b => (k b).tryCatch handler

/-- The process run alone, to its end. -/
def run : Proc ι σ ε α → σ → Except ε α × σ
  | ret a, s => (.ok a, s)
  | throw e, s => (.error e, s)
  | await _ op k, s => (k (op s).1).run (op s).2

/-- The point the process waits at, if it has not ended. -/
def point : Proc ι σ ε α → Option ι
  | await l _ _ => some l
  | _ => none

/-- One await served. -/
def serve : Proc ι σ ε α → σ → Proc ι σ ε α × σ
  | await _ op k, s => (k (op s).1, (op s).2)
  | p, s => (p, s)

/-- The process interrupted once so many awaits were served. -/
def serves : ℕ → Proc ι σ ε α → σ → Proc ι σ ε α × σ
  | 0, p, s => (p, s)
  | n + 1, p, s => serves n (p.serve s).1 (p.serve s).2

/-- Run alone, the process is never in a state without `P`, from the first to the last. -/
def Throughout (P : σ → Prop) : Proc ι σ ε α → σ → Prop
  | ret _, s => P s
  | throw _, s => P s
  | await _ op k, s => P s ∧ Throughout P (k (op s).1) (op s).2

/-- In whatever state it is served, an access of the process changes the state within `R`. -/
def Within (R : σ → σ → Prop) : Proc ι σ ε α → Prop
  | ret _ => True
  | throw _ => True
  | await _ op k => ∀ s, R s (op s).2 ∧ Within R (k (op s).1)

/-- In whatever state it is served, an access does what `T` says of its point, the states before and
after, and the rest. -/
def Always (T : ι → σ → σ → Proc ι σ ε α → Prop) : Proc ι σ ε α → Prop
  | ret _ => True
  | throw _ => True
  | await l op k => ∀ s, T l s (op s).2 (k (op s).1) ∧ Always T (k (op s).1)

/-- The process has ended once so many of its accesses are served. -/
def EndsIn : ℕ → Proc ι σ ε α → Prop
  | _, ret _ => True
  | _, throw _ => True
  | 0, await _ _ _ => False
  | n + 1, await _ _ k => ∀ b, EndsIn n (k b)

end Proc

/-- Processes over one state. -/
structure Pool (ι σ ε α : Type) where
  state : σ
  procs : List (Proc ι σ ε α)

namespace Pool

/-- Serve the await process `i` is at; nothing happens if it has ended. -/
def step (P : Pool ι σ ε α) (i : ℕ) : Pool ι σ ε α :=
  match P.procs[i]? with
  | some p => { state := (p.serve P.state).2, procs := P.procs.set i (p.serve P.state).1 }
  | none => P

/-- Start more processes. -/
def spawn (P : Pool ι σ ε α) (ps : List (Proc ι σ ε α)) : Pool ι σ ε α :=
  { P with procs := P.procs ++ ps }

/-- The point process `i` waits at. -/
def pointOf (P : Pool ι σ ε α) (i : ℕ) : Option ι := P.procs[i]?.bind Proc.point

/-- Serve the processes of a schedule in turn. -/
def runs (P : Pool ι σ ε α) (is : List ℕ) : Pool ι σ ε α := is.foldl step P

/-- Something else acts on the state. -/
def setState (P : Pool ι σ ε α) (s : σ) : Pool ι σ ε α := { P with state := s }

/-- Every process has ended. -/
def Ended (P : Pool ι σ ε α) : Prop := ∀ p ∈ P.procs, p.point = none

instance [DecidableEq ι] (P : Pool ι σ ε α) : Decidable P.Ended :=
  inferInstanceAs (Decidable (∀ p ∈ P.procs, p.point = none))

end Pool

/-- What the processes waiting at given points count on, and what each keeps when it is served. -/
structure Discipline (ι σ : Type) where
  inv : σ → Prop
  /-- What has to hold for the await at a point to be served. -/
  pre : ι → σ → Prop
  /-- Whether an await may be served while another process waits. -/
  fits : ι → ι → Prop
  rely : ι → σ → σ → Prop
  guar : ι → σ → σ → Prop
  rely_refl : ∀ l s, rely l s s
  rely_trans : ∀ {l s t u}, rely l s t → rely l t u → rely l s u
  rely_of_guar : ∀ {l m s t}, fits l m → guar l s t → rely m s t

namespace Discipline

variable (D : Discipline ι σ)

/-- The process keeps the discipline, as long as the others do, and ends in `Q`. -/
def Safe (Q : Except ε α → σ → Prop) : Proc ι σ ε α → σ → Prop
  | .ret a, s => Q (.ok a) s
  | .throw e, s => Q (.error e) s
  | .await l op k, s => ∀ s', D.rely l s s' → D.inv s' → D.pre l s' →
      D.inv (op s').2 ∧ D.guar l s' (op s').2 ∧ Safe Q (k (op s').1) (op s').2

/-- The discipline lets process `i` be served: the await fits those the others wait at, and
`after` allows it to follow the end of those that have ended. -/
def Allows (after : ι → ℕ → Prop) (P : Pool ι σ ε α) (i : ℕ) : Prop :=
  ∀ l, P.pointOf i = some l → D.pre l P.state ∧
    ∀ j p, j ≠ i → P.procs[j]? = some p →
      (∀ m, p.point = some m → D.fits l m) ∧ (p.point = none → after l j)

/-- Every process of the pool keeps the discipline from where it is, process `i` to end in `Q i`. -/
structure Kept (Q : ℕ → Except ε α → σ → Prop) (P : Pool ι σ ε α) : Prop where
  inv : D.inv P.state
  safe : ∀ i p, P.procs[i]? = some p → D.Safe (Q i) p P.state

end Discipline

end Await
