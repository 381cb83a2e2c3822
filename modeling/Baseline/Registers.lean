import Mathlib.Data.List.Basic

/-!
# What a run leaves in a register

A register is a part of a state that each step keeps or sets to a value of its own. After a run it
holds what the last step to set it has set, and what it held at first if none did
(`quiet_or_lastSet`, with `get_run_of_quiet` and `get_run_of_lastSet`). Under an invariant with
which no step of a kind sets the register, a run of such steps leaves it alone
(`quiet_of_invariant`).
-/

namespace Baseline

/-- A part of a state, and what a step sets it to. -/
structure Register (σ τ ν : Type*) where
  step : σ → τ → σ
  get : σ → ν
  set : σ → τ → Option ν
  get_step : ∀ s t, get (step s t) = (set s t).getD (get s)

namespace Register

variable {σ τ ν : Type*} (R : Register σ τ ν)

def run (s : σ) (ts : List τ) : σ := ts.foldl R.step s

/-- No step of the run sets the register. -/
def Quiet : σ → List τ → Prop
  | _, [] => True
  | s, t :: ts => R.set s t = none ∧ Quiet (R.step s t) ts

/-- The step `t`, which the steps `before` lead to, sets the register to `v`, and none of the rest
sets it. -/
structure LastSet (s : σ) (before : List τ) (t : τ) (after : List τ) (v : ν) : Prop where
  set_eq : R.set (R.run s before) t = some v
  quiet : R.Quiet (R.step (R.run s before) t) after

theorem get_run_of_quiet : ∀ (ts : List τ) {s : σ}, R.Quiet s ts → R.get (R.run s ts) = R.get s
  | [], _, _ => rfl
  | t :: ts, s, ⟨hset, hrest⟩ => by
    have hstep : R.get (R.step s t) = R.get s := by rw [R.get_step, hset, Option.getD_none]
    exact (get_run_of_quiet ts hrest).trans hstep

theorem get_run_of_lastSet {s : σ} {before after : List τ} {t : τ} {v : ν}
    (h : R.LastSet s before t after v) : R.get (R.run s (before ++ t :: after)) = v := by
  have hsplit : R.run s (before ++ t :: after) = R.run (R.step (R.run s before) t) after := by
    simp [run]
  rw [hsplit, R.get_run_of_quiet after h.quiet, R.get_step, h.set_eq, Option.getD_some]

/-- Either no step of a run sets the register, or one is the last to. -/
theorem quiet_or_lastSet : ∀ (ts : List τ) (s : σ),
    R.Quiet s ts ∨ ∃ before t after v, ts = before ++ t :: after ∧ R.LastSet s before t after v
  | [], _ => .inl trivial
  | t :: ts, s => by
    rcases quiet_or_lastSet ts (R.step s t) with hquiet | ⟨before, u, after, v, rfl, hlast⟩
    · cases hset : R.set s t with
      | none => exact .inl ⟨hset, hquiet⟩
      | some v => exact .inr ⟨[], t, ts, v, rfl, ⟨hset, hquiet⟩⟩
    · exact .inr ⟨t :: before, u, after, v, rfl, ⟨hlast.set_eq, hlast.quiet⟩⟩

theorem quiet_of_invariant {I : σ → Prop} {P : τ → Prop}
    (hstep : ∀ s t, I s → P t → R.set s t = none ∧ I (R.step s t)) :
    ∀ (ts : List τ) {s : σ}, I s → (∀ t ∈ ts, P t) → R.Quiet s ts ∧ I (R.run s ts)
  | [], _, hs, _ => ⟨trivial, hs⟩
  | t :: ts, s, hs, hts => by
    have ⟨hset, hnext⟩ := hstep s t hs (hts t List.mem_cons_self)
    have ⟨hquiet, hend⟩ := quiet_of_invariant hstep ts hnext
      fun u hu => hts u (List.mem_cons_of_mem t hu)
    exact ⟨⟨hset, hquiet⟩, hend⟩

end Register

end Baseline
