import Baseline.Await

/-!
# Processes that keep a discipline

A safe process stays safe when its await is served (`Safe.serve`), and, while it waits, when
another's is (`Safe.of_rely`). So a pool whose processes all keep a discipline goes on doing so
through every schedule the discipline allows (`Kept.step`, `Kept.runs`): the discipline's
invariant holds in every state, and a process that has ended is in its postcondition.
-/

namespace Await

variable {ι σ ε α β γ : Type}

/-- One condition from another, where an invariant holds that the other keeps. -/
theorem Along.of_inv {S E : Type*} {step : S → E → S} {C C' : S → E → Prop} {I : S → Prop}
    (hC : ∀ s e, I s → C s e → C' s e) (hstep : ∀ s e, I s → C s e → I (step s e)) :
    ∀ {es : List E} {s : S}, Along step C s es → I s → Along step C' s es
  | [], _, _, _ => trivial
  | _ :: _, _, ⟨h, hrest⟩, hs => ⟨hC _ _ hs h, hrest.of_inv hC hstep (hstep _ _ hs h)⟩

theorem Along.mono {S E : Type*} {step : S → E → S} {C C' : S → E → Prop}
    (hC : ∀ s e, C s e → C' s e) {es : List E} {s : S} (h : Along step C s es) :
    Along step C' s es :=
  h.of_inv (I := fun _ => True) (fun s e _ => hC s e) (fun _ _ _ _ => trivial) trivial

theorem Along.run {S E : Type*} {step : S → E → S} {C : S → E → Prop} {I : S → Prop}
    (hstep : ∀ s e, I s → C s e → I (step s e)) :
    ∀ {es : List E} {s : S}, Along step C s es → I s → I (es.foldl step s)
  | [], _, _, hs => hs
  | e :: _, s, ⟨hC, hrest⟩, hs => hrest.run hstep (hstep s e hs hC)

namespace Proc

@[simp] theorem pure_eq (a : α) : (pure a : Proc ι σ ε α) = ret a := rfl

@[simp] theorem ret_bind (a : α) (f : α → Proc ι σ ε β) : (ret a >>= f) = f a := rfl

@[simp] theorem throw_bind (e : ε) (f : α → Proc ι σ ε β) :
    ((throw e : Proc ι σ ε α) >>= f) = throw e := rfl

@[simp] theorem await_bind {δ : Type} (l : ι) (op : σ → δ × σ) (k : δ → Proc ι σ ε α)
    (f : α → Proc ι σ ε β) : (await l op k >>= f) = await l op fun b => k b >>= f := rfl

theorem bind_assoc (p : Proc ι σ ε α) (f : α → Proc ι σ ε β) (g : β → Proc ι σ ε γ) :
    (p >>= f) >>= g = p >>= fun a => f a >>= g := by
  induction p with
  | ret a => rfl
  | throw e => rfl
  | await l op k ih => simp only [await_bind, ih]

@[simp] theorem run_ret (a : α) (s : σ) : (ret a : Proc ι σ ε α).run s = (.ok a, s) := rfl

@[simp] theorem run_throw (e : ε) (s : σ) :
    (throw e : Proc ι σ ε α).run s = (.error e, s) := rfl

theorem run_await {δ : Type} (l : ι) (op : σ → δ × σ) (k : δ → Proc ι σ ε α) (s : σ) :
    (await l op k).run s = (k (op s).1).run (op s).2 := rfl

theorem run_bind (f : α → Proc ι σ ε β) : ∀ (p : Proc ι σ ε α) (s : σ), (p >>= f).run s =
    match p.run s with
    | (.ok a, s') => (f a).run s'
    | (.error e, s') => (.error e, s')
  | ret _, _ => rfl
  | throw _, _ => rfl
  | await _ op k, s => run_bind f (k (op s).1) (op s).2

theorem run_bind_ok {p : Proc ι σ ε α} {f : α → Proc ι σ ε β} {s s' : σ} {a : α}
    (h : p.run s = (.ok a, s')) : (p >>= f).run s = (f a).run s' := by rw [run_bind, h]

theorem run_bind_error {p : Proc ι σ ε α} {f : α → Proc ι σ ε β} {s s' : σ} {e : ε}
    (h : p.run s = (.error e, s')) : (p >>= f).run s = (.error e, s') := by rw [run_bind, h]

theorem run_tryCatch {ε' : Type} (handler : ε → Proc ι σ ε' α) :
    ∀ (p : Proc ι σ ε α) (s : σ), (p.tryCatch handler).run s =
      match p.run s with
      | (.ok a, s') => (.ok a, s')
      | (.error e, s') => (handler e).run s'
  | ret _, _ => rfl
  | throw _, _ => rfl
  | await _ op k, s => run_tryCatch handler (k (op s).1) (op s).2

theorem serve_of_ended {p : Proc ι σ ε α} {s : σ} (hp : p.point = none) : p.serve s = (p, s) := by
  cases p with
  | ret a => rfl
  | throw e => rfl
  | await l op k => cases hp

/-! ## Interrupted runs -/

section Throughout

variable {P P' : σ → Prop}

theorem Throughout.mono (hP : ∀ s, P s → P' s) : ∀ {p : Proc ι σ ε α} {s : σ},
    p.Throughout P s → p.Throughout P' s
  | ret _, _, h => hP _ h
  | throw _, _, h => hP _ h
  | await _ _ _, _, ⟨h, hrest⟩ => ⟨hP _ h, hrest.mono hP⟩

theorem Throughout.start : ∀ {p : Proc ι σ ε α} {s : σ}, p.Throughout P s → P s
  | ret _, _, h => h
  | throw _, _, h => h
  | await _ _ _, _, h => h.1

theorem Throughout.serve : ∀ {p : Proc ι σ ε α} {s : σ}, p.Throughout P s →
    (p.serve s).1.Throughout P (p.serve s).2
  | ret _, _, h => h
  | throw _, _, h => h
  | await _ _ _, _, h => h.2

theorem Throughout.serves : ∀ (n : ℕ) {p : Proc ι σ ε α} {s : σ}, p.Throughout P s →
    P (p.serves n s).2
  | 0, _, _, h => h.start
  | n + 1, _, _, h => Throughout.serves n h.serve

theorem Throughout.run : ∀ {p : Proc ι σ ε α} {s : σ}, p.Throughout P s → P (p.run s).2
  | ret _, _, h => h
  | throw _, _, h => h
  | await _ _ _, _, ⟨_, hrest⟩ => hrest.run

theorem Throughout.bind {f : α → Proc ι σ ε β} : ∀ {p : Proc ι σ ε α} {s : σ},
    p.Throughout P s → (∀ a s', p.run s = (.ok a, s') → (f a).Throughout P s') →
      (p >>= f).Throughout P s
  | ret a, s, _, hf => hf a s rfl
  | throw _, _, h, _ => h
  | await _ _ _, _, ⟨h, hrest⟩, hf => ⟨h, hrest.bind hf⟩

end Throughout

/-! ## What all accesses respect -/

section Within

variable {R R' : σ → σ → Prop}

theorem Within.mono (hR : ∀ s t, R s t → R' s t) : ∀ {p : Proc ι σ ε α}, p.Within R → p.Within R'
  | ret _, _ => trivial
  | throw _, _ => trivial
  | await _ _ _, h => fun s => ⟨hR _ _ (h s).1, (h s).2.mono hR⟩

theorem Within.bind {f : α → Proc ι σ ε β} (hf : ∀ a, (f a).Within R) :
    ∀ {p : Proc ι σ ε α}, p.Within R → (p >>= f).Within R
  | ret a, _ => hf a
  | throw _, _ => trivial
  | await _ _ _, h => fun s => ⟨(h s).1, (h s).2.bind hf⟩

theorem Within.serve (hrefl : ∀ s, R s s) {p : Proc ι σ ε α} (h : p.Within R) (s : σ) :
    R s (p.serve s).2 ∧ (p.serve s).1.Within R := by
  cases p with
  | ret a => exact ⟨hrefl s, trivial⟩
  | throw e => exact ⟨hrefl s, trivial⟩
  | await l op k => exact h s

theorem Within.run (hrefl : ∀ s, R s s) (htrans : ∀ {s t u}, R s t → R t u → R s u) :
    ∀ {p : Proc ι σ ε α}, p.Within R → ∀ s, R s (p.run s).2
  | ret _, _, s => hrefl s
  | throw _, _, s => hrefl s
  | await _ _ _, h, s => htrans (h s).1 ((h s).2.run hrefl htrans _)

end Within

section Always

variable {T : ι → σ → σ → Proc ι σ ε α → Prop}

theorem Always.serve {p : Proc ι σ ε α} {l : ι} (h : p.Always T) (hl : p.point = some l) (s : σ) :
    T l s (p.serve s).2 (p.serve s).1 ∧ (p.serve s).1.Always T := by
  cases p with
  | ret a => cases hl
  | throw e => cases hl
  | await m op k =>
    cases hl
    exact h s

theorem endsIn_ret (a : α) : ∀ n, (ret a : Proc ι σ ε α).EndsIn n
  | 0 => trivial
  | _ + 1 => trivial

theorem EndsIn.succ : ∀ {n : ℕ} {p : Proc ι σ ε α}, p.EndsIn n → p.EndsIn (n + 1)
  | _, ret _, _ => trivial
  | _, throw _, _ => trivial
  | _ + 1, await _ _ _, h => fun b => (h b).succ

theorem EndsIn.serve : ∀ {n : ℕ} {p : Proc ι σ ε α}, p.EndsIn n → ∀ s, (p.serve s).1.EndsIn n
  | _, ret _, h, _ => h
  | _, throw _, h, _ => h
  | _ + 1, await _ _ _, h, _ => (h _).succ

end Always

end Proc

namespace Discipline

variable {D : Discipline ι σ} {Q Q' : Except ε α → σ → Prop}

theorem Safe.mono (hQ : ∀ r s, Q r s → Q' r s) :
    ∀ {p : Proc ι σ ε α} {s : σ}, D.Safe Q p s → D.Safe Q' p s
  | .ret _, _, h => hQ _ _ h
  | .throw _, _, h => hQ _ _ h
  | .await _ _ _, _, h => fun s' hr hi hp =>
    let ⟨h1, h2, h3⟩ := h s' hr hi hp
    ⟨h1, h2, h3.mono hQ⟩

theorem Safe.bind {f : α → Proc ι σ ε β} {R : Except ε β → σ → Prop}
    (hok : ∀ a s, Q (.ok a) s → D.Safe R (f a) s) (herr : ∀ e s, Q (.error e) s → R (.error e) s) :
    ∀ {p : Proc ι σ ε α} {s : σ}, D.Safe Q p s → D.Safe R (p >>= f) s
  | .ret _, _, h => hok _ _ h
  | .throw _, _, h => herr _ _ h
  | .await _ _ _, _, h => fun s' hr hi hp =>
    let ⟨h1, h2, h3⟩ := h s' hr hi hp
    ⟨h1, h2, h3.bind hok herr⟩

theorem Safe.of_rely {p : Proc ι σ ε α} {s s' : σ} {l : ι} (h : D.Safe Q p s)
    (hl : p.point = some l) (hr : D.rely l s s') : D.Safe Q p s' := by
  cases p with
  | ret a => cases hl
  | throw e => cases hl
  | await m op k =>
    cases hl
    exact fun t ht => h t (D.rely_trans hr ht)

/-- What serving a safe process does. -/
theorem Safe.serve {p : Proc ι σ ε α} {s : σ} {l : ι} (h : D.Safe Q p s) (hl : p.point = some l)
    (hi : D.inv s) (hp : D.pre l s) :
    D.inv (p.serve s).2 ∧ D.guar l s (p.serve s).2 ∧ D.Safe Q (p.serve s).1 (p.serve s).2 := by
  cases p with
  | ret a => cases hl
  | throw e => cases hl
  | await m op k =>
    cases hl
    exact h s (D.rely_refl _ _) hi hp

/-- A safe process run alone ends in its postcondition, if its awaits are always served. -/
theorem Safe.run (hpre : ∀ l s, D.pre l s) :
    ∀ {p : Proc ι σ ε α} {s : σ}, D.Safe Q p s → D.inv s →
      D.inv (p.run s).2 ∧ Q (p.run s).1 (p.run s).2
  | .ret _, _, h, hi => ⟨hi, h⟩
  | .throw _, _, h, hi => ⟨hi, h⟩
  | .await l _ _, s, h, hi =>
    let ⟨h1, _, h3⟩ := h s (D.rely_refl l s) hi (hpre l s)
    h3.run hpre h1

section Pool

variable {Qs : ℕ → Except ε α → σ → Prop} {after : ι → ℕ → Prop} {P : Pool ι σ ε α}

theorem step_of_none {i : ℕ} (h : P.pointOf i = none) : P.step i = P := by
  unfold Pool.step
  unfold Pool.pointOf at h
  rcases hp : P.procs[i]? with _ | p
  · rfl
  · obtain ⟨hi, hpi⟩ := List.getElem?_eq_some_iff.1 hp
    rw [hp, Option.bind_some] at h
    subst hpi
    simp only [Proc.serve_of_ended h, List.set_getElem_self]

theorem Kept.step (hQ : ∀ j r l s t, after l j → D.guar l s t → Qs j r s → Qs j r t)
    (hk : D.Kept Qs P) {i : ℕ} (hA : D.Allows after P i) : D.Kept Qs (P.step i) := by
  rcases hl : P.pointOf i with _ | l
  · rw [step_of_none hl]
    exact hk
  obtain ⟨hpre, hothers⟩ := hA l hl
  obtain ⟨p, hp, hpl⟩ : ∃ p, P.procs[i]? = some p ∧ p.point = some l := by
    simpa only [Pool.pointOf, Option.bind_eq_some_iff] using hl
  obtain ⟨hinv, hguar, hsafe⟩ := (hk.safe i p hp).serve hpl hk.inv hpre
  have hstep : P.step i = { state := (p.serve P.state).2
                            procs := P.procs.set i (p.serve P.state).1 } := by
    rw [Pool.step, hp]
  rw [hstep]
  refine ⟨hinv, fun j q hq => ?_⟩
  rcases eq_or_ne j i with rfl | hne
  · obtain ⟨hj, -⟩ := List.getElem?_eq_some_iff.1 hp
    simp only [List.getElem?_set_self hj, Option.some.injEq] at hq
    exact hq ▸ hsafe
  · simp only [List.getElem?_set_ne hne.symm] at hq
    obtain ⟨hfits, hafter⟩ := hothers j q hne hq
    have hsafe' := hk.safe j q hq
    cases hm : q.point with
    | some m => exact hsafe'.of_rely hm (D.rely_of_guar (hfits m hm) hguar)
    | none =>
      cases q with
      | await m op k => cases hm
      | ret a => exact hQ j _ l _ _ (hafter rfl) hguar hsafe'
      | throw e => exact hQ j _ l _ _ (hafter rfl) hguar hsafe'

theorem Kept.guar (hk : D.Kept Qs P) {i : ℕ} (hA : D.Allows after P i) {l : ι}
    (hl : P.pointOf i = some l) : D.guar l P.state (P.step i).state := by
  obtain ⟨p, hp, hpl⟩ : ∃ p, P.procs[i]? = some p ∧ p.point = some l := by
    simpa only [Pool.pointOf, Option.bind_eq_some_iff] using hl
  obtain ⟨-, hguar, -⟩ := (hk.safe i p hp).serve hpl hk.inv (hA l hl).1
  rw [Pool.step, hp]
  exact hguar

theorem Kept.spawn (hk : D.Kept Qs P) {ps : List (Proc ι σ ε α)}
    (hps : ∀ k p, ps[k]? = some p → D.Safe (Qs (P.procs.length + k)) p P.state) :
    D.Kept Qs (P.spawn ps) := by
  refine ⟨hk.inv, fun i q hq => ?_⟩
  simp only [Pool.spawn] at hq
  rcases Nat.lt_or_ge i P.procs.length with hlt | hge
  · rw [List.getElem?_append_left hlt] at hq
    exact hk.safe i q hq
  · rw [List.getElem?_append_right hge] at hq
    have hsafe := hps (i - P.procs.length) q hq
    rwa [Nat.add_sub_cancel' hge] at hsafe

/-- The state changes from outside. -/
theorem Kept.setState (hk : D.Kept Qs P) {s : σ} (hi : D.inv s)
    (hr : ∀ l, D.rely l P.state s) (hQ : ∀ j r, Qs j r P.state → Qs j r s) :
    D.Kept Qs (P.setState s) := by
  refine ⟨hi, fun j q hq => ?_⟩
  have hsafe := hk.safe j q hq
  cases q with
  | await l op k => exact Safe.of_rely hsafe rfl (hr l)
  | ret a => exact hQ j _ hsafe
  | throw e => exact hQ j _ hsafe

theorem Kept.runs (hQ : ∀ j r l s t, after l j → D.guar l s t → Qs j r s → Qs j r t)
    (hk : D.Kept Qs P) {is : List ℕ} (hA : Along Pool.step (D.Allows after) P is) :
    D.Kept Qs (P.runs is) :=
  hA.run (fun _ _ hk hA => hk.step hQ hA) hk

theorem length_step (P : Pool ι σ ε α) (i : ℕ) : (P.step i).procs.length = P.procs.length := by
  unfold Pool.step
  split
  · exact List.length_set
  · rfl

theorem length_runs : ∀ (is : List ℕ) (P : Pool ι σ ε α),
    (P.runs is).procs.length = P.procs.length
  | [], _ => rfl
  | i :: is, P => (length_runs is (P.step i)).trans (length_step P i)

/-- A process that has ended is in its postcondition. -/
theorem Kept.ended (hk : D.Kept Qs P) (he : P.Ended) {i : ℕ} (hi : i < P.procs.length) :
    ∃ r, Qs i r P.state := by
  have hp := List.getElem?_eq_getElem hi
  have hs := hk.safe i _ hp
  have hn := he _ (List.getElem_mem hi)
  cases hq : P.procs[i] with
  | await l op k => rw [hq] at hn; cases hn
  | ret a => rw [hq] at hs; exact ⟨_, hs⟩
  | throw e => rw [hq] at hs; exact ⟨_, hs⟩

end Pool

end Discipline

end Await
