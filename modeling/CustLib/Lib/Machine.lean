import Mathlib.Data.List.Induction
import Mathlib.Logic.Basic

/-!
# Machines: partial steps and their runs

A machine is a partial step function `step : σ → α → Option σ`: `none` means that the action is
not one the machine takes in this state. A run feeds a list of actions to the machine. Every
safety result about a machine goes through one of two rules: what one step preserves, a whole run
preserves (`run_invariant`), and the same for the runs whose steps all meet a condition
(`RunIn.invariant`).
-/

namespace CustLib.Machine

variable {σ α : Type*} {step : σ → α → Option σ}

/-! ## Runs

A run is a fold of the step function. `run_progress` is for machines that never refuse an action: then
the invariant may speak of the actions that were done.
-/

/-- Run a list of actions, stopping as soon as the machine refuses one. -/
def run (step : σ → α → Option σ) : σ → List α → Option σ
  | s, []      => some s
  | s, a :: as => (step s a).bind fun s' => run step s' as

@[simp] theorem run_nil (s : σ) : run step s [] = some s := rfl

@[simp] theorem run_cons (s : σ) (a : α) (as : List α) :
    run step s (a :: as) = (step s a).bind fun s' => run step s' as := rfl

theorem run_append (s : σ) (as bs : List α) :
    run step s (as ++ bs) = (run step s as).bind fun s' => run step s' bs := by
  induction as generalizing s with
  | nil => rfl
  | cons a as ih =>
      simp only [List.cons_append, run_cons, Option.bind_assoc]
      congr 1
      funext s'
      exact ih s'

/-- A run splits at every prefix of its actions. -/
theorem run_split {s t : σ} {as bs : List α} (h : run step s (as ++ bs) = some t) :
    ∃ u, run step s as = some u ∧ run step u bs = some t := by
  rw [run_append] at h
  exact Option.bind_eq_some_iff.mp h

theorem run_concat_iff {s t : σ} {as : List α} {a : α} :
    run step s (as ++ [a]) = some t ↔ ∃ u, run step s as = some u ∧ step u a = some t := by
  simp [run_append, Option.bind_eq_some_iff]

/-- **Run rule.** What every step preserves, a run preserves. -/
theorem run_invariant {I : σ → Prop} (hstep : ∀ s a s', I s → step s a = some s' → I s')
    {s t : σ} {as : List α} (hs : I s) (h : run step s as = some t) : I t := by
  induction as generalizing s with
  | nil =>
      cases h
      exact hs
  | cons a as ih =>
      obtain ⟨s', hs', h⟩ := Option.bind_eq_some_iff.mp h
      exact ih (hstep s a s' hs hs') h

/-- **Progress rule.** When every step succeeds and extends the invariant of the actions done so far,
    the run succeeds. -/
theorem run_progress {I : List α → σ → Prop} {s : σ} {as : List α} (hs : I [] s)
    (hstep : ∀ pre a post t, as = pre ++ a :: post → I pre t →
      ∃ t', step t a = some t' ∧ I (pre ++ [a]) t') : ∃ t, run step s as = some t ∧ I as t := by
  have hprefix : ∀ pre post, as = pre ++ post → ∃ t, run step s pre = some t ∧ I pre t := by
    intro pre
    induction pre using List.reverseRecOn with
    | nil => exact fun _ _ => ⟨s, rfl, hs⟩
    | append_singleton pre a ih =>
        intro post has
        obtain ⟨t, ht, hI⟩ := ih (a :: post) (by simpa using has)
        obtain ⟨t', ht', hI'⟩ := hstep pre a post t (by simpa using has) hI
        exact ⟨t', run_concat_iff.mpr ⟨t, ht, ht'⟩, hI'⟩
  exact hprefix as [] (List.append_nil as).symm

/-- A monadic fold is a run. -/
theorem foldlM_eq_run (s : σ) (as : List α) : as.foldlM step s = run step s as := by
  induction as generalizing s with
  | nil => rfl
  | cons a as ih =>
      rw [List.foldlM_cons, run_cons]
      congr 1
      funext s'
      exact ih s'

/-! ## Runs under a condition

Many properties hold only of programs that keep to some rules. A rule is a condition on the state and
the next action, and `RunIn` are the runs that meet it at every step. `of_undamaged` is for the
converse: a run that ends undamaged has met the condition all the way.
-/

/-- A run all of whose steps meet the condition `P` on the state before the step and its action. -/
inductive RunIn (step : σ → α → Option σ) (P : σ → α → Prop) : σ → List α → σ → Prop
  | nil {s} : RunIn step P s [] s
  | cons {s s' t a as} : P s a → step s a = some s' → RunIn step P s' as t →
      RunIn step P s (a :: as) t

theorem RunIn.run {P : σ → α → Prop} {s t : σ} {as : List α} (h : RunIn step P s as t) :
    run step s as = some t := by
  induction h with
  | nil => rfl
  | cons _ hs _ ih => rw [run_cons, hs, Option.bind_some, ih]

/-- A run of actions that meet the condition in every state. -/
theorem RunIn.of_forall {P : σ → α → Prop} {s t : σ} {as : List α}
    (hP : ∀ a ∈ as, ∀ s, P s a) (h : Machine.run step s as = some t) : RunIn step P s as t := by
  induction as generalizing s with
  | nil =>
      cases h
      exact .nil
  | cons a as ih =>
      obtain ⟨s', hs, h⟩ := Option.bind_eq_some_iff.mp h
      obtain ⟨ha, has⟩ := List.forall_mem_cons.mp hP
      exact .cons (ha s) hs (ih has h)

theorem RunIn.of_run {s t : σ} {as : List α} (h : Machine.run step s as = some t) :
    RunIn step (fun _ _ => True) s as t :=
  .of_forall (fun _ _ _ => trivial) h

theorem RunIn.append {P : σ → α → Prop} {s t u : σ} {as bs : List α} (h : RunIn step P s as t)
    (h' : RunIn step P t bs u) : RunIn step P s (as ++ bs) u := by
  induction h with
  | nil => exact h'
  | cons hP hs _ ih => exact .cons hP hs (ih h')

/-- **Simulation rule for restricted runs.** When every step that meets the condition is a restricted
    run of another machine, so is every restricted run. -/
theorem RunIn.simulate {τ β : Type*} {step' : τ → β → Option τ} {P : σ → α → Prop}
    {Q : τ → β → Prop} {f : σ → τ}
    (hstep : ∀ s a s', P s a → step s a = some s' → ∃ bs, RunIn step' Q (f s) bs (f s'))
    {s t : σ} {as : List α} (h : RunIn step P s as t) : ∃ bs, RunIn step' Q (f s) bs (f t) := by
  induction h with
  | nil => exact ⟨[], .nil⟩
  | cons hP hs _ ih =>
      obtain ⟨bs, hbs⟩ := hstep _ _ _ hP hs
      obtain ⟨cs, hcs⟩ := ih
      exact ⟨bs ++ cs, hbs.append hcs⟩

/-- The machine that refuses an action unless the condition is met; its runs are the restricted
    runs. -/
def guarded (step : σ → α → Option σ) (P : σ → α → Prop) [∀ s a, Decidable (P s a)] (s : σ)
    (a : α) : Option σ :=
  if P s a then step s a else none

theorem RunIn.of_guarded {P : σ → α → Prop} [∀ s a, Decidable (P s a)] {s t : σ} {as : List α}
    (h : Machine.run (guarded step P) s as = some t) : RunIn step P s as t := by
  induction as generalizing s with
  | nil =>
      cases h
      exact .nil
  | cons a as ih =>
      obtain ⟨s', hs, h⟩ := Option.bind_eq_some_iff.mp h
      obtain ⟨hP, hs⟩ := Option.ite_none_right_eq_some.mp hs
      exact .cons hP hs (ih h)

/-- **Run rule for restricted runs.** What every step that meets the condition preserves, the run
    preserves. -/
theorem RunIn.invariant {P : σ → α → Prop} {I : σ → Prop}
    (hstep : ∀ s a s', I s → P s a → step s a = some s' → I s') {s t : σ} {as : List α}
    (h : RunIn step P s as t) (hs : I s) : I t := by
  induction h with
  | nil => exact hs
  | cons hP hs' _ ih => exact ih (hstep _ _ _ hs hP hs')

/-- **Exactness rule.** When a step off the condition does damage that stays, a run that ends
    undamaged is a restricted run. -/
theorem RunIn.of_undamaged {P : σ → α → Prop} {I Bad : σ → Prop}
    (hstep : ∀ s a s', I s → P s a → step s a = some s' → I s')
    (hbad : ∀ s a s', I s → ¬ P s a → step s a = some s' → Bad s')
    (hstay : ∀ s a s', Bad s → step s a = some s' → Bad s') {s t : σ} {as : List α} (hs : I s)
    (h : Machine.run step s as = some t) (ht : ¬ Bad t) : RunIn step P s as t := by
  induction as generalizing s with
  | nil =>
      cases h
      exact .nil
  | cons a as ih =>
      obtain ⟨s', hs', h⟩ := Option.bind_eq_some_iff.mp h
      have hP : P s a := by
        by_contra hP
        exact ht (run_invariant hstay (hbad s a s' hs hP hs') h)
      exact .cons hP hs' (ih (hstep s a s' hs hP hs') h)

/-! ## Runs against a specification

A machine whose every call returns what some abstract state allows returns along every run what the
abstract state allows along the same calls. The relation between the two states is the invariant of the
induction.
-/

/-- A sequence of calls on an abstract state, when `Spec` says what one call may return and where it
    leads. -/
inductive SpecRun {S Op Ret : Type*} (Spec : S → Op → Ret → S → Prop) :
    S → List Op → List Ret → S → Prop
  | nil {s} : SpecRun Spec s [] [] s
  | concat {s t u ops rets op r} : SpecRun Spec s ops rets t → Spec t op r u →
      SpecRun Spec s (ops ++ [op]) (rets ++ [r]) u

/-- **Refinement rule.** When every call returns, returns what the specification allows, and keeps the
    abstraction, then so does every sequence of calls. -/
theorem run_refines {S Op Ret : Type*} {Spec : S → Op → Ret → S → Prop} {step : σ → Op → Option σ}
    {Models : σ → S → Prop} {rets : σ → List Ret} (hstep : ∀ s t op, Models s t →
      ∃ s' r u, step s op = some s' ∧ rets s' = rets s ++ [r] ∧ Spec t op r u ∧ Models s' u)
    {s : σ} {t : S} (h : Models s t) (hrets : rets s = []) (ops : List Op) :
    ∃ s' u, run step s ops = some s' ∧ SpecRun Spec t ops (rets s') u ∧ Models s' u := by
  have hrun : ∃ s', run step s ops = some s' ∧ ∃ u, SpecRun Spec t ops (rets s') u ∧ Models s' u := by
    refine run_progress (I := fun done s => ∃ u, SpecRun Spec t done (rets s) u ∧ Models s u)
      ⟨t, hrets ▸ .nil, h⟩ ?_
    intro done op _ s₁ _ ⟨u, hspec, hu⟩
    obtain ⟨s₂, r, u', hs₂, hr, hop, hu'⟩ := hstep s₁ u op hu
    exact ⟨s₂, hs₂, u', hr ▸ hspec.concat hop, hu'⟩
  obtain ⟨s', hs', u, hspec, hu⟩ := hrun
  exact ⟨s', u, hs', hspec, hu⟩

end CustLib.Machine
