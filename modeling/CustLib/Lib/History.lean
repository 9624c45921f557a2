import Mathlib.Data.List.Basic

/-!
# Histories

A history is a list of events, extended at the end. `Each P log` says of every event in it that `P`
holds of what came before; it is built up event by event (`each_concat`).
-/

namespace CustLib.History

variable {E : Type*} {P Q : List E → E → Prop} {log evs pre post : List E} {e : E}

/-! ## Splits of a history

Where an event is in a history that was put together from two.
-/

/-- Where an appended history was cut. -/
theorem append_eq_split (h : log ++ evs = pre ++ e :: post) :
    (∃ post', log = pre ++ e :: post') ∨ ∃ pre', pre = log ++ pre' ∧ evs = pre' ++ e :: post := by
  rcases List.append_eq_append_iff.mp h with ⟨as, hpre, hevs⟩ | ⟨cs, hlog, hpost⟩
  · exact .inr ⟨as, hpre, hevs⟩
  · cases cs with
    | nil => exact .inr ⟨[], by simpa using hlog.symm, by simpa using hpost.symm⟩
    | cons c cs =>
        obtain ⟨rfl, -⟩ := List.cons.inj hpost
        exact .inl ⟨cs, hlog⟩

/-- An event in an extended history is an old one, or the new event itself. -/
theorem concat_eq_split {e' : E} (h : log ++ [e'] = pre ++ e :: post) :
    (∃ post', log = pre ++ e :: post') ∨ (log = pre ∧ e' = e) := by
  rcases append_eq_split h with hold | ⟨pre', rfl, hevs⟩
  · exact .inl hold
  · cases pre' with
    | nil =>
        obtain ⟨rfl, -⟩ := List.cons.inj hevs
        exact .inr ⟨by simp, rfl⟩
    | cons c cs => simp at hevs

/-! ## A condition on every event

`Each P log` is a safety property: it looks at what came before an event, never at what comes after, and
so it is kept when the history goes on with an event that meets it.
-/

def Each (P : List E → E → Prop) (log : List E) : Prop :=
  ∀ pre e post, log = pre ++ e :: post → P pre e

theorem each_nil : Each P [] := by
  intro pre e post h
  simp at h

theorem each_concat : Each P (log ++ [e]) ↔ Each P log ∧ P log e := by
  constructor
  · intro h
    refine ⟨fun pre e' post heq => h pre e' (post ++ [e]) ?_, h log e [] rfl⟩
    rw [heq, List.append_assoc]
    rfl
  · rintro ⟨h, he⟩ pre e' post heq
    rcases concat_eq_split heq with ⟨post', hold⟩ | ⟨rfl, rfl⟩
    · exact h pre e' post' hold
    · exact he

theorem Each.mono (h : Each P log) (hPQ : ∀ pre e, P pre e → Q pre e) : Each Q log :=
  fun pre e post heq => hPQ pre e (h pre e post heq)

end CustLib.History
