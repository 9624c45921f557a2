import CustLib.Execution.Executor

/-!
# `cust_execution::reactor`: pending timers

The pending timers of a reactor, as the sequence that their list of links holds (the list itself is
`CustLib.Std.ListHead`). Deadlines and clock readings are `u64` nanoseconds.
-/

namespace CustLib.Exec

/-! ## The functions on sequences

`cexec_reactor_earliest`, `cexec_reactor_fire_due` and `reactor_insert`, as functions on the sequence of
pending timers. That the linked list of the source does the same is shown in
`CustLib.Execution.TimerQueue`.
-/

/-- A linked `cexec_timer`: its address, its deadline, and the task that its waker wakes. -/
structure Timer where
  id       : Nat
  deadline : Nat
  waker    : TaskId
  deriving DecidableEq, Repr

def earliest (pending : List Timer) : Option Nat := pending.head?.map Timer.deadline

/-- `cexec_reactor_fire_due`: the timers that fire, and those that stay. -/
def fireDue (now : Nat) : List Timer → List Timer × List Timer
  | []        => ([], [])
  | t :: rest =>
    if t.deadline > now then ([], t :: rest)
    else
      let (fired, stay) := fireDue now rest
      (t :: fired, stay)

/-- `reactor_insert`: behind every timer that is not due later. -/
def reactorInsert (t : Timer) : List Timer → List Timer
  | []        => [t]
  | p :: rest => if p.deadline > t.deadline then t :: p :: rest else p :: reactorInsert t rest

/-! ## What they do

`reactor_insert` keeps the timers sorted, so those that are due are in front, and `fire_due` takes them
off the front one after the other.
-/

/-- Nothing fires iff the earliest timer is not due. -/
theorem fireDue_eq_nil_iff {now : Nat} {pending : List Timer} :
    (fireDue now pending).1 = [] ↔ ∀ t, pending.head? = some t → now < t.deadline := by
  cases pending with
  | nil => simp [fireDue]
  | cons t rest =>
      by_cases h : t.deadline > now
      · simp [fireDue, h]
      · simp [fireDue, h]

/-- When nothing fires, every timer stays. -/
theorem fireDue_stay {now : Nat} {pending : List Timer} (h : (fireDue now pending).1 = []) :
    (fireDue now pending).2 = pending := by
  cases pending with
  | nil => rfl
  | cons t rest =>
      by_cases ht : t.deadline > now
      · simp [fireDue, ht]
      · simp [fireDue, ht] at h

theorem fireDue_append (now : Nat) (pending : List Timer) :
    (fireDue now pending).1 ++ (fireDue now pending).2 = pending := by
  induction pending with
  | nil => rfl
  | cons t rest ih =>
      by_cases h : t.deadline > now
      · simp [fireDue, h]
      · simpa [fireDue, h] using ih

theorem fireDue_fired (now : Nat) (pending : List Timer) :
    ∀ t ∈ (fireDue now pending).1, t.deadline ≤ now := by
  induction pending with
  | nil => exact fun t ht => nomatch ht
  | cons t rest ih =>
      intro u hu
      by_cases h : t.deadline > now
      · simp [fireDue, h] at hu
      · simp only [fireDue, h, if_false, List.mem_cons] at hu
        rcases hu with rfl | hu
        · exact Nat.not_lt.mp h
        · exact ih u hu

/-- The timers of a sorted list that stay are not due. -/
theorem fireDue_late {now : Nat} {pending : List Timer}
    (hsorted : pending.Pairwise fun s t => s.deadline ≤ t.deadline) :
    ∀ t ∈ (fireDue now pending).2, now < t.deadline := by
  induction pending with
  | nil => exact fun t ht => nomatch ht
  | cons t rest ih =>
      obtain ⟨hfront, hrest⟩ := List.pairwise_cons.mp hsorted
      intro u hu
      by_cases h : t.deadline > now
      · simp only [fireDue, h, if_true, List.mem_cons] at hu
        rcases hu with rfl | hu
        · exact h
        · exact Nat.lt_of_lt_of_le h (hfront u hu)
      · simp only [fireDue, h, if_false] at hu
        exact ih hrest u hu

theorem reactorInsert_perm (t : Timer) (pending : List Timer) :
    (reactorInsert t pending).Perm (t :: pending) := by
  induction pending with
  | nil => exact List.Perm.refl _
  | cons p rest ih =>
      by_cases h : p.deadline > t.deadline
      · simp [reactorInsert, h]
      · simp only [reactorInsert, h, if_false]
        exact (ih.cons p).trans (List.Perm.swap t p rest)

/-- Insertion keeps the list sorted. -/
theorem reactorInsert_sorted {t : Timer} {pending : List Timer}
    (hsorted : pending.Pairwise fun s t => s.deadline ≤ t.deadline) :
    (reactorInsert t pending).Pairwise fun s t => s.deadline ≤ t.deadline := by
  induction pending with
  | nil => exact List.pairwise_singleton _ t
  | cons p rest ih =>
      obtain ⟨hfront, hrest⟩ := List.pairwise_cons.mp hsorted
      by_cases h : p.deadline > t.deadline
      · simp only [reactorInsert, h, if_true]
        refine List.pairwise_cons.mpr ⟨?_, hsorted⟩
        intro u hu
        rcases List.mem_cons.mp hu with rfl | hu
        · exact Nat.le_of_lt h
        · exact Nat.le_trans (Nat.le_of_lt h) (hfront u hu)
      · simp only [reactorInsert, h, if_false]
        refine List.pairwise_cons.mpr ⟨?_, ih hrest⟩
        intro u hu
        rcases List.mem_cons.mp ((reactorInsert_perm t rest).mem_iff.mp hu) with rfl | hu
        · exact Nat.not_lt.mp h
        · exact hfront u hu

end CustLib.Exec
