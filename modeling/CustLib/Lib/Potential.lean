import Mathlib.Algebra.BigOperators.Group.List.Basic
import Mathlib.Algebra.GroupWithZero.Nat
import Mathlib.Algebra.Order.Monoid.Defs
import CustLib.Lib.Machine

/-!
# What a run costs

A single action of a machine may be expensive, and a run cheap all the same: what an expensive action
costs has been paid for by those before it. `spent` adds up the costs along a run, and the rule of the
potential (`spent_le`) bounds it: if every action costs no more than it pays and the potential falls
by, then the run costs no more than its actions pay and the potential was at its start.
-/

namespace CustLib.Machine

variable {σ α M : Type*} {step : σ → α → Option σ}

/-! ## Costs along a run

`spent` follows the run action by action. The rule is the usual telescoping sum, on natural numbers and
without subtraction.
-/

/-- The costs along a run, up to the first action that the machine refuses. -/
def spent [Zero M] [Add M] (step : σ → α → Option σ) (cost : σ → α → M) : σ → List α → M
  | _, []      => 0
  | s, a :: as => cost s a + ((step s a).map fun s' => spent step cost s' as).getD 0

section

variable [AddCommMonoid M] {cost : σ → α → M}

@[simp] theorem spent_nil (s : σ) : spent step cost s [] = 0 := rfl

@[simp] theorem spent_cons {s s' : σ} {a : α} (h : step s a = some s') (as : List α) :
    spent step cost s (a :: as) = cost s a + spent step cost s' as := by
  rw [spent, h]
  rfl

variable [PartialOrder M] [IsOrderedAddMonoid M] {pay : α → M} {I : σ → Prop} {potential : σ → M}

/-- **Potential rule.** What the actions pay and the potential at the start cover the costs of a run,
    and leave the potential at its end. -/
theorem spent_le (hinv : ∀ s a s', I s → step s a = some s' → I s')
    (hpay : ∀ s a s', I s → step s a = some s' → cost s a + potential s' ≤ potential s + pay a)
    {s t : σ} {as : List α} (hs : I s) (h : run step s as = some t) :
    spent step cost s as + potential t ≤ potential s + (as.map pay).sum := by
  induction as generalizing s with
  | nil =>
      cases h
      simp
  | cons a as ih =>
      obtain ⟨s', hs', h⟩ := Option.bind_eq_some_iff.mp h
      have hrest := ih (hinv s a s' hs hs') h
      calc spent step cost s (a :: as) + potential t
          = cost s a + (spent step cost s' as + potential t) := by rw [spent_cons hs', add_assoc]
        _ ≤ cost s a + (potential s' + (as.map pay).sum) := add_le_add_right hrest _
        _ = cost s a + potential s' + (as.map pay).sum := (add_assoc _ _ _).symm
        _ ≤ potential s + pay a + (as.map pay).sum := add_le_add_left (hpay s a s' hs hs') _
        _ = potential s + ((a :: as).map pay).sum := by rw [List.map_cons, List.sum_cons, add_assoc]

end

/-- Actions of one kind pay, all the same. -/
theorem sum_pay (p : α → Bool) (c : Nat) (as : List α) :
    (as.map fun a => if p a then c else 0).sum = c * as.countP p := by
  induction as with
  | nil => rfl
  | cons a as ih =>
      rw [List.map_cons, List.sum_cons, ih, List.countP_cons, Nat.mul_add, Nat.add_comm]
      split <;> simp

end CustLib.Machine
