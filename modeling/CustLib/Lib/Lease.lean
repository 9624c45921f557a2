import Mathlib.Order.BooleanAlgebra.Set
import CustLib.Lib.History

/-!
# Leases of reusable names

A history in which names are taken and given back, and may be taken again after that: file
descriptors, slots, addresses. `Leased take give log H` says that the names `H` are out after the
history `log`; only a name that is not out is taken, and only one that is out is given back. So every
`give` answers one `take` (`Leased.gives`), and the counts tell which names are out (`Leased.count`).

`Placed val H` says who has the names that are out: each is in one place, and no place has another.
-/

namespace CustLib.Lease

open CustLib.History (Each each_nil each_concat)

variable {E R O : Type*} {take give : R → E}

/-! ## Histories of leases

Names may be reused, so a name says nothing about which lease is meant. What can be said is that leases
of one name do not overlap, and that counts of events are the same up to the lease that is running.
-/

/-- The histories, and the names that are out after them. -/
inductive Leased (take give : R → E) : List E → Set R → Prop
  | nil : Leased take give [] ∅
  | take {log H r} : Leased take give log H → r ∉ H →
      Leased take give (log ++ [take r]) (insert r H)
  | give {log H r} : Leased take give log H → r ∈ H →
      Leased take give (log ++ [give r]) (H \ {r})
  | other {log H e} : Leased take give log H → (∀ r, e ≠ take r ∧ e ≠ give r) →
      Leased take give (log ++ [e]) H

/-- The events of different names are different, and so are those of one name. -/
structure Apart (take give : R → E) : Prop where
  inj_take : ∀ {r s}, take r = take s → r = s
  inj_give : ∀ {r s}, give r = give s → r = s
  apart    : ∀ r s, take r ≠ give s

section Count

variable [DecidableEq E] {log : List E} {H : Set R}

/-- A name is out iff it was taken once more than it was given back. -/
theorem Leased.count (h : Leased take give log H) (hap : Apart take give) (r : R) :
    (r ∈ H → log.count (take r) = log.count (give r) + 1) ∧
      (r ∉ H → log.count (take r) = log.count (give r)) := by
  induction h with
  | nil => simp
  | @take log H s _ hs ih =>
      have hgive : (log ++ [take s]).count (give r) = log.count (give r) := by
        simp [List.count_append, hap.apart s r]
      rw [hgive]
      by_cases heq : s = r
      · subst heq
        simp [List.count_append, ih.2 hs]
      · have htake : take s ≠ take r := fun ht => heq (hap.inj_take ht)
        have hmem : r ∈ insert s H ↔ r ∈ H := Set.mem_insert_iff.trans (by simp [Ne.symm heq])
        rw [hmem]
        simpa [List.count_append, List.count_singleton, htake] using ih
  | @give log H s _ hs ih =>
      have htake : (log ++ [give s]).count (take r) = log.count (take r) := by
        simp [List.count_append, (hap.apart r s).symm]
      rw [htake]
      by_cases heq : s = r
      · subst heq
        simp [List.count_append, ih.1 hs]
      · have hgive : give s ≠ give r := fun ht => heq (hap.inj_give ht)
        have hmem : r ∈ H \ {s} ↔ r ∈ H := by simp [Ne.symm heq]
        rw [hmem]
        simpa [List.count_append, List.count_singleton, hgive] using ih
  | @other log H e _ he ih =>
      simpa [List.count_append, List.count_singleton, (he r).1, (he r).2] using ih

/-- Only a name that is out is given back. -/
theorem Leased.gives (h : Leased take give log H) (hap : Apart take give) :
    Each (fun pre e => ∀ r, e = give r → pre.count (take r) = pre.count (give r) + 1) log := by
  induction h with
  | nil => exact each_nil
  | @take log H s hlog hs ih =>
      exact each_concat.mpr ⟨ih, fun r he => absurd he (hap.apart s r)⟩
  | @give log H s hlog hs ih =>
      refine each_concat.mpr ⟨ih, fun r he => ?_⟩
      rw [← hap.inj_give he]
      exact (hlog.count hap s).1 hs
  | @other log H e hlog he ih => exact each_concat.mpr ⟨ih, fun r hr => absurd hr (he r).2⟩

end Count

/-! ## Who has the names

The places are indexed by some type, and hold a name or none. A name moves between the outside world and
one place, or from place to place; in each case the others keep what they have.
-/

/-- The names `H` are in the places of `val`, each in one. -/
structure Placed (val : O → Option R) (H : Set R) : Prop where
  mem    : ∀ r, r ∈ H ↔ ∃ o, val o = some r
  unique : ∀ {o o' r}, val o = some r → val o' = some r → o = o'

variable {val : O → Option R} {H : Set R} {o o' : O} {r : R}

theorem placed_none : Placed (fun _ : O => (none : Option R)) ∅ :=
  ⟨by simp, fun h => by cases h⟩

variable [DecidableEq O]

/-- A name that is not out is put in an empty place. -/
theorem Placed.put (h : Placed val H) (ho : val o = none) (hr : r ∉ H) :
    Placed (Function.update val o (some r)) (insert r H) := by
  have hnew : ∀ p, val p ≠ some r := fun p hp => hr ((h.mem r).mpr ⟨p, hp⟩)
  constructor
  case mem =>
    intro s
    rw [Set.mem_insert_iff, h.mem s]
    constructor
    · rintro (rfl | ⟨p, hp⟩)
      · exact ⟨o, Function.update_self _ _ _⟩
      · refine ⟨p, ?_⟩
        rwa [Function.update_of_ne]
        rintro rfl
        exact absurd (ho.symm.trans hp) nofun
    · rintro ⟨p, hp⟩
      by_cases hpo : p = o
      · subst hpo
        rw [Function.update_self] at hp
        exact .inl (Option.some.inj hp).symm
      · rw [Function.update_of_ne hpo] at hp
        exact .inr ⟨p, hp⟩
  case unique =>
    intro p q s hp hq
    rw [Function.update_apply] at hp hq
    split at hp <;> split at hq
    next hpo hqo => rw [hpo, hqo]
    next hpo hqo => exact absurd (hq.trans hp.symm) (hnew q)
    next hpo hqo => exact absurd (hp.trans hq.symm) (hnew p)
    next hpo hqo => exact h.unique hp hq

/-- A place is emptied, and its name given back. -/
theorem Placed.clear (h : Placed val H) (ho : val o = some r) :
    Placed (Function.update val o none) (H \ {r}) := by
  constructor
  case mem =>
    intro s
    rw [Set.mem_sdiff, Set.mem_singleton_iff, h.mem s]
    constructor
    · rintro ⟨⟨p, hp⟩, hs⟩
      refine ⟨p, ?_⟩
      rwa [Function.update_of_ne]
      rintro rfl
      exact hs (Option.some.inj (hp.symm.trans ho))
    · rintro ⟨p, hp⟩
      have hpo : p ≠ o := by
        rintro rfl
        rw [Function.update_self] at hp
        cases hp
      rw [Function.update_of_ne hpo] at hp
      refine ⟨⟨p, hp⟩, ?_⟩
      rintro rfl
      exact hpo (h.unique hp ho)
  case unique =>
    intro p q s hp hq
    rw [Function.update_apply] at hp hq
    split at hp
    · cases hp
    split at hq
    · cases hq
    exact h.unique hp hq

/-- A name goes from one place to an empty one. -/
theorem Placed.move (h : Placed val H) (ho : val o = some r) (ho' : val o' = none) :
    Placed (Function.update (Function.update val o none) o' (some r)) H := by
  have hr : r ∈ H := (h.mem r).mpr ⟨o, ho⟩
  have hempty : Function.update val o none o' = none := by
    rw [Function.update_apply]
    split
    · rfl
    · exact ho'
  have hput := (h.clear ho).put hempty (r := r) (by simp)
  rwa [Set.insert_sdiff_singleton, Set.insert_eq_of_mem hr] at hput

end CustLib.Lease
