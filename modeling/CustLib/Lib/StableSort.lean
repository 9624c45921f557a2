import Mathlib.Data.List.Perm.Basic
import Mathlib.Data.List.TakeWhile
import Mathlib.Order.Lattice

/-!
# Stable sorts by a key

`StableSort key live sorted` says that `sorted` are the elements of `live` in the order of their keys,
and elements with one key in the order that they have in `live`. A queue that keeps its elements
sorted stays a stable sort of what was put in, in the order of the insertions, under an insertion
behind all keys that are not greater (`StableSort.insert`) and under removals (`StableSort.filter`). In
a sorted list the elements up to a key are at the front (`takeWhile_le`, `dropWhile_le`).
-/

namespace CustLib

variable {α κ : Type*} [LinearOrder κ] {key : α → κ}

def KeySorted (key : α → κ) (l : List α) : Prop := l.Pairwise fun s t => key s ≤ key t

/-- `sorted` is `live` in the order of the keys, elements with one key in the order of `live`. -/
structure StableSort (key : α → κ) (live sorted : List α) : Prop where
  ordered : KeySorted key sorted
  stable  : ∀ k, sorted.filter (key · = k) = live.filter (key · = k)

/-! ## The front of a sorted list

In a sorted list the elements up to a key are a prefix, so taking them off the front is a filter.
-/

theorem takeWhile_le {l : List α} (h : KeySorted key l) (k : κ) :
    l.takeWhile (key · ≤ k) = l.filter (key · ≤ k) := by
  induction l with
  | nil => rfl
  | cons a l ih =>
      obtain ⟨hfront, hrest⟩ := List.pairwise_cons.mp h
      by_cases ha : key a ≤ k
      · simp [ha, ih hrest]
      · -- nothing behind `a` is due either
        have hlate : ∀ b ∈ l, ¬ key b ≤ k := fun b hb hk => ha ((hfront b hb).trans hk)
        simpa [ha] using hlate

theorem dropWhile_le {l : List α} (h : KeySorted key l) (k : κ) :
    l.dropWhile (key · ≤ k) = l.filter (k < key ·) := by
  induction l with
  | nil => rfl
  | cons a l ih =>
      obtain ⟨hfront, hrest⟩ := List.pairwise_cons.mp h
      by_cases ha : key a ≤ k
      · simp [ha, not_lt.mpr ha, ih hrest]
      · have hlate : ∀ b ∈ l, k < key b := fun b hb => (not_le.mp ha).trans_le (hfront b hb)
        have hall : l.filter (k < key ·) = l := List.filter_eq_self.mpr (by simpa using hlate)
        simp [ha, not_le.mp ha, hall]

namespace StableSort

variable {live sorted : List α}

/-! ## Insertions and removals

The list stays a stable sort when an element is inserted behind all that are not greater, and when
elements are taken out anywhere.
-/

theorem nil : StableSort key ([] : List α) [] := ⟨List.Pairwise.nil, fun _ => rfl⟩

/-- The same elements. -/
theorem perm [DecidableEq α] (h : StableSort key live sorted) : sorted.Perm live := by
  rw [List.perm_iff_count]
  intro a
  have hcount : ∀ l : List α, (l.filter (key · = key a)).count a = l.count a := by
    intro l
    exact List.count_filter (by simp)
  rw [← hcount sorted, ← hcount live, h.stable]

theorem mem_iff (h : StableSort key live sorted) {a : α} : a ∈ sorted ↔ a ∈ live := by
  have hmem : ∀ l : List α, a ∈ l ↔ a ∈ l.filter (key · = key a) := by
    intro l
    simp
  rw [hmem sorted, hmem live, h.stable]

/-- Removal of the elements without `p`. -/
theorem filter (h : StableSort key live sorted) (p : α → Bool) :
    StableSort key (live.filter p) (sorted.filter p) := by
  refine ⟨h.ordered.filter p, fun k => ?_⟩
  rw [List.filter_comm, h.stable, List.filter_comm]

/-- Insertion of the newest element, behind all whose keys are not greater. -/
theorem insert (h : StableSort key live sorted) (t : α) :
    StableSort key (live ++ [t])
      (sorted.takeWhile (key · ≤ key t) ++ t :: sorted.dropWhile (key · ≤ key t)) := by
  have hlate : ∀ b ∈ sorted.dropWhile (key · ≤ key t), key t < key b := by
    intro b hb
    rw [dropWhile_le h.ordered] at hb
    simpa using (List.mem_filter.mp hb).2
  constructor
  · apply List.pairwise_append.mpr
    refine ⟨h.ordered.sublist (List.takeWhile_sublist _), List.pairwise_cons.mpr
      ⟨fun b hb => le_of_lt (hlate b hb), h.ordered.sublist (List.dropWhile_sublist _)⟩, ?_⟩
    intro a ha b hb
    have ha : key a ≤ key t := by simpa using List.mem_takeWhile_imp ha
    rcases List.mem_cons.mp hb with rfl | hb
    · exact ha
    · exact ha.trans (le_of_lt (hlate b hb))
  · intro k
    have hcut : live.filter (key · = k) = (sorted.takeWhile (key · ≤ key t)).filter (key · = k) ++
        (sorted.dropWhile (key · ≤ key t)).filter (key · = k) := by
      rw [← List.filter_append, List.takeWhile_append_dropWhile, h.stable]
    rw [List.filter_append, List.filter_append, hcut, List.append_assoc]
    by_cases hk : key t = k
    · -- nothing behind the new element has its key
      subst hk
      have hnone : (sorted.dropWhile (key · ≤ key t)).filter (key · = key t) = [] := by
        rw [List.filter_eq_nil_iff]
        intro b hb
        simpa using ne_of_gt (hlate b hb)
      simp [hnone]
    · simp [hk]

end StableSort

end CustLib
