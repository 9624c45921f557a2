import Mathlib.Data.List.Perm.Basic
import Mathlib.Data.List.Pairwise

/-!
# Finite maps up to an equality

A finite map as a list of entries, whose keys are told apart by a boolean equality `eq` that need not
be equality of keys. The order of the list does not matter: the operations respect permutations
(`find_of_mem`, `overwrite_perm`, `erase_perm`) as long as the keys are distinct.
-/

namespace CustLib.Assoc

variable {K V : Type*} (eq : K → K → Bool)

/-! ## The operations

Lookup, overwriting and erasure, each of the entry whose key is equal to the one that is given. The keys
of a finite map are pairwise unequal (`Distinct`), so there is one such entry at most.
-/

def find (l : List (K × V)) (k : K) : Option (K × V) := l.find? fun e => eq e.1 k

/-- Give a key another value; the stored key stays. -/
def overwrite (l : List (K × V)) (k : K) (v : V) : List (K × V) :=
  l.map fun e => if eq e.1 k then (e.1, v) else e

def erase (l : List (K × V)) (k : K) : List (K × V) := l.filter fun e => !eq e.1 k

def Distinct (l : List (K × V)) : Prop := l.Pairwise fun e e' => eq e.1 e'.1 = false

variable {eq} (heq : Equivalence fun a b => eq a b = true)

include heq in
theorem eq_false_comm {a b : K} (h : eq a b = false) : eq b a = false := by
  rw [Bool.eq_false_iff] at h ⊢
  exact fun hba => h (heq.symm hba)

include heq in
theorem Distinct.perm {l l' : List (K × V)} (h : Distinct eq l) (hp : l.Perm l') :
    Distinct eq l' :=
  (hp.pairwise_iff fun {_ _} hab => eq_false_comm heq hab).mp h

include heq in
/-- In a list with distinct keys, the rest has no key equal to that of the first entry. -/
theorem Distinct.rest {rest : List (K × V)} {e : K × V} {k : K} (h : Distinct eq (e :: rest))
    (hk : eq e.1 k = true) : ∀ e' ∈ rest, eq e'.1 k = false := by
  intro e' he'
  rw [Bool.eq_false_iff]
  intro hk'
  have hne := (List.pairwise_cons.mp h).1 e' he'
  rw [heq.trans hk (heq.symm hk')] at hne
  exact nomatch hne

/-! ## Lookups

What is found does not depend on the order of the entries.
-/

/-- A key that is equal to no key of the map is not found. -/
theorem find_eq_none {l : List (K × V)} {k : K} (h : ∀ e ∈ l, eq e.1 k = false) :
    find eq l k = none :=
  List.find?_eq_none.mpr fun e he => Bool.not_eq_true _ ▸ h e he

theorem find_cons (e : K × V) (l : List (K × V)) (k : K) :
    find eq (e :: l) k = if eq e.1 k then some e else find eq l k := by
  unfold find
  rw [List.find?_cons]
  cases eq e.1 k <;> rfl

include heq in
/-- A key that is overwritten has the new value, and the others have theirs. -/
theorem find_overwrite (l : List (K × V)) (k k' : K) (v : V) :
    (find eq (overwrite eq l k v) k').map Prod.snd =
      (find eq l k').map fun e => if eq k k' then v else e.2 := by
  induction l with
  | nil => rfl
  | cons e l ih =>
      have hstep : overwrite eq (e :: l) k v =
          (if eq e.1 k then (e.1, v) else e) :: overwrite eq l k v := rfl
      have hfst : (if eq e.1 k then (e.1, v) else e).1 = e.1 := by split <;> rfl
      rw [hstep, find_cons, find_cons, hfst]
      by_cases hk : eq e.1 k' = true
      · have hiff : eq e.1 k = eq k k' := by
          rw [Bool.eq_iff_iff]
          exact ⟨fun h => heq.trans (heq.symm h) hk, fun h => heq.trans hk (heq.symm h)⟩
        rw [if_pos hk, if_pos hk, Option.map_some, Option.map_some, hiff]
        split <;> rfl
      · rw [if_neg hk, if_neg hk]
        exact ih

include heq in
/-- The entry with an equal key is the one that is found. -/
theorem find_of_mem {l : List (K × V)} (h : Distinct eq l) {e : K × V} {k : K} (he : e ∈ l)
    (hk : eq e.1 k = true) : find eq l k = some e := by
  induction l with
  | nil => exact absurd he List.not_mem_nil
  | cons x l ih =>
      obtain ⟨hx, hl⟩ := List.pairwise_cons.mp h
      rcases List.mem_cons.mp he with rfl | he
      · exact List.find?_cons_of_pos hk
      · have hxk : eq x.1 k = false := by
          rw [Bool.eq_false_iff]
          intro hxk
          have hne := hx e he
          rw [heq.trans hxk (heq.symm hk)] at hne
          exact nomatch hne
        rw [find, List.find?_cons_of_neg (by simp [hxk])]
        exact ih hl he

/-! ## Changes

Overwriting and erasing take the entry out of the list and put another one, or none, in its place, up to
order; they keep the keys distinct.
-/

include heq in
/-- The value of one entry is exchanged, and its stored key stays. -/
theorem overwrite_perm {l rest : List (K × V)} (h : Distinct eq l) {e : K × V} {k : K}
    (hp : l.Perm (e :: rest)) (hk : eq e.1 k = true) (v : V) :
    (overwrite eq l k v).Perm ((e.1, v) :: rest) := by
  have hrest := (h.perm heq hp).rest heq hk
  have hself : rest.map (fun e' => if eq e'.1 k then (e'.1, v) else e') = rest := by
    rw [List.map_congr_left (g := id) fun e' he' => by rw [hrest e' he']; rfl, List.map_id]
  have hmap := hp.map fun e' => if eq e'.1 k then (e'.1, v) else e'
  rwa [List.map_cons, if_pos hk, hself] at hmap

include heq in
/-- The one entry with the key is gone. -/
theorem erase_perm {l rest : List (K × V)} (h : Distinct eq l) {e : K × V} {k : K}
    (hp : l.Perm (e :: rest)) (hk : eq e.1 k = true) : (erase eq l k).Perm rest := by
  have hrest := (h.perm heq hp).rest heq hk
  have hself : rest.filter (fun e' => !eq e'.1 k) = rest :=
    List.filter_eq_self.mpr fun e' he' => by simp [hrest e' he']
  have hfilter := hp.filter fun e' => !eq e'.1 k
  rwa [List.filter_cons_of_neg (by simp [hk]), hself] at hfilter

/-- Erasing a key that is not there. -/
theorem erase_eq_self {l : List (K × V)} {k : K} (h : ∀ e ∈ l, eq e.1 k = false) :
    erase eq l k = l :=
  List.filter_eq_self.mpr fun e he => by simp [h e he]

include heq in
theorem Distinct.cons {l : List (K × V)} (h : Distinct eq l) {k : K}
    (hk : ∀ e ∈ l, eq e.1 k = false) (v : V) : Distinct eq ((k, v) :: l) :=
  List.pairwise_cons.mpr ⟨fun e he => eq_false_comm heq (hk e he), h⟩

theorem Distinct.erase {l : List (K × V)} (h : Distinct eq l) (k : K) :
    Distinct eq (Assoc.erase eq l k) :=
  h.sublist List.filter_sublist

theorem Distinct.overwrite {l : List (K × V)} (h : Distinct eq l) (k : K) (v : V) :
    Distinct eq (Assoc.overwrite eq l k v) := by
  refine List.pairwise_map.mpr (h.imp fun {e e'} hne => ?_)
  have hkey : ∀ x : K × V, (if eq x.1 k = true then (x.1, v) else x).1 = x.1 := by
    intro x
    split <;> rfl
  rwa [hkey, hkey]

end CustLib.Assoc
