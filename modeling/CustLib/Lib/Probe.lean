import Mathlib.Data.List.Count
import Mathlib.Data.List.Induction
import Mathlib.Data.List.Perm.Basic
import Mathlib.Data.Nat.Find

/-!
# Linear probing

A probe for `h` in a table of `cap` slots visits `slot cap h 0`, `slot cap h 1`, .. , and within
`cap` rounds every slot once (`slot_surj`), so it meets a slot of any kind the table has
(`exists_first`). `Reach free cap h j` says that the probe gets to `j` before it meets a free slot:
what makes a stored key findable. `iterate_skip` runs a loop with fuel through the rounds in which it
goes on, and `filterMap_range_perm` is what one write does to the entries of a table.
-/

namespace CustLib.Probe

/-! ## Probes

Slots modulo the capacity. Within one turn around the table the slots of a probe are all different, and
every slot is among them.
-/

def slot (cap h i : Nat) : Nat := (h + i) % cap

theorem slot_lt {cap : Nat} (hcap : 0 < cap) (h i : Nat) : slot cap h i < cap :=
  Nat.mod_lt _ hcap

theorem slot_succ (cap h i : Nat) : (slot cap h i + 1) % cap = slot cap h (i + 1) :=
  Nat.mod_add_mod _ _ _

/-- A probe visits every slot. -/
theorem slot_surj {cap j : Nat} (hj : j < cap) (h : Nat) : ∃ i < cap, slot cap h i = j := by
  have hcap : 0 < cap := Nat.zero_lt_of_lt hj
  have hm := Nat.mod_lt h hcap
  refine ⟨(j + cap - h % cap) % cap, Nat.mod_lt _ hcap, ?_⟩
  have hsum : h % cap + (j + cap - h % cap) = j + cap := by omega
  rw [slot, Nat.add_mod_mod, ← Nat.mod_add_mod, hsum, Nat.add_mod_right, Nat.mod_eq_of_lt hj]

/-- A probe meets the first slot of a kind that the table has. -/
theorem exists_first {cap : Nat} {p : Nat → Prop} (h : Nat) (hp : ∃ j < cap, p j) :
    ∃ n < cap, p (slot cap h n) ∧ ∀ i < n, ¬ p (slot cap h i) := by
  classical
  obtain ⟨j, hj, hpj⟩ := hp
  obtain ⟨i, hi, rfl⟩ := slot_surj hj h
  have hex : ∃ i, p (slot cap h i) := ⟨i, hpj⟩
  exact ⟨Nat.find hex, Nat.lt_of_le_of_lt (Nat.find_min' hex hpj) hi, Nat.find_spec hex,
    fun k hk => Nat.find_min hex hk⟩

/-- The probe for `h` gets to `j` before it meets a free slot. -/
def Reach (free : Nat → Prop) (cap h j : Nat) : Prop :=
  ∃ i, slot cap h i = j ∧ ∀ k < i, ¬ free (slot cap h k)

theorem Reach.mono {free free' : Nat → Prop} {cap h j : Nat} (hr : Reach free cap h j)
    (hsub : ∀ k, free' k → free k) : Reach free' cap h j := by
  obtain ⟨i, hi, hfree⟩ := hr
  exact ⟨i, hi, fun k hk hk' => hfree k hk (hsub _ hk')⟩

/-- What a probe reaches, it reaches before the first free slot. -/
theorem Reach.before {free : Nat → Prop} {cap h j n : Nat} (hr : Reach free cap h j)
    (hj : ¬ free j) (hn : free (slot cap h n)) : ∃ i < n, slot cap h i = j := by
  obtain ⟨i, rfl, hfree⟩ := hr
  refine ⟨i, ?_, rfl⟩
  rcases Nat.lt_trichotomy i n with hlt | rfl | hgt
  · exact hlt
  · exact absurd hn hj
  · exact absurd hn (hfree n hgt)

/-- A loop with fuel, run through `n` rounds in which it goes on. -/
theorem iterate_skip {σ ρ : Type*} (f : Nat → σ → ρ) (st : Nat → σ) {n : Nat}
    (hskip : ∀ i < n, ∀ fuel, f (fuel + 1) (st i) = f fuel (st (i + 1))) (fuel : Nat) :
    f (fuel + n) (st 0) = f fuel (st n) := by
  induction n generalizing fuel with
  | zero => rfl
  | succ n ih =>
      have hrest := ih (fun i hi => hskip i (Nat.lt_succ_of_lt hi)) (fuel + 1)
      rw [Nat.add_succ, ← Nat.succ_add, hrest, hskip n (Nat.lt_succ_self n)]

/-! ## Counting slots, and the entries of a table

Writes into one slot of a table, seen from the list of its entries and from the counts of its control
bytes.
-/

/-- The entries of a table, when slot `j` is taken out. -/
theorem filterMap_range_perm {β : Type*} (f : Nat → Option β) {n j : Nat} (hj : j < n) :
    ((List.range n).filterMap f).Perm ((f j).toList ++ ((List.range n).erase j).filterMap f) := by
  have hperm := (List.perm_cons_erase (List.mem_range.mpr hj)).filterMap f
  cases hf : f j with
  | none => rwa [List.filterMap_cons_none hf] at hperm
  | some b => rwa [List.filterMap_cons_some hf] at hperm

/-- The other entries do not depend on slot `j`. -/
theorem filterMap_erase_congr {β : Type*} {f g : Nat → Option β} {n j : Nat}
    (h : ∀ i < n, i ≠ j → f i = g i) :
    ((List.range n).erase j).filterMap f = ((List.range n).erase j).filterMap g := by
  apply List.filterMap_congr
  intro i hi
  have hne : i ≠ j := fun hij => List.nodup_range.not_mem_erase (hij ▸ hi)
  exact h i (List.mem_range.mp (List.mem_of_mem_erase hi)) hne

/-- Counting the members of a list by their positions. -/
theorem count_eq_countP_range {α : Type*} [DecidableEq α] (a : α) (l : List α) :
    l.count a = (List.range l.length).countP fun i => l[i]? = some a := by
  induction l using List.reverseRecOn with
  | nil => rfl
  | append_singleton l x ih =>
      have hold : (List.range l.length).countP (fun i => (l ++ [x])[i]? = some a) =
          (List.range l.length).countP fun i => l[i]? = some a := by
        apply List.countP_congr
        intro i hi
        rw [List.getElem?_append_left (List.mem_range.mp hi)]
      rw [List.length_append, List.length_singleton, List.range_succ, List.countP_append, hold,
        ← ih, List.count_append]
      simp [List.count_singleton]

/-- A list that does not consist of `a`s has a position without one. -/
theorem exists_ne_of_count_lt {α : Type*} [DecidableEq α] {a : α} {l : List α}
    (h : l.count a < l.length) : ∃ j < l.length, l[j]? ≠ some a := by
  by_contra hall
  push Not at hall
  have heq : l.count a = l.length := by
    rw [List.count_eq_length]
    intro b hb
    obtain ⟨i, hi, rfl⟩ := List.getElem_of_mem hb
    have := hall i hi
    rw [List.getElem?_eq_getElem hi, Option.some.injEq] at this
    exact this.symm
  omega

end CustLib.Probe
