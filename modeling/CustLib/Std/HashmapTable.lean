import CustLib.Lib.Probe
import CustLib.Std.Hashmap

/-!
# The table behind `std::hashmap`

What one write does to the entries of the arrays, and one spec lemma for each probe loop of the
source: in a table with a power of two of slots, one of them empty, the loop ends within as many
rounds as there are slots, and ends where it should.
-/

namespace CustLib.Hashmap

open CustLib.Probe

variable {ks vs : Nat}

/-! ## Entries

The arrays as a list of entries. A write into one slot changes the entries by one element, up to order
(`Sized.entries_put`), which is all that the finite map above needs to know about it.
-/

namespace Arrays

def entry (arr : Arrays ks vs) (i : Nat) : Option (Bytes ks × Bytes vs) :=
  if arr.ctrl[i]? = some .full then do return (← arr.keys[i]?, ← arr.values[i]?) else none

def entries (arr : Arrays ks vs) : List (Bytes ks × Bytes vs) :=
  (List.range arr.ctrl.length).filterMap arr.entry

structure Sized (arr : Arrays ks vs) (cap : Nat) : Prop where
  ctrl   : arr.ctrl.length = cap
  keys   : arr.keys.length = cap
  values : arr.values.length = cap

/-- Slot `j` is empty: here a probe ends. -/
def Empty (arr : Arrays ks vs) (j : Nat) : Prop := arr.ctrl[j]? = some .empty

theorem entry_eq_some {arr : Arrays ks vs} {i : Nat} {e : Bytes ks × Bytes vs} :
    arr.entry i = some e ↔
      arr.ctrl[i]? = some .full ∧ arr.keys[i]? = some e.1 ∧ arr.values[i]? = some e.2 := by
  obtain ⟨k, v⟩ := e
  simp only [entry, Option.ite_none_right_eq_some, Option.bind_eq_bind, Option.pure_def,
    Option.bind_eq_some_iff, Option.some.injEq, Prod.mk.injEq]
  constructor
  · rintro ⟨hfull, k', hk, v', hv, rfl, rfl⟩
    exact ⟨hfull, hk, hv⟩
  · rintro ⟨hfull, hk, hv⟩
    exact ⟨hfull, k, hk, v, hv, rfl, rfl⟩

theorem Sized.lt {arr : Arrays ks vs} {cap i : Nat} (hs : arr.Sized cap) {c : Slot}
    (h : arr.ctrl[i]? = some c) : i < cap := by
  obtain ⟨hi, -⟩ := List.getElem?_eq_some_iff.mp h
  exact hs.ctrl ▸ hi

theorem Sized.slot {arr : Arrays ks vs} {cap i : Nat} (hs : arr.Sized cap) (hi : i < cap) :
    ∃ c, arr.ctrl[i]? = some c :=
  ⟨_, List.getElem?_eq_getElem (hs.ctrl.symm ▸ hi)⟩

theorem Sized.key {arr : Arrays ks vs} {cap i : Nat} (hs : arr.Sized cap) (hi : i < cap) :
    ∃ k, arr.keys[i]? = some k :=
  ⟨_, List.getElem?_eq_getElem (hs.keys.symm ▸ hi)⟩

theorem Sized.value {arr : Arrays ks vs} {cap i : Nat} (hs : arr.Sized cap) (hi : i < cap) :
    ∃ v, arr.values[i]? = some v :=
  ⟨_, List.getElem?_eq_getElem (hs.values.symm ▸ hi)⟩

/-- A full slot holds an entry. -/
theorem Sized.entry {arr : Arrays ks vs} {cap i : Nat} (hs : arr.Sized cap)
    (h : arr.ctrl[i]? = some .full) : ∃ e, arr.entry i = some e := by
  obtain ⟨k, hk⟩ := hs.key (hs.lt h)
  obtain ⟨v, hv⟩ := hs.value (hs.lt h)
  exact ⟨(k, v), entry_eq_some.mpr ⟨h, hk, hv⟩⟩

theorem entry_none {arr : Arrays ks vs} {i : Nat} (h : arr.ctrl[i]? ≠ some .full) :
    arr.entry i = none := if_neg h

/-- The full slots are counted by the entries. -/
theorem Sized.length_entries {arr : Arrays ks vs} {cap : Nat} (hs : arr.Sized cap) :
    arr.entries.length = arr.ctrl.count .full := by
  rw [entries, List.length_filterMap_eq_countP, count_eq_countP_range]
  apply List.countP_congr
  intro i _
  rw [decide_eq_true_iff]
  constructor
  · intro h
    by_contra hne
    rw [entry_none hne] at h
    exact nomatch h
  · intro h
    obtain ⟨e, he⟩ := hs.entry h
    rw [he, Option.isSome_some]

theorem mem_entries {arr : Arrays ks vs} {cap : Nat} (hs : arr.Sized cap)
    {e : Bytes ks × Bytes vs} : e ∈ arr.entries ↔ ∃ j, arr.entry j = some e := by
  rw [entries, List.mem_filterMap]
  constructor
  · rintro ⟨j, -, hj⟩
    exact ⟨j, hj⟩
  · rintro ⟨j, hj⟩
    exact ⟨j, List.mem_range.mpr (hs.ctrl.symm ▸ hs.lt (entry_eq_some.mp hj).1), hj⟩

/-- Two tables that differ in slot `j` only: their entries, with that slot taken out. -/
theorem entries_perm {arr arr' : Arrays ks vs} {cap j : Nat} (hs : arr.Sized cap)
    (hs' : arr'.Sized cap) (hj : j < cap) (h : ∀ i < cap, i ≠ j → arr'.entry i = arr.entry i) :
    ∃ rest, arr.entries.Perm ((arr.entry j).toList ++ rest) ∧
      arr'.entries.Perm ((arr'.entry j).toList ++ rest) := by
  refine ⟨((List.range cap).erase j).filterMap arr.entry, ?_, ?_⟩
  · rw [entries, hs.ctrl]
    exact filterMap_range_perm arr.entry hj
  · rw [entries, hs'.ctrl, ← filterMap_erase_congr h]
    exact filterMap_range_perm arr'.entry hj

def put (arr : Arrays ks vs) (j : Nat) (key : Bytes ks) (value : Bytes vs) : Arrays ks vs :=
  { arr with ctrl := arr.ctrl.set j .full, keys := arr.keys.set j key,
             values := arr.values.set j value }

theorem Sized.put {arr : Arrays ks vs} {cap : Nat} (hs : arr.Sized cap) (j : Nat) (key : Bytes ks)
    (value : Bytes vs) : (arr.put j key value).Sized cap :=
  ⟨by simp [Arrays.put, hs.ctrl], by simp [Arrays.put, hs.keys], by simp [Arrays.put, hs.values]⟩

/-- The entry that was written, and those that were there. -/
theorem Sized.entry_put {arr : Arrays ks vs} {cap j : Nat} (hs : arr.Sized cap) (hj : j < cap)
    (key : Bytes ks) (value : Bytes vs) (i : Nat) :
    (arr.put j key value).entry i = if i = j then some (key, value) else arr.entry i := by
  by_cases hij : i = j
  · subst hij
    rw [if_pos rfl, entry_eq_some]
    exact ⟨List.getElem?_set_self (hs.ctrl.symm ▸ hj), List.getElem?_set_self (hs.keys.symm ▸ hj),
      List.getElem?_set_self (hs.values.symm ▸ hj)⟩
  · rw [if_neg hij]
    simp only [Arrays.entry, Arrays.put, List.getElem?_set_ne (Ne.symm hij)]

/-- Writing a value into a full slot. -/
theorem Sized.entry_setValue {arr : Arrays ks vs} {cap j : Nat} (hs : arr.Sized cap)
    {e : Bytes ks × Bytes vs} (he : arr.entry j = some e) (value : Bytes vs) (i : Nat) :
    Arrays.entry { arr with values := arr.values.set j value } i =
      if i = j then some (e.1, value) else arr.entry i := by
  obtain ⟨hfull, hk, -⟩ := entry_eq_some.mp he
  by_cases hij : i = j
  · subst hij
    rw [if_pos rfl, entry_eq_some]
    exact ⟨hfull, hk, List.getElem?_set_self (hs.values.symm ▸ hs.lt hfull)⟩
  · rw [if_neg hij]
    simp only [Arrays.entry, List.getElem?_set_ne (Ne.symm hij)]

/-- A tombstone in place of an entry. -/
theorem Sized.entry_setTombstone {arr : Arrays ks vs} {cap j : Nat} (hs : arr.Sized cap)
    (hj : j < cap) (i : Nat) :
    Arrays.entry { arr with ctrl := arr.ctrl.set j .tombstone } i =
      if i = j then none else arr.entry i := by
  by_cases hij : i = j
  · subst hij
    rw [if_pos rfl]
    apply entry_none
    rw [List.getElem?_set_self (hs.ctrl.symm ▸ hj)]
    simp
  · rw [if_neg hij]
    simp only [Arrays.entry, List.getElem?_set_ne (Ne.symm hij)]

/-- Writing into a slot that was not full adds an entry. -/
theorem Sized.entries_put {arr : Arrays ks vs} {cap j : Nat} (hs : arr.Sized cap) (hj : j < cap)
    (hfree : arr.ctrl[j]? ≠ some .full) (key : Bytes ks) (value : Bytes vs) :
    (arr.put j key value).entries.Perm ((key, value) :: arr.entries) := by
  obtain ⟨rest, hold, hnew⟩ := entries_perm hs (hs.put j key value) hj
    fun i _ hij => by rw [hs.entry_put hj, if_neg hij]
  rw [entry_none hfree] at hold
  rw [hs.entry_put hj, if_pos rfl] at hnew
  exact hnew.trans (hold.symm.cons _)

/-- Writing an entry makes no slot empty. -/
theorem empty_put {arr : Arrays ks vs} {j : Nat} {key : Bytes ks} {value : Bytes vs} {i : Nat}
    (h : (arr.put j key value).Empty i) : arr.Empty i := by
  simp only [Empty, put, List.getElem?_set] at h ⊢
  split at h
  · split at h <;> exact nomatch h
  · exact h

theorem Sized.store_ctrl {arr : Arrays ks vs} {cap j : Nat} (hs : arr.Sized cap) (hj : j < cap)
    (c : Slot) : store arr.ctrl j c = some (arr.ctrl.set j c) := store_eq (hs.ctrl.symm ▸ hj) c

theorem Sized.store_keys {arr : Arrays ks vs} {cap j : Nat} (hs : arr.Sized cap) (hj : j < cap)
    (k : Bytes ks) : store arr.keys j k = some (arr.keys.set j k) := store_eq (hs.keys.symm ▸ hj) k

theorem Sized.store_values {arr : Arrays ks vs} {cap j : Nat} (hs : arr.Sized cap) (hj : j < cap)
    (v : Bytes vs) : store arr.values j v = some (arr.values.set j v) :=
  store_eq (hs.values.symm ▸ hj) v

end Arrays

/-! ## Capacities and slots

An allocated table has a power of two of slots, at least 8 and less than `2 ^ 64`. So the home slot and
the next slot, which the source computes with a mask, are remainders.
-/

def CapOk (cap : Nat) : Prop := ∃ k, 3 ≤ k ∧ k ≤ 63 ∧ cap = 2 ^ k

theorem CapOk.pos {cap : Nat} (h : CapOk cap) : 0 < cap := by
  obtain ⟨k, -, -, rfl⟩ := h
  exact Nat.two_pow_pos k

theorem CapOk.bounds {cap : Nat} (h : CapOk cap) : 8 ≤ cap ∧ cap ≤ 2 ^ 63 := by
  obtain ⟨k, hk₃, hk, rfl⟩ := h
  exact ⟨Nat.pow_le_pow_right (n := 2) (by decide) hk₃, Nat.pow_le_pow_right (by decide) hk⟩

/-- The masked home of a key is where its probe starts. -/
theorem homeSlot_eq {cap : Nat} (h : CapOk cap) (m : Map ks vs) (key : Bytes ks) :
    homeSlot m (cap - 1) key = slot cap (m.hash key).toNat 0 := by
  obtain ⟨k, -, -, rfl⟩ := h
  exact and_mask _ _

/-- The masked successor is the next slot of the probe, wrap-around included. -/
theorem nextSlot_eq {cap : Nat} (h : CapOk cap) (n i : Nat) :
    nextSlot (cap - 1) (slot cap n i) = slot cap n (i + 1) := by
  obtain ⟨k, -, hk, rfl⟩ := h
  rw [nextSlot, wadd_and_mask _ _ (by omega), slot_succ]

/-! ## The probe loops end

One spec lemma for each loop: `findFree_spec` for the copy in `rehash`, `findLoop_spec` for
`find_index`, `insertLoop_spec` for `insert_absent`. All three need one empty slot, which stops the
probe, and say where it stops.
-/

/-- `rehash` finds a slot that is not full. -/
theorem findFree_spec {ctrl : List Slot} {cap : Nat} (hcap : CapOk cap) (hlen : ctrl.length = cap)
    (hroom : ctrl.count .full < cap) (h : Nat) :
    ∃ j < cap, (∀ fuel ≥ cap, findFree ctrl (cap - 1) fuel (slot cap h 0) = some j) ∧
      ctrl[j]? ≠ some .full ∧ Reach (fun s => ctrl[s]? ≠ some .full) cap h j := by
  obtain ⟨j₀, hj₀, hfree⟩ := exists_ne_of_count_lt (hlen.symm ▸ hroom)
  obtain ⟨n, hn, hstop, hskip⟩ :=
    exists_first (p := fun s => ctrl[s]? ≠ some .full) h ⟨j₀, hlen ▸ hj₀, hfree⟩
  have hjump : ∀ i < n, ∀ fuel, findFree ctrl (cap - 1) (fuel + 1) (slot cap h i) =
      findFree ctrl (cap - 1) fuel (slot cap h (i + 1)) := by
    intro i hi fuel
    have hfull : ctrl[slot cap h i]? = some .full := not_not.mp (hskip i hi)
    simp [findFree, hfull, nextSlot_eq hcap]
  have hlt := slot_lt hcap.pos h n
  refine ⟨slot cap h n, hlt, ?_, hstop, n, rfl, fun i hi => hskip i hi⟩
  intro fuel hfuel
  obtain ⟨rest, rfl⟩ : ∃ rest, fuel = rest + 1 + n := ⟨fuel - 1 - n, by omega⟩
  rw [iterate_skip (findFree ctrl (cap - 1)) (slot cap h) hjump (rest + 1)]
  obtain ⟨c, hc⟩ : ∃ c, ctrl[slot cap h n]? = some c :=
    ⟨_, List.getElem?_eq_getElem (hlen.symm ▸ hlt)⟩
  have hne : c ≠ .full := fun heq => hstop (heq ▸ hc)
  simp [findFree, hc, hne]

/-- `find_index` ends on an entry whose key is equal, or else on an empty slot that no equal key is
    stored behind. -/
theorem findLoop_spec {m : Map ks vs} {cap : Nat} (hcap : CapOk cap) (hs : m.arrays.Sized cap)
    (hempty : ∃ j < cap, m.arrays.Empty j) (key : Bytes ks) (h : Nat) :
    ∃ r, (∀ fuel ≥ cap, findLoop m key (cap - 1) fuel (slot cap h 0) = some r) ∧
      (∀ j, r = some j → ∃ e, m.arrays.entry j = some e ∧ m.keyEq e.1 key = true) ∧
      (r = none → ∀ j e, m.arrays.entry j = some e → Reach m.arrays.Empty cap h j →
        m.keyEq e.1 key = false) := by
  -- the slots the loop stops at
  let stop : Nat → Prop := fun j =>
    m.arrays.Empty j ∨ ∃ e, m.arrays.entry j = some e ∧ m.keyEq e.1 key = true
  have hstop : ∃ j < cap, stop j := by
    obtain ⟨j, hj, he⟩ := hempty
    exact ⟨j, hj, .inl he⟩
  obtain ⟨n, hn, hat, hskip⟩ := exists_first h hstop
  have hjump : ∀ i < n, ∀ fuel, findLoop m key (cap - 1) (fuel + 1) (slot cap h i) =
      findLoop m key (cap - 1) fuel (slot cap h (i + 1)) := by
    intro i hi fuel
    obtain ⟨hne, hkey⟩ := not_or.mp (hskip i hi)
    have hlt : slot cap h i < m.arrays.ctrl.length := hs.ctrl.symm ▸ slot_lt hcap.pos h i
    have hc := List.getElem?_eq_getElem hlt
    cases hcs : m.arrays.ctrl[slot cap h i] with
    | empty => exact absurd (hc.trans (congrArg some hcs)) hne
    | tombstone =>
        rw [hcs] at hc
        simp [findLoop, hc, nextSlot_eq hcap]
    | full =>
        rw [hcs] at hc
        obtain ⟨e, he⟩ := hs.entry hc
        have hneq : m.keyEq e.1 key = false := by
          rw [Bool.eq_false_iff]
          exact fun heq => hkey ⟨e, he, heq⟩
        simp [findLoop, hc, (Arrays.entry_eq_some.mp he).2.1, hneq, nextSlot_eq hcap]
  have hiter : ∀ fuel ≥ cap, ∃ rest, findLoop m key (cap - 1) fuel (slot cap h 0) =
      findLoop m key (cap - 1) (rest + 1) (slot cap h n) := by
    intro fuel hfuel
    obtain ⟨rest, rfl⟩ : ∃ rest, fuel = rest + 1 + n := ⟨fuel - 1 - n, by omega⟩
    exact ⟨rest, iterate_skip (findLoop m key (cap - 1)) (slot cap h) hjump (rest + 1)⟩
  rcases hat with hend | ⟨e, he, heq⟩
  · have hc : m.arrays.ctrl[slot cap h n]? = some .empty := hend
    refine ⟨none, ?_, nofun, ?_⟩
    · intro fuel hfuel
      obtain ⟨rest, hrest⟩ := hiter fuel hfuel
      simp [hrest, findLoop, hc]
    intro _ j e he hreach
    have hj : ¬ m.arrays.Empty j := by
      rw [Arrays.Empty, (Arrays.entry_eq_some.mp he).1]
      simp
    obtain ⟨i, hi, rfl⟩ := hreach.before hj hend
    rw [Bool.eq_false_iff]
    exact fun heq => hskip i hi (.inr ⟨e, he, heq⟩)
  · obtain ⟨hc, hk, -⟩ := Arrays.entry_eq_some.mp he
    refine ⟨some (slot cap h n), ?_, ?_, nofun⟩
    · intro fuel hfuel
      obtain ⟨rest, hrest⟩ := hiter fuel hfuel
      simp [hrest, findLoop, hc, hk, heq]
    rintro j hj
    obtain rfl := Option.some.inj hj
    exact ⟨e, he, heq⟩

/-- The first tombstone in the first `i` rounds of a probe. -/
def firstTomb (ctrl : List Slot) (cap h : Nat) : Nat → Option Nat
  | 0     => none
  | i + 1 => firstTomb ctrl cap h i <|>
      if ctrl[slot cap h i]? = some .tombstone then some (slot cap h i) else none

/-- The tombstone that the loop remembers is the first one. -/
theorem firstTomb_eq_some {ctrl : List Slot} {cap h n t : Nat}
    (ht : firstTomb ctrl cap h n = some t) :
    ∃ i < n, slot cap h i = t ∧ ctrl[t]? = some .tombstone := by
  induction n with
  | zero => exact nomatch ht
  | succ n ih =>
      rw [firstTomb, Option.orElse_eq_orElse, Option.orElse_eq_or, Option.or_eq_some_iff] at ht
      rcases ht with ht | ⟨-, ht⟩
      · obtain ⟨i, hi, hrest⟩ := ih ht
        exact ⟨i, Nat.lt_succ_of_lt hi, hrest⟩
      · obtain ⟨htomb, rfl⟩ := Option.ite_none_right_eq_some.mp ht |>.imp id Option.some.inj
        exact ⟨n, Nat.lt_succ_self n, rfl, htomb⟩

/-- `insert_absent` ends on the first empty slot of the probe, and knows the first tombstone before
    it. -/
theorem insertLoop_spec {ctrl : List Slot} {cap : Nat} (hcap : CapOk cap) (hlen : ctrl.length = cap)
    (hempty : ∃ j < cap, ctrl[j]? = some .empty) (h : Nat) :
    ∃ n < cap, ctrl[slot cap h n]? = some .empty ∧
      (∀ i < n, ctrl[slot cap h i]? ≠ some .empty) ∧
      ∀ fuel ≥ cap, insertLoop ctrl (cap - 1) fuel (slot cap h 0) none =
        some (slot cap h n, firstTomb ctrl cap h n) := by
  obtain ⟨n, hn, hend, hskip⟩ := exists_first (p := fun s => ctrl[s]? = some .empty) h hempty
  refine ⟨n, hn, hend, hskip, ?_⟩
  have hjump : ∀ i < n, ∀ fuel,
      insertLoop ctrl (cap - 1) (fuel + 1) (slot cap h i) (firstTomb ctrl cap h i) =
        insertLoop ctrl (cap - 1) fuel (slot cap h (i + 1)) (firstTomb ctrl cap h (i + 1)) := by
    intro i hi fuel
    have hlt : slot cap h i < ctrl.length := hlen.symm ▸ slot_lt hcap.pos h i
    have hc := List.getElem?_eq_getElem hlt
    cases hcs : ctrl[slot cap h i] with
    | empty => exact absurd (hcs ▸ hc) (hskip i hi)
    | tombstone =>
        rw [hcs] at hc
        simp [insertLoop, firstTomb, hc, nextSlot_eq hcap]
    | full =>
        rw [hcs] at hc
        simp [insertLoop, firstTomb, hc, nextSlot_eq hcap]
  intro fuel hfuel
  obtain ⟨rest, rfl⟩ : ∃ rest, fuel = rest + 1 + n := ⟨fuel - 1 - n, by omega⟩
  have hiter := iterate_skip (fun fuel (s : Nat × Option Nat) =>
      insertLoop ctrl (cap - 1) fuel s.1 s.2)
    (fun i => (slot cap h i, firstTomb ctrl cap h i)) hjump (rest + 1)
  exact hiter.trans (by simp [insertLoop, hend])

end CustLib.Hashmap
