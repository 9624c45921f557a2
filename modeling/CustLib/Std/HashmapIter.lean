import CustLib.Lib.History
import CustLib.Std.HashmapInv

/-!
# `std::hashmap`: iteration

The iterator is a slot number that walks up the table. Between two steps of it the program may remove
any keys and overwrite the values of present ones; neither moves an entry. An entry is told from
others by its slot. `iteration_visits_live`: the iterator hands out what was live at the start and not
removed in the meantime, each once, with the value it has by then, and comes to an end.
-/

namespace CustLib.Hashmap.Iter

open CustLib.History
open CustLib.Machine (run)

variable {ks vs : Nat}

/-! ## The functions of the source

`std_hashmap_iter_new` and `std_hashmap_iter_next`. The iterator of the source holds a pointer to its
map and a slot number; only the number changes.
-/

/-- `std_hashmap_iter_new`: the slot to look at first. -/
def iterNew : Nat := 0

/-- The loop of `std_hashmap_iter_next`: the next full slot, and the slot after it. -/
def iterLoop (m : Map ks vs) : Nat → Nat → Option (Option Nat × Nat)
  | 0, _ => none
  | fuel + 1, slot => do
    if slot < m.cap then
      if (← m.arrays.ctrl[slot]?) = .full then return (some slot, wadd slot 1)
      else iterLoop m fuel (wadd slot 1)
    else return (none, slot)

/-- What a call hands out: where in the two arrays `*key_out` and `*value_out` point to. `none` is the
    null pointer. -/
structure Item where
  key   : Option Nat
  value : Option Nat
  deriving DecidableEq, Repr

/-- `std_hashmap_iter_next`: what it hands out, if it returns true, and the iterator's slot. -/
def iterNext (m : Map ks vs) (slot : Nat) : Option (Option Item × Nat) := do
  let (found, slot) ← iterLoop m (m.cap + 1) slot
  return (found.map fun i =>
    ⟨if ks ≠ 0 then some i else none, if vs ≠ 0 then some i else none⟩, slot)

/-! ## A program around an iterator

One iterator walks while the program removes keys and overwrites values. Insertions of new keys may
rebuild the table and are forbidden by the source, so the machine has no such step. What happened is
recorded by slots.
-/

/-- Read what a handed out pointer points to; the null pointer stands for no bytes. -/
def deref {n : Nat} (arr : List (Bytes n)) : Option Nat → Option (Bytes n)
  | none   => some (Vector.replicate n 0)
  | some i => arr[i]?

/-- What happened: `yielded`, `removed` and `wrote` name the slot of the entry. -/
inductive Event (ks vs : Nat) where
  | yielded (i : Nat) (key : Bytes ks) (value : Bytes vs)
  | ended
  | removed (i : Nat)
  | wrote (i : Nat) (value : Bytes vs)
  deriving DecidableEq

/-- What the program does next. -/
inductive Act (ks vs : Nat) where
  | next
  | remove (key : Bytes ks)
  | overwrite (key : Bytes ks) (value : Bytes vs) (oldValue : Option (Bytes vs))
      (replaced : Option Bool)
  deriving DecidableEq

structure Walk (ks vs : Nat) where
  map   : Map ks vs
  alloc : Alloc
  slot  : Nat
  log   : List (Event ks vs)

def Walk.start (m : Map ks vs) (a : Alloc) : Walk ks vs := ⟨m, a, iterNew, []⟩

/-- One call. The program reads what an iterator hands out at once, and calls `insert_move` only with
    keys that `contains` reports. -/
def exec (w : Walk ks vs) : Act ks vs → Option (Walk ks vs)
  | .next => do
    match (← iterNext w.map w.slot) with
    | (none, slot)      => return { w with slot, log := w.log ++ [.ended] }
    | (some item, slot) =>
      let key ← deref w.map.arrays.keys item.key
      let value ← deref w.map.arrays.values item.value
      return { w with slot, log := w.log ++ [.yielded (slot - 1) key value] }
  | .remove key => do
    let found ← findIndex w.map key
    let (_, map) ← remove w.map key
    return { w with map, log := w.log ++ (found.map Event.removed).toList }
  | .overwrite key value oldValue replaced => do
    if (← contains w.map key) then
      let found ← findIndex w.map key
      let (_, map, alloc) ← insertMove w.map key value oldValue replaced w.alloc
      return { w with map, alloc, log := w.log ++ (found.map (Event.wrote · value)).toList }
    else return w

/-! ## What the iterator owes

`Rightly` is the specification of one yield, given what came before it.
-/

/-- The value in slot `i`, which held `v` at the start. -/
def current (log : List (Event ks vs)) (i : Nat) (v : Bytes vs) : Bytes vs :=
  log.foldl (fun v e => match e with
    | .wrote j w => if j = i then w else v
    | _ => v) v

/-- What has to come before a yield: an entry of the map `m` at the start, not removed, not yielded, and
    the iterator is not at its end. The value is the current one. -/
def Rightly (m : Map ks vs) (pre : List (Event ks vs)) : Event ks vs → Prop
  | .yielded i key value => .ended ∉ pre ∧ .removed i ∉ pre ∧ (∀ k v, .yielded i k v ∉ pre) ∧
      ∃ v₀, m.arrays.entry i = some (key, v₀) ∧ value = current pre i v₀
  | _ => True

@[simp] theorem current_concat (log : List (Event ks vs)) (e : Event ks vs) (i : Nat)
    (v : Bytes vs) : current (log ++ [e]) i v = match e with
      | .wrote j w => if j = i then w else current log i v
      | _ => current log i v := by
  simp only [current, List.foldl_append, List.foldl_cons, List.foldl_nil]

/-! ## One call

What each step does to the table: `iter_next` stops at the next full slot, a removal empties the slot of
its key for good, and an insertion of a present key stays in its slot.
-/

/-- **The loop** goes to the first full slot, or to the end. -/
theorem iterLoop_spec {m : Map ks vs} (hw : Wf m) {fuel slot : Nat} (hslot : slot ≤ m.cap)
    (hfuel : m.cap - slot < fuel) :
    (∃ i, iterLoop m fuel slot = some (some i, i + 1) ∧ slot ≤ i ∧ i < m.cap ∧
      m.arrays.ctrl[i]? = some .full ∧ ∀ j, slot ≤ j → j < i → m.arrays.ctrl[j]? ≠ some .full) ∨
    (iterLoop m fuel slot = some (none, m.cap) ∧
      ∀ j, slot ≤ j → j < m.cap → m.arrays.ctrl[j]? ≠ some .full) := by
  induction fuel generalizing slot with
  | zero => omega
  | succ fuel ih =>
      by_cases hend : slot < m.cap
      · obtain ⟨c, hc⟩ := hw.sized.slot hend
        have hcap := (hw.capOk (by omega)).bounds.2
        have hnext : wadd slot 1 = slot + 1 := wadd_eq (by omega)
        by_cases hfull : c = .full
        · subst hfull
          refine .inl ⟨slot, by simp [iterLoop, hend, hc, hnext], Nat.le_refl _, hend, hc, ?_⟩
          intro j hle hlt
          omega
        · -- the slot is skipped
          have hloop : iterLoop m (fuel + 1) slot = iterLoop m fuel (slot + 1) := by
            simp [iterLoop, hend, hc, hfull, hnext]
          have hskip : m.arrays.ctrl[slot]? ≠ some .full := by simpa [hc] using hfull
          rw [hloop]
          rcases ih hend (by omega) with ⟨i, hi, hle, hlt, hif, hbefore⟩ | ⟨hi, hbefore⟩
          · refine .inl ⟨i, hi, by omega, hlt, hif, ?_⟩
            intro j hj hji
            rcases Nat.eq_or_lt_of_le hj with rfl | hj
            · exact hskip
            · exact hbefore j hj hji
          · refine .inr ⟨hi, ?_⟩
            intro j hj hjc
            rcases Nat.eq_or_lt_of_le hj with rfl | hj
            · exact hskip
            · exact hbefore j hj hjc
      · obtain rfl : slot = m.cap := by omega
        refine .inr ⟨by simp [iterLoop], ?_⟩
        intro j hle hlt
        omega

/-- What a handed out pointer to slot `i` points to, be there any bytes or not. -/
theorem deref_eq {n : Nat} {arr : List (Bytes n)} {i : Nat} {x : Bytes n} (h : arr[i]? = some x) :
    deref arr (if n = 0 then none else some i) = some x := by
  by_cases hn : n = 0
  · subst hn
    simp only [if_true, deref, Option.some.injEq]
    ext j hj
    exact absurd hj (Nat.not_lt_zero j)
  · rw [if_neg hn]
    exact h

/-- `remove` of the entry in slot `j` touches no other slot. -/
theorem remove_at {m : Map ks vs} (hw : Wf m) {key : Bytes ks} {j : Nat} {e : Bytes ks × Bytes vs}
    (hfind : findIndex m key = some (some j)) (he : m.arrays.entry j = some e) :
    ∃ m', remove m key = some (true, m') ∧ Wf m' ∧ m'.cap = m.cap ∧
      ∀ i, m'.arrays.entry i = if i = j then none else m.arrays.entry i := by
  have hj := hw.sized.lt (Arrays.entry_eq_some.mp he).1
  obtain ⟨ctrl, hstore, hw', -⟩ := tombstone_spec hw he
  obtain rfl := Option.some.inj ((hw.sized.store_ctrl hj .tombstone).symm.trans hstore)
  exact ⟨_, by simp [remove, hfind, hstore], hw', rfl, hw.sized.entry_setTombstone hj⟩

/-- `insert_move` of the key of the entry in slot `j` changes its value and no other slot. -/
theorem insertMove_at {m : Map ks vs} (hw : Wf m) {key : Bytes ks} {j : Nat}
    {e : Bytes ks × Bytes vs} (hfind : findIndex m key = some (some j))
    (he : m.arrays.entry j = some e) (value : Bytes vs) (oldValue : Option (Bytes vs))
    (replaced : Option Bool) (a : Alloc) :
    ∃ r m', insertMove m key value oldValue replaced a = some (r, m', a) ∧ Wf m' ∧
      m'.cap = m.cap ∧
        ∀ i, m'.arrays.entry i = if i = j then some (e.1, value) else m.arrays.entry i := by
  obtain ⟨hfull, -, hv⟩ := Arrays.entry_eq_some.mp he
  obtain ⟨values, rest, hstore, hw', -, -⟩ := overwrite_spec hw he value
  obtain rfl :=
    Option.some.inj ((hw.sized.store_values (hw.sized.lt hfull) value).symm.trans hstore)
  exact ⟨_, _, by simp [insertMove, hfind, hv, hstore]; rfl, hw', rfl,
    hw.sized.entry_setValue he value⟩

/-! ## The invariant

The table is that of the start with the recorded events applied (`entryNow`), and every slot behind the
iterator was dealt with. Each kind of step has its own lemma.
-/

/-- The entry in slot `i` by now, when `m` is the map at the start. -/
def entryNow (m : Map ks vs) (log : List (Event ks vs)) (i : Nat) : Option (Bytes ks × Bytes vs) :=
  if .removed i ∈ log then none else (m.arrays.entry i).map fun e => (e.1, current log i e.2)

structure Inv (m : Map ks vs) (calls : Nat) (w : Walk ks vs) : Prop where
  wf      : Wf w.map
  cap     : w.map.cap = m.cap
  slot    : w.slot ≤ m.cap
  entries : ∀ i, w.map.arrays.entry i = entryNow m w.log i
  ahead   : ∀ i k v, .yielded i k v ∈ w.log → i < w.slot
  passed  : ∀ i < w.slot, ∀ e, m.arrays.entry i = some e →
    (∃ k v, .yielded i k v ∈ w.log) ∨ .removed i ∈ w.log
  ended   : .ended ∈ w.log → w.slot = m.cap
  count   : calls ≤ w.slot ∨ .ended ∈ w.log
  rightly : Each (Rightly m) w.log

theorem inv_start {m : Map ks vs} (hw : Wf m) (a : Alloc) : Inv m 0 (Walk.start m a) where
  wf      := hw
  cap     := rfl
  slot    := Nat.zero_le _
  entries := by
    intro i
    cases h : m.arrays.entry i with
    | none => simp [Walk.start, entryNow, h]
    | some e => simp [Walk.start, entryNow, h, current]
  ahead   := by simp [Walk.start]
  passed  := by simp [Walk.start, iterNew]
  ended   := by simp [Walk.start]
  count   := .inl (Nat.zero_le _)
  rightly := each_nil

/-- What is live in the table now was live at the start. -/
theorem entryNow_eq_some {m : Map ks vs} {log : List (Event ks vs)} {i : Nat}
    {e : Bytes ks × Bytes vs} (h : entryNow m log i = some e) :
    .removed i ∉ log ∧ ∃ v₀, m.arrays.entry i = some (e.1, v₀) ∧ e.2 = current log i v₀ := by
  unfold entryNow at h
  split at h
  · exact nomatch h
  · next hrem =>
    obtain ⟨⟨k, v⟩, he, rfl⟩ := Option.map_eq_some_iff.mp h
    exact ⟨hrem, v, he, rfl⟩

/-- A slot that is not full was not live at the start, or was removed. -/
theorem Inv.not_full {m : Map ks vs} {calls : Nat} {w : Walk ks vs} (h : Inv m calls w) {i : Nat}
    (hfull : w.map.arrays.ctrl[i]? ≠ some .full) {e : Bytes ks × Bytes vs}
    (he : m.arrays.entry i = some e) : .removed i ∈ w.log := by
  by_contra hrem
  have hnow := h.entries i
  rw [Arrays.entry_none hfull, entryNow, if_neg hrem, he] at hnow
  exact nomatch hnow

/-- A step of the iterator leaves the table alone. -/
theorem entryNow_yielded (m : Map ks vs) (log : List (Event ks vs)) (j : Nat) (k : Bytes ks)
    (v : Bytes vs) (i : Nat) : entryNow m (log ++ [.yielded j k v]) i = entryNow m log i := by
  simp [entryNow]

theorem entryNow_ended (m : Map ks vs) (log : List (Event ks vs)) (i : Nat) :
    entryNow m (log ++ [.ended]) i = entryNow m log i := by
  simp [entryNow]

theorem entryNow_removed (m : Map ks vs) (log : List (Event ks vs)) (j i : Nat) :
    entryNow m (log ++ [.removed j]) i = if i = j then none else entryNow m log i := by
  by_cases hij : i = j
  · simp [entryNow, hij]
  · simp [entryNow, hij]

/-- A value written over the one of a live entry. -/
theorem entryNow_wrote {m : Map ks vs} {log : List (Event ks vs)} {j : Nat}
    {e : Bytes ks × Bytes vs} (he : entryNow m log j = some e) (value : Bytes vs) (i : Nat) :
    entryNow m (log ++ [.wrote j value]) i =
      if i = j then some (e.1, value) else entryNow m log i := by
  by_cases hij : i = j
  · subst hij
    obtain ⟨hrem, v₀, hm, -⟩ := entryNow_eq_some he
    simp [entryNow, hrem, hm]
  · simp [entryNow, hij, Ne.symm hij]

/-- The iterator skips only what it does not owe. -/
theorem Inv.skip {m : Map ks vs} {calls : Nat} {w : Walk ks vs} (h : Inv m calls w) {stop : Nat}
    (hskip : ∀ j, w.slot ≤ j → j < stop → w.map.arrays.ctrl[j]? ≠ some .full) {j : Nat}
    (hj : j < stop) {e : Bytes ks × Bytes vs} (he : m.arrays.entry j = some e) :
    (∃ k v, .yielded j k v ∈ w.log) ∨ .removed j ∈ w.log := by
  rcases Nat.lt_or_ge j w.slot with hold | hnew
  · exact h.passed j hold e he
  · exact .inr (h.not_full (hskip j hnew hj) he)

/-- The iterator hands out the entry in slot `i`, the first full one. -/
theorem Inv.yield {m : Map ks vs} {calls : Nat} {w : Walk ks vs} (h : Inv m calls w) {i : Nat}
    (hle : w.slot ≤ i) (hlt : i < m.cap) {e : Bytes ks × Bytes vs}
    (he : w.map.arrays.entry i = some e)
    (hskip : ∀ j, w.slot ≤ j → j < i → w.map.arrays.ctrl[j]? ≠ some .full) :
    Inv m (calls + 1) { w with slot := i + 1, log := w.log ++ [.yielded i e.1 e.2] } := by
  have hopen : .ended ∉ w.log := by
    intro hend
    have hslot := h.ended hend
    omega
  constructor
  case wf => exact h.wf
  case cap => exact h.cap
  case slot => exact hlt
  case entries =>
    intro j
    rw [entryNow_yielded]
    exact h.entries j
  case ahead =>
    intro j k v hj
    simp only [List.mem_append, List.mem_singleton, Event.yielded.injEq] at hj
    rcases hj with hj | ⟨rfl, -⟩
    · exact Nat.lt_succ_of_lt (Nat.lt_of_lt_of_le (h.ahead j k v hj) hle)
    · exact Nat.lt_succ_self _
  case passed =>
    intro j hj e' he'
    simp only [List.mem_append]
    rcases Nat.lt_or_ge j i with hbefore | hat
    · rcases h.skip hskip hbefore he' with ⟨k, v, hy⟩ | hr
      · exact .inl ⟨k, v, .inl hy⟩
      · exact .inr (.inl hr)
    · obtain rfl : j = i := Nat.le_antisymm (Nat.le_of_lt_succ hj) hat
      exact .inl ⟨e.1, e.2, .inr (List.mem_singleton_self _)⟩
  case ended => exact fun hend => absurd (by simpa using hend) hopen
  case count =>
    rcases h.count with hcount | hend
    · exact .inl (Nat.succ_le_succ (Nat.le_trans hcount hle))
    · exact absurd hend hopen
  case rightly =>
    -- what is live by now was live at the start, and the iterator has not been here
    have hnow := h.entries i
    rw [he] at hnow
    obtain ⟨hrem, v₀, hm, hcur⟩ := entryNow_eq_some hnow.symm
    refine each_concat.mpr ⟨h.rightly, hopen, hrem, ?_, v₀, hm, hcur⟩
    intro k v hy
    exact absurd (h.ahead i k v hy) (Nat.not_lt.mpr hle)

/-- The iterator comes to the end of the table. -/
theorem Inv.finish {m : Map ks vs} {calls : Nat} {w : Walk ks vs} (h : Inv m calls w)
    (hskip : ∀ j, w.slot ≤ j → j < w.map.cap → w.map.arrays.ctrl[j]? ≠ some .full) :
    Inv m (calls + 1) { w with slot := w.map.cap, log := w.log ++ [.ended] } := by
  constructor
  case wf => exact h.wf
  case cap => exact h.cap
  case slot => exact Nat.le_of_eq h.cap
  case entries =>
    intro j
    rw [entryNow_ended]
    exact h.entries j
  case ahead =>
    intro j k v hj
    have hslot : w.slot ≤ w.map.cap := h.cap ▸ h.slot
    exact Nat.lt_of_lt_of_le (h.ahead j k v (by simpa using hj)) hslot
  case passed =>
    intro j hj e' he'
    simp only [List.mem_append]
    rcases h.skip hskip hj he' with ⟨k, v, hy⟩ | hr
    · exact .inl ⟨k, v, .inl hy⟩
    · exact .inr (.inl hr)
  case ended => exact fun _ => h.cap
  case count => exact .inr (by simp)
  case rightly => exact each_concat.mpr ⟨h.rightly, trivial⟩

/-- **The iterator** hands out the next live entry, or ends when there is none. -/
theorem Inv.next {m : Map ks vs} {calls : Nat} {w : Walk ks vs} (h : Inv m calls w) :
    ∃ w', exec w .next = some w' ∧ Inv m (calls + 1) w' := by
  have hslot : w.slot ≤ w.map.cap := h.cap ▸ h.slot
  have hfuel : w.map.cap - w.slot < w.map.cap + 1 := by omega
  rcases iterLoop_spec h.wf hslot hfuel with ⟨i, hloop, hle, hlt, hfull, hskip⟩ | ⟨hloop, hskip⟩
  · obtain ⟨e, he⟩ := h.wf.sized.entry hfull
    obtain ⟨-, hk, hv⟩ := Arrays.entry_eq_some.mp he
    refine ⟨_, ?_, h.yield hle (h.cap ▸ hlt) he hskip⟩
    simp [exec, iterNext, hloop, deref_eq hk, deref_eq hv]
  · refine ⟨_, ?_, h.finish hskip⟩
    simp [exec, iterNext, hloop]

/-- What the program does to the table between two steps of the iterator. -/
theorem Inv.change {m : Map ks vs} {calls : Nat} {w : Walk ks vs} (h : Inv m calls w)
    {map : Map ks vs} {alloc : Alloc} {e : Event ks vs} (hw : Wf map) (hcap : map.cap = w.map.cap)
    (he : (∃ j, e = .removed j) ∨ ∃ j v, e = .wrote j v)
    (hentries : ∀ i, map.arrays.entry i = entryNow m (w.log ++ [e]) i) :
    Inv m calls { w with map, alloc, log := w.log ++ [e] } := by
  have hsame : ∀ i k v, .yielded i k v ∈ w.log ++ [e] ↔ .yielded i k v ∈ w.log := by
    rcases he with ⟨j, rfl⟩ | ⟨j, v, rfl⟩ <;> simp
  have hend : .ended ∈ w.log ++ [e] ↔ .ended ∈ w.log := by
    rcases he with ⟨j, rfl⟩ | ⟨j, v, rfl⟩ <;> simp
  constructor
  case wf => exact hw
  case cap => exact hcap.trans h.cap
  case slot => exact h.slot
  case entries => exact hentries
  case ahead => exact fun i k v hi => h.ahead i k v ((hsame i k v).mp hi)
  case passed =>
    intro i hi e' he'
    rcases h.passed i hi e' he' with ⟨k, v, hy⟩ | hr
    · exact .inl ⟨k, v, (hsame i k v).mpr hy⟩
    · exact .inr (List.mem_append_left _ hr)
  case ended => exact fun hmem => h.ended (hend.mp hmem)
  case count => exact h.count.imp_right hend.mpr
  case rightly =>
    refine each_concat.mpr ⟨h.rightly, ?_⟩
    rcases he with ⟨j, rfl⟩ | ⟨j, v, rfl⟩ <;> trivial

theorem Inv.remove {m : Map ks vs} {calls : Nat} {w : Walk ks vs} (h : Inv m calls w)
    (key : Bytes ks) : ∃ w', exec w (.remove key) = some w' ∧ Inv m calls w' := by
  obtain ⟨r, hfind, hsome, -⟩ := findIndex_spec h.wf key
  cases r with
  | none => exact ⟨w, by simp [exec, Hashmap.remove, hfind], h⟩
  | some j =>
      obtain ⟨e, he, -⟩ := hsome j rfl
      obtain ⟨m', hrem, hw', hcap, hentries⟩ := remove_at h.wf hfind he
      refine ⟨{ w with map := m', log := w.log ++ [.removed j] }, by simp [exec, hfind, hrem],
        h.change hw' hcap (.inl ⟨j, rfl⟩) ?_⟩
      intro i
      rw [hentries, entryNow_removed, h.entries]

/-- An overwriting insertion keeps the invariant. -/
theorem Inv.overwrite {m : Map ks vs} {calls : Nat} {w : Walk ks vs} (h : Inv m calls w)
    (key : Bytes ks) (value : Bytes vs) (oldValue : Option (Bytes vs)) (replaced : Option Bool) :
    ∃ w', exec w (.overwrite key value oldValue replaced) = some w' ∧ Inv m calls w' := by
  obtain ⟨r, hfind, hsome, -⟩ := findIndex_spec h.wf key
  cases r with
  | none => exact ⟨w, by simp [exec, contains, hfind], h⟩
  | some j =>
      obtain ⟨e, he, -⟩ := hsome j rfl
      obtain ⟨r, m', hins, hw', hcap, hentries⟩ :=
        insertMove_at h.wf hfind he value oldValue replaced w.alloc
      refine ⟨{ w with map := m', log := w.log ++ [.wrote j value] },
        by simp [exec, contains, hfind, hins], h.change hw' hcap (.inr ⟨j, value, rfl⟩) ?_⟩
      intro i
      have hnow : entryNow m w.log j = some e := (h.entries j).symm.trans he
      rw [hentries, entryNow_wrote hnow, h.entries]

/-! ## Whole iterations

The invariant goes through any interleaving. The iterator reaches its end after as many steps as there
are slots and one more, and then every entry of the start was yielded or removed.
-/

def steps (acts : List (Act ks vs)) : Nat := acts.count .next

/-- **Step lemma.** Every call returns, and keeps the invariant. -/
theorem Inv.step {m : Map ks vs} {done : List (Act ks vs)} {w : Walk ks vs}
    (h : Inv m (steps done) w) (a : Act ks vs) :
    ∃ w', exec w a = some w' ∧ Inv m (steps (done ++ [a])) w' := by
  cases a with
  | next => simpa [steps] using h.next
  | remove key => simpa [steps] using h.remove key
  | overwrite key value oldValue replaced =>
      simpa [steps] using h.overwrite key value oldValue replaced

/-- **Run lemma.** -/
theorem run_inv {m : Map ks vs} (hw : Wf m) (a : Alloc) (acts : List (Act ks vs)) :
    ∃ w, run exec (Walk.start m a) acts = some w ∧ Inv m (steps acts) w :=
  Machine.run_progress (I := fun done w => Inv m (steps done) w) (inv_start hw a)
    fun _ a _ _ _ h => h.step a

/-- What the iterator has passed was handed out, with its own key, or had been removed by then. -/
theorem Inv.visited {m : Map ks vs} {calls : Nat} {w : Walk ks vs} (h : Inv m calls w) {i : Nat}
    (hi : i < w.slot) {e : Bytes ks × Bytes vs} (he : m.arrays.entry i = some e) :
    (∃ v, .yielded i e.1 v ∈ w.log) ∨ .removed i ∈ w.log := by
  rcases h.passed i hi e he with ⟨k, v, hy⟩ | hr
  · obtain ⟨pre, post, hlog⟩ := List.append_of_mem hy
    obtain ⟨-, -, -, v₀, hv₀, -⟩ := h.rightly pre _ post hlog
    obtain rfl : e = (k, v₀) := Option.some.inj (he.symm.trans hv₀)
    exact .inl ⟨v, hy⟩
  · exact .inr hr

/-- **Iteration visits what is live.** On every reachable map, an iterator and any removals and
    overwrites between its steps all return. Each entry handed out was live at the start, has not
    been removed or handed out before, and has its current value; nothing comes after the end. Every
    entry that was live at the start has been handed out when the iterator is past its slot, unless
    it was removed before; at the end the iterator is past all slots. Of `cap + 1` steps one has
    returned false. -/
theorem iteration_visits_live (keyAlign valueAlign : Nat) (hash : Option (Bytes ks → UInt64))
    (keyEq : Option (Bytes ks → Bytes ks → Bool)) (a : Alloc) (ops : List (Op ks vs))
    (acts : List (Act ks vs)) :
    ∃ s w, run Hashmap.step (Hashmap.start keyAlign valueAlign hash keyEq a) ops = some s ∧
      run exec (Walk.start s.map s.alloc) acts = some w ∧
      Each (Rightly s.map) w.log ∧
      (∀ i < w.slot, ∀ e, s.map.arrays.entry i = some e →
        (∃ v, .yielded i e.1 v ∈ w.log) ∨ .removed i ∈ w.log) ∧
      (.ended ∈ w.log → w.slot = s.map.cap) ∧
      (s.map.cap + 1 ≤ steps acts → .ended ∈ w.log) := by
  have hnew : Wf (Hashmap.start keyAlign valueAlign hash keyEq a : State ks vs).map :=
    wf_newIn keyAlign valueAlign hash keyEq
  obtain ⟨s, hrun, hw⟩ := run_wf hnew ops
  obtain ⟨w, hwalk, h⟩ := run_inv hw s.alloc acts
  refine ⟨s, w, hrun, hwalk, h.rightly, fun i hi e he => h.visited hi he, h.ended, ?_⟩
  intro hcalls
  rcases h.count with hcount | hend
  · have := h.slot
    omega
  · exact hend

end CustLib.Hashmap.Iter
