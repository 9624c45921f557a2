import CustLib.Lib.Machine
import CustLib.Std.HashmapTable

/-!
# The invariant of `std::hashmap`

`Wf` is kept by every call, whatever the hash function, the equality and the allocator: the counters
are right, a quarter of the slots is empty, and every entry is on the probe path of its key. One spec
lemma for each function says what it does to the entries. `hashmap_counts` draws the conclusion for
whole runs: the counters are right in every reachable state, and no probe loop runs forever.
-/

namespace CustLib.Hashmap

open CustLib.Probe

variable {ks vs : Nat}

/-! ## The invariant

What holds of a map between two calls. It does not mention the equality beyond what the probe itself
uses, so it is kept for any hash and any `eq`, also for ones that are no equivalence relation.
-/

/-- Every entry is found by the probe for its key before an empty slot is. -/
def Chained (hash : Bytes ks → UInt64) (arr : Arrays ks vs) (cap : Nat) : Prop :=
  ∀ j e, arr.entry j = some e → Reach arr.Empty cap (hash e.1).toNat j

theorem Chained.put {hash : Bytes ks → UInt64} {arr : Arrays ks vs} {cap j : Nat}
    (h : Chained hash arr cap) (hs : arr.Sized cap) (hj : j < cap) {key : Bytes ks}
    (hreach : Reach arr.Empty cap (hash key).toNat j) (value : Bytes vs) :
    Chained hash (arr.put j key value) cap := by
  intro i e he
  rw [hs.entry_put hj] at he
  by_cases hij : i = j
  · rw [if_pos hij, Option.some.injEq] at he
    subst he hij
    exact hreach.mono fun _ => Arrays.empty_put
  · rw [if_neg hij] at he
    exact (h i e he).mono fun _ => Arrays.empty_put

/-- **The invariant of a map.** Either it has no arrays, or a table with right counters, a quarter of it
    empty, and every entry on the probe path of its key. -/
structure Wf (m : Map ks vs) : Prop where
  sized      : m.arrays.Sized m.cap
  cap        : m.cap = 0 ∨ CapOk m.cap
  len        : m.len = m.arrays.ctrl.count .full
  tombstones : m.tombstones = m.arrays.ctrl.count .tombstone
  load       : 4 * (m.len + m.tombstones) ≤ 3 * m.cap
  chained    : Chained m.hash m.arrays m.cap

/-- The hash function and the equality are those of `m`. -/
structure SameTypes (m m' : Map ks vs) : Prop where
  hash  : m'.hash = m.hash
  keyEq : m'.keyEq = m.keyEq

theorem SameTypes.refl (m : Map ks vs) : SameTypes m m := ⟨rfl, rfl⟩

/-- A new map is in order. -/
theorem wf_newIn (keyAlign valueAlign : Nat) (hash : Option (Bytes ks → UInt64))
    (keyEq : Option (Bytes ks → Bytes ks → Bool)) :
    Wf (newIn keyAlign valueAlign hash keyEq : Map ks vs) where
  sized      := ⟨rfl, rfl, rfl⟩
  cap        := .inl rfl
  len        := rfl
  tombstones := rfl
  load       := Nat.le_refl _
  chained    := fun j e he => by simp [newIn, Arrays.entry] at he

theorem Wf.len_eq {m : Map ks vs} (hw : Wf m) : m.len = m.arrays.entries.length := by
  rw [hw.len, hw.sized.length_entries]

/-- Every slot has a control byte. -/
theorem count_slots (l : List Slot) :
    l.count .empty + l.count .full + l.count .tombstone = l.length := by
  induction l with
  | nil => rfl
  | cons c l ih =>
      cases c <;> simp only [List.count_cons, List.length_cons] <;> simp <;> omega

/-- A quarter of the slots is empty. -/
theorem Wf.exists_empty {m : Map ks vs} (hw : Wf m) (hcap : 0 < m.cap) :
    ∃ j < m.cap, m.arrays.Empty j := by
  have hcount := count_slots m.arrays.ctrl
  rw [← hw.len, ← hw.tombstones, hw.sized.ctrl] at hcount
  have hload := hw.load
  have hpos : 0 < m.arrays.ctrl.count .empty := by omega
  obtain ⟨j, hj⟩ := List.mem_iff_getElem?.mp (List.count_pos_iff.mp hpos)
  exact ⟨j, hw.sized.lt hj, hj⟩

theorem Wf.capOk {m : Map ks vs} (hw : Wf m) (hcap : m.cap ≠ 0) : CapOk m.cap :=
  hw.cap.resolve_left hcap

/-! ## `find_index`

A probe that ends at an index has found a full slot whose key is equal; one that ends without has met an
empty slot, and no key of the same hash is equal.
-/

/-- **`find_index`** ends, on an entry with an equal key if its hash is one that such an entry can
    have. -/
theorem findIndex_spec {m : Map ks vs} (hw : Wf m) (key : Bytes ks) :
    ∃ r, findIndex m key = some r ∧
      (∀ j, r = some j → ∃ e, m.arrays.entry j = some e ∧ m.keyEq e.1 key = true) ∧
      (r = none → ∀ e ∈ m.arrays.entries, m.hash e.1 = m.hash key → m.keyEq e.1 key = false) := by
  by_cases hcap : m.cap = 0
  · refine ⟨none, by simp [findIndex, hcap], nofun, ?_⟩
    intro _ e he
    have hlen : m.arrays.ctrl.length = 0 := hw.sized.ctrl.trans hcap
    simp [Arrays.entries, hlen] at he
  · have hok := hw.capOk hcap
    obtain ⟨r, hr, hsome, hnone⟩ := findLoop_spec hok hw.sized (hw.exists_empty hok.pos) key
      (m.hash key).toNat
    refine ⟨r, ?_, hsome, ?_⟩
    · simp only [findIndex, hcap, if_false, homeSlot_eq hok, hr m.cap (Nat.le_refl _)]
    · intro hr e he hhash
      obtain ⟨j, hj⟩ := (Arrays.mem_entries hw.sized).mp he
      exact hnone hr j e hj (hhash ▸ hw.chained j e hj)

/-! ## `rehash` and `ensure_one`

`Copied` is the loop invariant of the copy: the new table holds the entries of the slots that are done,
and is chained by itself. At the end it holds all of them, in fresh arrays without tombstones.
`ensure_one` then leaves room for one entry more, or reports that there is no memory and changes
nothing.
-/

theorem allocateArrays_some {m : Map ks vs} {newCap keyBytes valBytes : Nat} {a a' : Alloc}
    {fresh : Arrays ks vs}
    (h : allocateArrays m newCap keyBytes valBytes a = (some fresh, a')) :
    fresh.ctrl = List.replicate newCap .empty ∧ fresh.Sized newCap := by
  unfold allocateArrays at h
  split at h
  · simp at h
  · split at h
    · simp at h
    · split at h
      · simp at h
      · obtain ⟨rfl, -⟩ := Prod.mk.inj h |>.imp Option.some.inj id
        exact ⟨rfl, by simp, by simp, by simp⟩

structure Copied (m : Map ks vs) (newCap : Nat) (done : List Nat) (new : Arrays ks vs) : Prop where
  sized   : new.Sized newCap
  noTomb  : .tombstone ∉ new.ctrl
  entries : new.entries.Perm (done.filterMap m.arrays.entry)
  chained : Chained m.hash new newCap

/-- One round of `rehash`. -/
theorem copySlot_spec {m : Map ks vs} (hs : m.arrays.Sized m.cap) {newCap : Nat}
    (hcap : CapOk newCap) {done : List Nat} {new : Arrays ks vs} (hc : Copied m newCap done new)
    (hroom : (done.filterMap m.arrays.entry).length < newCap) {i : Nat} (hi : i < m.cap) :
    ∃ new', copySlot m newCap new i = some new' ∧ Copied m newCap (done ++ [i]) new' := by
  obtain ⟨c, hctrl⟩ := hs.slot hi
  by_cases hfull : m.arrays.ctrl[i]? = some .full
  · obtain ⟨⟨key, value⟩, he⟩ := hs.entry hfull
    obtain ⟨-, hk, hv⟩ := Arrays.entry_eq_some.mp he
    have hcount : new.ctrl.count .full < newCap := by
      rw [← hc.sized.length_entries, hc.entries.length_eq]
      exact hroom
    -- there is room for the entry, so the probe ends at an empty slot
    obtain ⟨j, hj, hfind, hfree, hreach⟩ :=
      findFree_spec hcap hc.sized.ctrl hcount (m.hash key).toNat
    refine ⟨new.put j key value, ?_, hc.sized.put j key value, ?_, ?_, ?_⟩
    · simp [copySlot, hfull, hk, hv, homeSlot_eq hcap, hfind newCap (Nat.le_refl _),
        hc.sized.store_ctrl hj, hc.sized.store_keys hj, hc.sized.store_values hj, Arrays.put]
    · intro hmem
      rcases List.mem_or_eq_of_mem_set hmem with hmem | heq
      · exact hc.noTomb hmem
      · cases heq
    · rw [List.filterMap_append, List.filterMap_cons_some he]
      apply (hc.sized.entries_put hj hfree key value).trans
      exact (hc.entries.cons _).trans (List.perm_append_singleton _ _).symm
    · refine hc.chained.put hc.sized hj (hreach.mono ?_) value
      intro k hk hfull
      rw [Arrays.Empty, hfull] at hk
      cases hk
  · have hne : c ≠ .full := fun heq => hfull (heq ▸ hctrl)
    refine ⟨new, by simp [copySlot, hctrl, hne], hc.sized, hc.noTomb, ?_, hc.chained⟩
    rw [List.filterMap_append, List.filterMap_cons_none (Arrays.entry_none hfull),
      List.filterMap_nil, List.append_nil]
    exact hc.entries

/-- The copy loop of `rehash` copies every entry. -/
theorem copyAll_spec {m : Map ks vs} (hw : Wf m) {newCap : Nat} (hcap : CapOk newCap)
    (hroom : m.len < newCap) {fresh : Arrays ks vs}
    (hctrl : fresh.ctrl = List.replicate newCap .empty) (hs : fresh.Sized newCap) :
    ∃ new, (List.range m.cap).foldlM (copySlot m newCap) fresh = some new ∧
      Copied m newCap (List.range m.cap) new := by
  have hnone : ∀ j, fresh.entry j = none := by
    intro j
    apply Arrays.entry_none
    rw [hctrl, List.getElem?_replicate]
    split <;> simp
  have hinit : Copied m newCap [] fresh := by
    refine ⟨hs, by simp [hctrl], ?_, fun j e he => ?_⟩
    · rw [Arrays.entries, List.filterMap_eq_nil_iff.mpr fun j _ => hnone j]
      rfl
    · rw [hnone j] at he
      cases he
  rw [Machine.foldlM_eq_run]
  apply Machine.run_progress (I := Copied m newCap) hinit
  intro done i rest new hsplit hc
  have hi : i < m.cap := List.mem_range.mp (by simp [hsplit])
  refine copySlot_spec hw.sized hcap hc ?_ hi
  have hle : (done.filterMap m.arrays.entry).length ≤
      ((List.range m.cap).filterMap m.arrays.entry).length := by
    rw [hsplit, List.filterMap_append, List.length_append]
    exact Nat.le_add_right _ _
  apply Nat.lt_of_le_of_lt hle
  rwa [← hw.sized.ctrl, ← Arrays.entries, ← hw.len_eq]

/-- A map that has been given room for one more entry. -/
structure Grown (m m' : Map ks vs) : Prop where
  wf      : Wf m'
  entries : m'.arrays.entries.Perm m.arrays.entries
  pos     : 0 < m'.cap
  room    : 4 * (m'.len + m'.tombstones + 1) ≤ 3 * m'.cap
  types   : SameTypes m m'

/-- **`rehash`** either fails and leaves the map as it was, or moves all its entries. -/
theorem rehash_spec {m : Map ks vs} (hw : Wf m) {newCap : Nat} (hcap : CapOk newCap)
    (hroom : 4 * (m.len + 1) ≤ 3 * newCap) (a : Alloc) :
    ∃ ok m' a', rehash m newCap a = some (ok, m', a') ∧ (ok = false → m' = m) ∧
      (ok = true → Grown m m' ∧ m'.cap = newCap) := by
  unfold rehash
  split
  · split
    · next a' _ => exact ⟨false, m, a', rfl, fun _ => rfl, nofun⟩
    · next fresh a' halloc =>
      obtain ⟨hctrl, hs⟩ := allocateArrays_some halloc
      obtain ⟨new, hcopy, hc⟩ := copyAll_spec hw hcap (by omega) hctrl hs
      have hentries : new.entries.Perm m.arrays.entries := by
        rw [Arrays.entries.eq_def m.arrays, hw.sized.ctrl]
        exact hc.entries
      have hlen : m.len = new.ctrl.count .full := by
        rw [← hc.sized.length_entries, hentries.length_eq, hw.len_eq]
      refine ⟨true, { m with arrays := new, cap := newCap, tombstones := 0 }, freeArrays m a',
        by rw [hcopy]; rfl, nofun, fun _ => ⟨⟨?_, hentries, hcap.pos, ?_, ⟨rfl, rfl⟩⟩, rfl⟩⟩
      · exact ⟨hc.sized, .inr hcap, hlen, (List.count_eq_zero.mpr hc.noTomb).symm,
          by show 4 * (m.len + 0) ≤ 3 * newCap; omega, hc.chained⟩
      · show 4 * (m.len + 0 + 1) ≤ 3 * newCap
        omega
  · exact ⟨false, m, a, rfl, fun _ => rfl, nofun⟩

/-- The growth test, wrap-around included: when it does not ask for more room, there is room. -/
theorem room_of_test {len tombs cap : Nat} (hcap : CapOk cap) (hload : 4 * (len + tombs) ≤ 3 * cap)
    (h : ¬ wmul (wadd (wadd len tombs) 1) 4 > wmul cap 3) : 4 * (len + tombs + 1) ≤ 3 * cap := by
  have hbound := hcap.bounds.2
  rw [wadd_eq (a := len) (by omega), wadd_eq (by omega)] at h
  obtain ⟨k, hk₃, hk, rfl⟩ := hcap
  rcases Nat.lt_or_ge k 63 with hlt | hge
  · -- nothing wraps
    have hsmall : 2 ^ k ≤ 2 ^ 62 := Nat.pow_le_pow_right (by decide) (by omega)
    rw [wmul_eq (by omega), wmul_eq (by omega)] at h
    omega
  · obtain rfl : k = 63 := by omega
    rw [wmul, wmul] at h
    omega

/-- When the growth test asks for more room, the new capacity has it, unless the doubling wraps. -/
theorem room_of_growth {len tombs cap : Nat} (hcap : CapOk cap)
    (hload : 4 * (len + tombs) ≤ 3 * cap)
    (hguard : ¬ (if wmul (wadd len 1) 4 > wmul cap 3 then wmul cap 2 else cap) < cap) :
    CapOk (if wmul (wadd len 1) 4 > wmul cap 3 then wmul cap 2 else cap) ∧
      4 * (len + 1) ≤ 3 * (if wmul (wadd len 1) 4 > wmul cap 3 then wmul cap 2 else cap) := by
  have hbound := hcap.bounds
  have hlen : wadd len 1 = len + 1 := wadd_eq (by omega)
  rw [hlen] at hguard ⊢
  obtain ⟨k, hk₃, hk, rfl⟩ := hcap
  rcases Nat.lt_or_ge k 63 with hlt | hge
  · have hsmall : 2 ^ k ≤ 2 ^ 62 := Nat.pow_le_pow_right (by decide) (by omega)
    have hdouble : wmul (2 ^ k) 2 = 2 ^ (k + 1) := by
      rw [wmul_eq (by omega), Nat.pow_succ]
    rw [hdouble, wmul_eq (a := len + 1) (by omega), wmul_eq (by omega)]
    split
    · refine ⟨⟨k + 1, by omega, by omega, rfl⟩, ?_⟩
      rw [Nat.pow_succ]
      omega
    · exact ⟨⟨k, hk₃, hk, rfl⟩, by omega⟩
  · obtain rfl : k = 63 := by omega
    -- doubling wraps to zero, which the guard catches
    have hwrap : wmul (2 ^ 63) 2 = 0 := by decide
    rw [hwrap] at hguard ⊢
    split at hguard
    · exact absurd (by decide) hguard
    · next htest =>
      rw [if_neg htest]
      rw [wmul, wmul] at htest
      exact ⟨⟨63, by decide, by decide, rfl⟩, by omega⟩

/-- **`ensure_one`** either fails and leaves the map as it was, or makes room for one more entry. -/
theorem ensureOne_spec {m : Map ks vs} (hw : Wf m) (a : Alloc) :
    ∃ ok m' a', ensureOne m a = some (ok, m', a') ∧ (ok = false → m' = m) ∧
      (ok = true → Grown m m') := by
  have hload := hw.load
  unfold ensureOne
  split
  · next hcap =>
    obtain ⟨ok, m', a', hr, hfail, hok⟩ :=
      rehash_spec hw (⟨3, by decide, by decide, rfl⟩ : CapOk 8) (by omega) a
    exact ⟨ok, m', a', hr, hfail, fun h => (hok h).1⟩
  · next hcap =>
    have hok := hw.capOk hcap
    split
    · have hgrowth := room_of_growth hok hload
      generalize (if wmul (wadd m.len 1) 4 > wmul m.cap 3 then wmul m.cap 2 else m.cap) = newCap
        at hgrowth ⊢
      by_cases hguard : newCap < m.cap
      · exact ⟨false, m, a, if_pos hguard, fun _ => rfl, nofun⟩
      · obtain ⟨hcap', hroom⟩ := hgrowth hguard
        obtain ⟨ok, m', a', hr, hfail, hgrown⟩ := rehash_spec hw hcap' hroom a
        exact ⟨ok, m', a', (if_neg hguard).trans hr, hfail, fun h => (hgrown h).1⟩
    · next htest =>
      refine ⟨true, m, a, rfl, fun _ => rfl, fun _ => ?_⟩
      exact ⟨hw, .refl _, hok.pos, room_of_test hok hload htest, .refl m⟩

/-! ## `insert_absent`

The key is not in the table, so the entry goes into the first tombstone of its probe path, or into the
empty slot that ends it. One of the counters makes room for the other.
-/

/-- What one write does to the number of slots of a kind. -/
theorem count_set_add {l : List Slot} {j : Nat} {c : Slot} (hc : l[j]? = some c) (x b : Slot) :
    (l.set j x).count b + (if c = b then 1 else 0) = l.count b + (if x = b then 1 else 0) := by
  induction l generalizing j with
  | nil => exact nomatch hc
  | cons y l ih =>
      cases j with
      | zero =>
          obtain rfl : y = c := by simpa using hc
          simp only [List.set_cons_zero, List.count_cons, beq_iff_eq]
          omega
      | succ j =>
          have hrest := ih (j := j) (by simpa using hc)
          simp only [List.set_cons_succ, List.count_cons]
          omega

/-- **`insert_absent`** adds the entry, in a slot that its probe gets to. -/
theorem insertAbsent_spec {m : Map ks vs} (hw : Wf m) (hpos : 0 < m.cap)
    (hroom : 4 * (m.len + m.tombstones + 1) ≤ 3 * m.cap) (key : Bytes ks) (value : Bytes vs) :
    ∃ m', insertAbsent m key value = some m' ∧ Wf m' ∧
      m'.arrays.entries.Perm ((key, value) :: m.arrays.entries) ∧ SameTypes m m' := by
  have hok := hw.capOk (Nat.pos_iff_ne_zero.mp hpos)
  have hbound := hok.bounds.2
  have hs := hw.sized
  obtain ⟨n, hn, hend, hskip, hloop⟩ :=
    insertLoop_spec hok hs.ctrl (hw.exists_empty hpos) (m.hash key).toNat
  -- the slot written to is not full, and the probe gets there
  obtain ⟨j, c, tombs, hj, hc, hfree, hreach, htombs, hrun⟩ : ∃ j c tombs, j < m.cap ∧
      m.arrays.ctrl[j]? = some c ∧ c ≠ .full ∧
        Reach m.arrays.Empty m.cap (m.hash key).toNat j ∧
          tombs + (if c = .tombstone then 1 else 0) = m.tombstones ∧
            insertAbsent m key value = some { m with arrays := m.arrays.put j key value,
                                                     len := m.len + 1, tombstones := tombs } := by
    have hlen : wadd m.len 1 = m.len + 1 := wadd_eq (by omega)
    cases ht : firstTomb m.arrays.ctrl m.cap (m.hash key).toNat n with
    | none =>
        have hlt := slot_lt hpos (m.hash key).toNat n
        refine ⟨_, .empty, m.tombstones, hlt, hend, by decide,
          ⟨n, rfl, fun i hi => hskip i hi⟩, rfl, ?_⟩
        simp [insertAbsent, homeSlot_eq hok, hloop m.cap (Nat.le_refl _), ht, hlen, hs.store_ctrl hlt,
          hs.store_keys hlt, hs.store_values hlt, Arrays.put]
    | some t =>
        obtain ⟨i, hi, rfl, htomb⟩ := firstTomb_eq_some ht
        have hlt := slot_lt hpos (m.hash key).toNat i
        have htpos : 0 < m.tombstones := by
          rw [hw.tombstones, List.count_pos_iff]
          exact List.mem_of_getElem? htomb
        have hsub : wsub m.tombstones 1 = m.tombstones - 1 := wsub_eq htpos (by omega)
        refine ⟨_, .tombstone, m.tombstones - 1, hlt, htomb, by decide,
          ⟨i, rfl, fun k hk => hskip k (Nat.lt_trans hk hi)⟩, ?_, ?_⟩
        · exact Nat.sub_add_cancel htpos
        · simp [insertAbsent, homeSlot_eq hok, hloop m.cap (Nat.le_refl _), ht, hlen, hsub, hs.store_ctrl hlt,
            hs.store_keys hlt, hs.store_values hlt, Arrays.put]
  have hne : m.arrays.ctrl[j]? ≠ some .full := by simpa [hc] using hfree
  have hentries := hs.entries_put hj hne key value
  have hfull := count_set_add hc .full .full
  have htomb := count_set_add hc .full .tombstone
  refine ⟨_, hrun, ⟨hs.put j key value, hw.cap, ?_, ?_, ?_, ?_⟩, hentries, ⟨rfl, rfl⟩⟩
  · show m.len + 1 = (m.arrays.ctrl.set j .full).count .full
    rw [if_neg hfree, if_pos rfl] at hfull
    rw [hw.len]
    omega
  · show tombs = (m.arrays.ctrl.set j .full).count .tombstone
    rw [← hw.tombstones, if_neg (by decide : Slot.full ≠ .tombstone)] at htomb
    omega
  · show 4 * (m.len + 1 + tombs) ≤ 3 * m.cap
    omega
  · exact hw.chained.put hs hj hreach value

/-! ## Overwriting, `remove`, `clear` and `free`

The remaining writes. A value is overwritten in place; a removal turns a full slot into a tombstone,
over which probes go on; `clear` and `free` leave no entry.
-/

/-- Overwriting the value of an entry. -/
theorem overwrite_spec {m : Map ks vs} (hw : Wf m) {j : Nat} {e : Bytes ks × Bytes vs}
    (he : m.arrays.entry j = some e) (value : Bytes vs) :
    ∃ values rest, store m.arrays.values j value = some values ∧
      Wf { m with arrays := { m.arrays with values } } ∧ m.arrays.entries.Perm (e :: rest) ∧
        (Arrays.entries { m.arrays with values }).Perm ((e.1, value) :: rest) := by
  obtain ⟨hfull, hk, hv⟩ := Arrays.entry_eq_some.mp he
  have hs := hw.sized
  have hj := hs.lt hfull
  have hs' : Arrays.Sized { m.arrays with values := m.arrays.values.set j value } m.cap :=
    ⟨hs.ctrl, hs.keys, by simp [hs.values]⟩
  have hentry := hs.entry_setValue he value
  have hself : Arrays.entry { m.arrays with values := m.arrays.values.set j value } j =
      some (e.1, value) := (hentry j).trans (if_pos rfl)
  have hother : ∀ i, i ≠ j →
      Arrays.entry { m.arrays with values := m.arrays.values.set j value } i =
        m.arrays.entry i := fun i hij => (hentry i).trans (if_neg hij)
  obtain ⟨rest, hold, hnew⟩ := Arrays.entries_perm hs hs' hj fun i _ hij => hother i hij
  rw [he] at hold
  rw [hself] at hnew
  refine ⟨_, rest, hs.store_values hj value,
    ⟨hs', hw.cap, hw.len, hw.tombstones, hw.load, ?_⟩, hold, hnew⟩
  intro i e' he'
  by_cases hij : i = j
  · subst hij
    have he'' : some (e.1, value) = some e' := hself.symm.trans he'
    rw [← Option.some.inj he'']
    exact hw.chained i e he
  · exact hw.chained i e' ((hother i hij).symm.trans he')

/-- **`remove`** of an entry leaves a tombstone, which no probe stops at. -/
theorem tombstone_spec {m : Map ks vs} (hw : Wf m) {j : Nat} {e : Bytes ks × Bytes vs}
    (he : m.arrays.entry j = some e) :
    ∃ ctrl, store m.arrays.ctrl j .tombstone = some ctrl ∧
      Wf { m with arrays := { m.arrays with ctrl }, len := wsub m.len 1,
                  tombstones := wadd m.tombstones 1 } ∧
        m.arrays.entries.Perm (e :: Arrays.entries { m.arrays with ctrl }) := by
  obtain ⟨hfull, -, -⟩ := Arrays.entry_eq_some.mp he
  have hs := hw.sized
  have hj := hs.lt hfull
  have hs' : Arrays.Sized { m.arrays with ctrl := m.arrays.ctrl.set j .tombstone } m.cap :=
    ⟨by simp [hs.ctrl], hs.keys, hs.values⟩
  have hentry := hs.entry_setTombstone hj
  have hself : Arrays.entry { m.arrays with ctrl := m.arrays.ctrl.set j .tombstone } j = none :=
    (hentry j).trans (if_pos rfl)
  have hother : ∀ i, i ≠ j →
      Arrays.entry { m.arrays with ctrl := m.arrays.ctrl.set j .tombstone } i =
        m.arrays.entry i := fun i hij => (hentry i).trans (if_neg hij)
  obtain ⟨rest, hold, hnew⟩ := Arrays.entries_perm hs hs' hj fun i _ hij => hother i hij
  rw [he] at hold
  rw [hself] at hnew
  have hcap : m.cap ≠ 0 := by omega
  have hbound := (hw.capOk hcap).bounds.2
  have hload := hw.load
  have hpos : 0 < m.len := by
    rw [hw.len, List.count_pos_iff]
    exact List.mem_of_getElem? hfull
  have hlen : wsub m.len 1 = m.len - 1 := wsub_eq hpos (by omega)
  have htombs : wadd m.tombstones 1 = m.tombstones + 1 := wadd_eq (by omega)
  -- one full slot less, one tombstone more
  have hcf := count_set_add hfull .tombstone .full
  have hct := count_set_add hfull .tombstone .tombstone
  rw [if_pos rfl, if_neg (by decide), ← hw.len] at hcf
  rw [if_pos rfl, if_neg (by decide), ← hw.tombstones] at hct
  refine ⟨_, hs.store_ctrl hj .tombstone, ⟨hs', hw.cap, ?_, ?_, ?_, ?_⟩,
    hold.trans (hnew.symm.cons e)⟩
  · show wsub m.len 1 = (m.arrays.ctrl.set j .tombstone).count .full
    omega
  · show wadd m.tombstones 1 = (m.arrays.ctrl.set j .tombstone).count .tombstone
    omega
  · show 4 * (wsub m.len 1 + wadd m.tombstones 1) ≤ 3 * m.cap
    omega
  · intro i e' he'
    -- a tombstone does not end a probe, so the other keys stay in reach
    by_cases hij : i = j
    · subst hij
      cases hself.symm.trans he'
    · apply (hw.chained i e' ((hother i hij).symm.trans he')).mono
      intro k hk
      simp only [Arrays.Empty, List.getElem?_set] at hk ⊢
      split at hk
      · split at hk <;> cases hk
      · exact hk

/-- **`clear`** removes every entry. -/
theorem clear_spec {m : Map ks vs} (hw : Wf m) :
    Wf (clear m) ∧ (clear m).arrays.entries = [] ∧ SameTypes m (clear m) := by
  unfold clear
  split
  · next hcap =>
    have hlen : m.arrays.ctrl.length = 0 := hw.sized.ctrl.trans hcap
    exact ⟨hw, by simp [Arrays.entries, hlen], .refl m⟩
  · have hnone : ∀ j,
        Arrays.entry { m.arrays with ctrl := List.replicate m.cap .empty } j = none := by
      intro j
      apply Arrays.entry_none
      rw [List.getElem?_replicate]
      split <;> simp
    refine ⟨⟨⟨by simp, hw.sized.keys, hw.sized.values⟩, hw.cap, by simp [List.count_replicate],
      by simp [List.count_replicate], Nat.zero_le _, fun j e he => ?_⟩, ?_, ⟨rfl, rfl⟩⟩
    · cases (hnone j).symm.trans he
    · exact List.filterMap_eq_nil_iff.mpr fun j _ => hnone j

/-- **`free`** leaves the empty map. -/
theorem free_spec {m : Map ks vs} (hw : Wf m) (a : Alloc) :
    Wf (free m a).1 ∧ (free m a).1.arrays.entries = [] ∧ SameTypes m (free m a).1 := by
  unfold free
  split
  · next hcap =>
    have hlen : m.arrays.ctrl.length = 0 := hw.sized.ctrl.trans hcap
    exact ⟨hw, by simp [Arrays.entries, hlen], .refl m⟩
  · exact ⟨⟨⟨rfl, rfl, rfl⟩, .inl rfl, rfl, rfl, Nat.le_refl _,
      fun j e he => by simp [Arrays.entry] at he⟩, rfl, ⟨rfl, rfl⟩⟩

/-! ## One spec for each call

What a caller sees of each function: the entries before and after, up to order. The refinement of a
finite map uses only these.
-/

/-- No stored key equals `key`, as far as its hash decides. -/
def Absent (m : Map ks vs) (key : Bytes ks) : Prop :=
  ∀ e ∈ m.arrays.entries, m.hash e.1 = m.hash key → m.keyEq e.1 key = false

/-- What `insert_move` can do: displace the value of a stored key, store a new entry, or fail. -/
inductive InsertMoved (m : Map ks vs) (a : Alloc) (key : Bytes ks) (value : Bytes vs)
    (oldValue : Option (Bytes vs)) (replaced : Option Bool) :
    Inserted vs → Map ks vs → Alloc → Prop
  | replaced {e rest m'} : m.keyEq e.1 key = true → m.arrays.entries.Perm (e :: rest) →
      m'.arrays.entries.Perm ((e.1, value) :: rest) →
      InsertMoved m a key value oldValue replaced
        ⟨true, oldValue.map fun _ => e.2, replaced.map fun _ => true⟩ m' a
  | added {m' a'} : Absent m key → m'.arrays.entries.Perm ((key, value) :: m.arrays.entries) →
      InsertMoved m a key value oldValue replaced
        ⟨true, oldValue, replaced.map fun _ => false⟩ m' a'
  | failed {a'} : Absent m key →
      InsertMoved m a key value oldValue replaced ⟨false, oldValue, replaced⟩ m a'

/-- What `insert_move` does to the entries. -/
theorem insertMove_spec {m : Map ks vs} (hw : Wf m) (key : Bytes ks) (value : Bytes vs)
    (oldValue : Option (Bytes vs)) (replaced : Option Bool) (a : Alloc) :
    ∃ r m' a', insertMove m key value oldValue replaced a = some (r, m', a') ∧ Wf m' ∧
      SameTypes m m' ∧ InsertMoved m a key value oldValue replaced r m' a' := by
  obtain ⟨r, hfind, hsome, hnone⟩ := findIndex_spec hw key
  cases r with
  | some j =>
      obtain ⟨e, he, heq⟩ := hsome j rfl
      obtain ⟨values, rest, hstore, hw', hold, hnew⟩ := overwrite_spec hw he value
      exact ⟨_, { m with arrays := { m.arrays with values } }, a,
        by simp [insertMove, hfind, (Arrays.entry_eq_some.mp he).2.2, hstore], hw', ⟨rfl, rfl⟩,
        .replaced heq hold hnew⟩
  | none =>
      have habsent : Absent m key := hnone rfl
      obtain ⟨ok, m₁, a₁, hensure, hfail, hgrown⟩ := ensureOne_spec hw a
      cases ok with
      | false =>
          obtain rfl := hfail rfl
          exact ⟨_, m₁, a₁, by simp [insertMove, hfind, hensure], hw, .refl m₁, .failed habsent⟩
      | true =>
          have hg := hgrown rfl
          obtain ⟨m', hins, hw', hentries, htypes⟩ :=
            insertAbsent_spec hg.wf hg.pos (by have := hg.room; omega) key value
          refine ⟨⟨true, oldValue, replaced.map fun _ => false⟩, m', a₁,
            by simp [insertMove, hfind, hensure, hins], hw', ?_, ?_⟩
          · exact ⟨htypes.hash.trans hg.types.hash, htypes.keyEq.trans hg.types.keyEq⟩
          · exact .added habsent (hentries.trans (hg.entries.cons _))

/-- What `remove` can do: take out an entry with an equal key, or find none. -/
inductive Removed (m : Map ks vs) (key : Bytes ks) : Bool → Map ks vs → Prop
  | removed {e m'} : m.keyEq e.1 key = true → m.arrays.entries.Perm (e :: m'.arrays.entries) →
      Removed m key true m'
  | absent : Absent m key → Removed m key false m

theorem remove_spec {m : Map ks vs} (hw : Wf m) (key : Bytes ks) :
    ∃ b m', remove m key = some (b, m') ∧ Wf m' ∧ SameTypes m m' ∧ Removed m key b m' := by
  obtain ⟨r, hfind, hsome, hnone⟩ := findIndex_spec hw key
  cases r with
  | some j =>
      obtain ⟨e, he, heq⟩ := hsome j rfl
      obtain ⟨ctrl, hstore, hw', hentries⟩ := tombstone_spec hw he
      exact ⟨true, { m with arrays := { m.arrays with ctrl }, len := wsub m.len 1,
                            tombstones := wadd m.tombstones 1 },
        by simp [remove, hfind, hstore], hw', ⟨rfl, rfl⟩, .removed heq hentries⟩
  | none => exact ⟨false, m, by simp [remove, hfind], hw, .refl m, .absent (hnone rfl)⟩

/-- `get` points to the value of an entry with an equal key, unless values have no storage. -/
theorem get_spec {m : Map ks vs} (hw : Wf m) (key : Bytes ks) :
    ∃ r, get m key = some r ∧
      (∀ j, r = some j → vs ≠ 0 ∧ ∃ e, m.arrays.entry j = some e ∧ m.keyEq e.1 key = true) ∧
      (r = none → vs = 0 ∨ Absent m key) := by
  obtain ⟨r, hfind, hsome, hnone⟩ := findIndex_spec hw key
  cases r with
  | none => exact ⟨none, by simp [get, hfind], nofun, fun _ => .inr (hnone rfl)⟩
  | some j =>
      by_cases hvs : vs = 0
      · exact ⟨none, by simp [get, hfind, hvs], nofun, fun _ => .inl hvs⟩
      · refine ⟨some j, by simp [get, hfind, hvs], ?_, nofun⟩
        rintro i hi
        obtain rfl := Option.some.inj hi
        exact ⟨hvs, hsome j rfl⟩

/-- `contains` tells whether an entry has an equal key. -/
theorem contains_spec {m : Map ks vs} (hw : Wf m) (key : Bytes ks) :
    ∃ b, contains m key = some b ∧
      (b = true → ∃ j e, m.arrays.entry j = some e ∧ m.keyEq e.1 key = true) ∧
      (b = false → Absent m key) := by
  obtain ⟨r, hfind, hsome, hnone⟩ := findIndex_spec hw key
  cases r with
  | none => exact ⟨false, by simp [contains, hfind], nofun, fun _ => hnone rfl⟩
  | some j =>
      obtain ⟨e, he⟩ := hsome j rfl
      exact ⟨true, by simp [contains, hfind], fun _ => ⟨j, e, he⟩, nofun⟩

theorem exec_insertMove {m m' : Map ks vs} {a a' : Alloc} {key : Bytes ks} {value : Bytes vs}
    {oldValue : Option (Bytes vs)} {replaced : Option Bool} {r : Inserted vs}
    (h : insertMove m key value oldValue replaced a = some (r, m', a')) :
    exec m a (.insertMove key value oldValue replaced) = some (.inserted r, m', a') := by
  simp [exec, h]

theorem exec_insert {m m' : Map ks vs} {a a' : Alloc} {key : Bytes ks} {value : Bytes vs}
    {r : Inserted vs} (h : insertMove m key value none none a = some (r, m', a')) :
    exec m a (.insert key value) = some (.bool r.ok, m', a') := by
  simp [exec, insert, h]

theorem exec_get_none {m : Map ks vs} {a : Alloc} {key : Bytes ks} (h : get m key = some none) :
    exec m a (.get key) = some (.value none, m, a) := by
  simp [exec, h]

theorem exec_get_some {m : Map ks vs} {a : Alloc} {key : Bytes ks} {j : Nat} {v : Bytes vs}
    (h : get m key = some (some j)) (hv : m.arrays.values[j]? = some v) :
    exec m a (.get key) = some (.value (some v), m, a) := by
  simp [exec, h, hv]

theorem exec_contains {m : Map ks vs} {a : Alloc} {key : Bytes ks} {b : Bool}
    (h : contains m key = some b) : exec m a (.contains key) = some (.bool b, m, a) := by
  simp [exec, h]

theorem exec_remove {m m' : Map ks vs} {a : Alloc} {key : Bytes ks} {b : Bool}
    (h : remove m key = some (b, m')) : exec m a (.remove key) = some (.bool b, m', a) := by
  simp [exec, h]

/-! ## What a call can do

The same functions once more, for results that look at the table itself rather than at its entries:
which slot is written, and which counters change. The cost of lookups and rebuilds is computed from
these.
-/

section Cases

variable {m m' : Map ks vs} {a a' : Alloc} {key : Bytes ks} {value : Bytes vs}

/-- The new entry is written into the arrays. -/
theorem insertAbsent_cases (h : insertAbsent m key value = some m') :
    ∃ ctrl keys values tombstones, m' = { m with
      arrays := { m.arrays with ctrl, keys, values }, len := wadd m.len 1, tombstones } := by
  obtain ⟨⟨j, firstTomb⟩, -, h⟩ := Option.bind_eq_some_iff.mp h
  obtain ⟨ctrl, -, h⟩ := Option.bind_eq_some_iff.mp h
  obtain ⟨keys, -, h⟩ := Option.bind_eq_some_iff.mp h
  obtain ⟨values, -, h⟩ := Option.bind_eq_some_iff.mp h
  cases h
  exact ⟨ctrl, keys, values, _, rfl⟩

/-- A value is overwritten, or the table makes room for one more entry, and then takes it if there is
    room. -/
theorem insertMove_cases {oldValue : Option (Bytes vs)} {replaced : Option Bool} {r : Inserted vs}
    (h : insertMove m key value oldValue replaced a = some (r, m', a')) :
    (∃ values, m' = { m with arrays := { m.arrays with values } } ∧ a' = a) ∨
      ∃ ok m₁, ensureOne m a = some (ok, m₁, a') ∧
        (ok = true ∧ insertAbsent m₁ key value = some m' ∨ ok = false ∧ m' = m₁) := by
  obtain ⟨idx, -, h⟩ := Option.bind_eq_some_iff.mp h
  cases idx with
  | some j =>
      obtain ⟨old, -, h⟩ := Option.bind_eq_some_iff.mp h
      obtain ⟨values, -, h⟩ := Option.bind_eq_some_iff.mp h
      cases h
      exact .inl ⟨values, rfl, rfl⟩
  | none =>
      obtain ⟨⟨ok, m₁, a₁⟩, hensure, h⟩ := Option.bind_eq_some_iff.mp h
      cases ok with
      | true =>
          obtain ⟨m₂, hinsert, h⟩ := Option.bind_eq_some_iff.mp h
          cases h
          exact .inr ⟨true, m₁, hensure, .inl ⟨rfl, hinsert⟩⟩
      | false =>
          cases h
          exact .inr ⟨false, m', hensure, .inr ⟨rfl, rfl⟩⟩

/-- Nothing is removed, or a slot gets a tombstone. -/
theorem remove_cases {b : Bool} (h : remove m key = some (b, m')) :
    m' = m ∨ ∃ ctrl, m' = { m with
      arrays := { m.arrays with ctrl }, len := wsub m.len 1, tombstones := wadd m.tombstones 1 } := by
  obtain ⟨idx, -, h⟩ := Option.bind_eq_some_iff.mp h
  cases idx with
  | none =>
      cases h
      exact .inl rfl
  | some j =>
      obtain ⟨ctrl, -, h⟩ := Option.bind_eq_some_iff.mp h
      cases h
      exact .inr ⟨ctrl, rfl⟩

/-- **What a call does to the map** is done by one of the functions that write to it, or nothing
    is. -/
theorem exec_cases {op : Op ks vs} {r : Ret vs} (h : exec m a op = some (r, m', a')) :
    (op ≠ .free ∧ ∃ key value oldValue replaced r',
      insertMove m key value oldValue replaced a = some (r', m', a')) ∨
    (op ≠ .free ∧ a' = a ∧ ((∃ key b, remove m key = some (b, m')) ∨ m' = clear m ∨ m' = m)) ∨
    (op = .free ∧ free m a = (m', a')) := by
  cases op with
  | insertMove key value oldValue replaced =>
      obtain ⟨⟨r', m₁, a₁⟩, hinsert, h⟩ := Option.bind_eq_some_iff.mp h
      cases h
      exact .inl ⟨nofun, key, value, oldValue, replaced, r', hinsert⟩
  | insert key value =>
      obtain ⟨⟨ok, m₁, a₁⟩, hinsert, h⟩ := Option.bind_eq_some_iff.mp h
      cases h
      obtain ⟨⟨r', m₁, a₁⟩, hinsert, h⟩ := Option.bind_eq_some_iff.mp hinsert
      cases h
      exact .inl ⟨nofun, key, value, none, none, r', hinsert⟩
  | get key =>
      obtain ⟨idx, -, h⟩ := Option.bind_eq_some_iff.mp h
      cases idx with
      | none =>
          cases h
          exact .inr (.inl ⟨nofun, rfl, .inr (.inr rfl)⟩)
      | some j =>
          obtain ⟨v, -, h⟩ := Option.bind_eq_some_iff.mp h
          cases h
          exact .inr (.inl ⟨nofun, rfl, .inr (.inr rfl)⟩)
  | contains key =>
      obtain ⟨b, -, h⟩ := Option.bind_eq_some_iff.mp h
      cases h
      exact .inr (.inl ⟨nofun, rfl, .inr (.inr rfl)⟩)
  | remove key =>
      obtain ⟨⟨b, m₁⟩, hremove, h⟩ := Option.bind_eq_some_iff.mp h
      cases h
      exact .inr (.inl ⟨nofun, rfl, .inl ⟨key, b, hremove⟩⟩)
  | clear =>
      cases h
      exact .inr (.inl ⟨nofun, rfl, .inr (.inl rfl)⟩)
  | len =>
      cases h
      exact .inr (.inl ⟨nofun, rfl, .inr (.inr rfl)⟩)
  | free =>
      cases h
      exact .inr (.inr ⟨rfl, rfl⟩)

end Cases

/-- **Step lemma.** Every call returns, and keeps the invariant. -/
theorem exec_wf {m : Map ks vs} (hw : Wf m) (a : Alloc) (op : Op ks vs) :
    ∃ r m' a', exec m a op = some (r, m', a') ∧ Wf m' ∧ SameTypes m m' := by
  cases op with
  | insertMove key value oldValue replaced =>
      obtain ⟨r, m', a', hr, hw', ht, -⟩ := insertMove_spec hw key value oldValue replaced a
      exact ⟨_, m', a', exec_insertMove hr, hw', ht⟩
  | insert key value =>
      obtain ⟨r, m', a', hr, hw', ht, -⟩ := insertMove_spec hw key value none none a
      exact ⟨_, m', a', exec_insert hr, hw', ht⟩
  | get key =>
      obtain ⟨r, hr, hsome, -⟩ := get_spec hw key
      cases r with
      | none => exact ⟨_, m, a, exec_get_none hr, hw, .refl m⟩
      | some j =>
          obtain ⟨-, e, he, -⟩ := hsome j rfl
          exact ⟨_, m, a, exec_get_some hr (Arrays.entry_eq_some.mp he).2.2, hw, .refl m⟩
  | contains key =>
      obtain ⟨b, hb, -⟩ := contains_spec hw key
      exact ⟨_, m, a, exec_contains hb, hw, .refl m⟩
  | remove key =>
      obtain ⟨b, m', hb, hw', ht, -⟩ := remove_spec hw key
      exact ⟨_, m', a, exec_remove hb, hw', ht⟩
  | clear =>
      obtain ⟨hw', -, ht⟩ := clear_spec hw
      exact ⟨_, clear m, a, rfl, hw', ht⟩
  | len => exact ⟨_, m, a, rfl, hw, .refl m⟩
  | free =>
      obtain ⟨hw', -, ht⟩ := free_spec hw a
      exact ⟨_, (free m a).1, (free m a).2, rfl, hw', ht⟩

/-! ## Every reachable state

The invariant goes through whole runs, and with it the counters and the end of all probe loops.
-/

def start (keyAlign valueAlign : Nat) (hash : Option (Bytes ks → UInt64))
    (keyEq : Option (Bytes ks → Bytes ks → Bool)) (a : Alloc) : State ks vs :=
  ⟨newIn keyAlign valueAlign hash keyEq, a, []⟩

/-- **Run lemma.** Every sequence of calls returns, and keeps the invariant. -/
theorem run_wf {s : State ks vs} (hw : Wf s.map) (ops : List (Op ks vs)) :
    ∃ s', Machine.run step s ops = some s' ∧ Wf s'.map := by
  refine Machine.run_progress (I := fun _ (s : State ks vs) => Wf s.map) hw
    fun pre op post s₁ _ hw₁ => ?_
  obtain ⟨r, m', a', hr, hw', -⟩ := exec_wf hw₁ s₁.alloc op
  exact ⟨⟨m', a', s₁.rets ++ [r]⟩, by simp [step, hr], hw'⟩

structure Counts (m : Map ks vs) : Prop where
  cap        : m.cap = 0 ∨ ∃ k, 3 ≤ k ∧ k ≤ 63 ∧ m.cap = 2 ^ k
  slots      : m.arrays.ctrl.length = m.cap
  len        : m.len = m.arrays.ctrl.count .full
  tombstones : m.tombstones = m.arrays.ctrl.count .tombstone
  load       : 4 * (m.len + m.tombstones) ≤ 3 * m.cap
  empty      : 0 < m.cap → ∃ j < m.cap, m.arrays.ctrl[j]? = some .empty
  /-- The loop of `find_index` ends within `cap` rounds. -/
  find       : 0 < m.cap → ∀ key, ∃ r, ∀ fuel ≥ m.cap,
    findLoop m key (m.cap - 1) fuel (homeSlot m (m.cap - 1) key) = some r
  /-- So does the loop of `insert_absent`. -/
  insert     : 0 < m.cap → ∀ key, ∃ r, ∀ fuel ≥ m.cap,
    insertLoop m.arrays.ctrl (m.cap - 1) fuel (homeSlot m (m.cap - 1) key) none = some r
  /-- No probe of `rehash` is cut off after as many rounds as the new table has slots. -/
  rehash     : ∀ a, ∃ r, ensureOne m a = some r

theorem Wf.counts {m : Map ks vs} (hw : Wf m) : Counts m where
  cap        := hw.cap
  slots      := hw.sized.ctrl
  len        := hw.len
  tombstones := hw.tombstones
  load       := hw.load
  empty      := hw.exists_empty
  find       := by
    intro hpos key
    have hok := hw.capOk (Nat.pos_iff_ne_zero.mp hpos)
    obtain ⟨r, hr, -⟩ := findLoop_spec hok hw.sized (hw.exists_empty hpos) key (m.hash key).toNat
    exact ⟨r, fun fuel hfuel => homeSlot_eq hok m key ▸ hr fuel hfuel⟩
  insert     := by
    intro hpos key
    have hok := hw.capOk (Nat.pos_iff_ne_zero.mp hpos)
    obtain ⟨n, -, -, -, hr⟩ :=
      insertLoop_spec hok hw.sized.ctrl (hw.exists_empty hpos) (m.hash key).toNat
    exact ⟨_, fun fuel hfuel => homeSlot_eq hok m key ▸ hr fuel hfuel⟩
  rehash     := by
    intro a
    obtain ⟨ok, m', a', hr, -⟩ := ensureOne_spec hw a
    exact ⟨_, hr⟩

/-- **The counters are right, and every probe loop ends.** For every hash function, every equality
    and every allocator, every sequence of calls on a new map returns, and in the state it reaches
    the capacity is zero or a power of two from 8 to `2 ^ 63`, `len` and `tombstones` count the slots
    of their kind, no more than three quarters of the slots are in use, and each of the three loops
    ends within as many rounds as there are slots. -/
theorem hashmap_counts (keyAlign valueAlign : Nat) (hash : Option (Bytes ks → UInt64))
    (keyEq : Option (Bytes ks → Bytes ks → Bool)) (a : Alloc) (ops : List (Op ks vs)) :
    ∃ s, Machine.run step (start keyAlign valueAlign hash keyEq a) ops = some s ∧ Counts s.map := by
  obtain ⟨s, hrun, hw⟩ := run_wf (s := start keyAlign valueAlign hash keyEq a)
    (wf_newIn keyAlign valueAlign hash keyEq) ops
  exact ⟨s, hrun, hw.counts⟩

end CustLib.Hashmap
