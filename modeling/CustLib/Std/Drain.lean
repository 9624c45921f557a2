import CustLib.Std.HashmapIter

/-!
# `std::hashmap`: elements that own something

The map copies bytes, and drops nothing: an element that owns a heap block is *moved* in, and its
owner follows the rules of `hashmap.c`. After `insert_move` the caller drops the value that was
displaced and the key that was not stored, and both of its own if there was no memory; before `free` it
drains the map with an iterator. `elements_dropped_once`: under these rules every key and every value
that was given to the map is dropped once, whatever the hash, the equality, the sizes and the allocator
are; what `remove`, `clear` and a `free` without a drain let go is dropped by nobody.
-/

namespace CustLib.Hashmap.Drain

open CustLib.Hashmap.Iter (iterNew iterNext iterLoop_spec deref deref_eq)

variable {ks vs : Nat}

/-! ## Programs that own elements

The rules that `hashmap.c` gives to a caller whose keys and values own memory, as a machine: `act` is a
call together with the drops that belong to it. `dropped` and `lost` record what became of the elements.
-/

/-- The loop `while (std_hashmap_iter_next(&it, &kp, &vp))`: what it drops. -/
def drainLoop (m : Map ks vs) : Nat → Nat → Option (List (Bytes ks × Bytes vs))
  | 0, _ => none
  | fuel + 1, slot => do
    match (← iterNext m slot) with
    | (none, _)         => return []
    | (some item, slot) =>
      let key ← deref m.arrays.keys item.key
      let value ← deref m.arrays.values item.value
      return (key, value) :: (← drainLoop m fuel slot)

def drain (m : Map ks vs) : Option (List (Bytes ks × Bytes vs)) := drainLoop m (m.cap + 1) iterNew

structure Elements (ks vs : Nat) where
  keys   : List (Bytes ks)
  values : List (Bytes vs)
  deriving DecidableEq

instance : Append (Elements ks vs) := ⟨fun x y => ⟨x.keys ++ y.keys, x.values ++ y.values⟩⟩

/-- The elements of entries. -/
def elements (l : List (Bytes ks × Bytes vs)) : Elements ks vs := ⟨l.map Prod.fst, l.map Prod.snd⟩

structure Owner (ks vs : Nat) where
  map     : Map ks vs
  alloc   : Alloc
  given   : Elements ks vs
  dropped : Elements ks vs
  lost    : Elements ks vs

/-- What the owner does. `junk` is in the place for the displaced value. -/
inductive Act (ks vs : Nat) where
  | give (key : Bytes ks) (value junk : Bytes vs)
  | get (key : Bytes ks)
  | remove (key : Bytes ks)
  | clear
  | free
  | drain
  deriving DecidableEq

def dropAfter (key : Bytes ks) (value : Bytes vs) (r : Inserted vs) : Elements ks vs :=
  if !r.ok then ⟨[key], [value]⟩
  else if r.replaced = some true then ⟨[key], r.oldValue.toList⟩
  else ⟨[], []⟩

def act (s : Owner ks vs) : Act ks vs → Option (Owner ks vs)
  | .give key value junk => do
    let (r, map, alloc) ← insertMove s.map key value (some junk) (some false) s.alloc
    return { s with map, alloc, given := s.given ++ ⟨[key], [value]⟩,
                    dropped := s.dropped ++ dropAfter key value r }
  | .get key => do
    let _ ← get s.map key
    return s
  | .remove key => do
    let found ← findIndex s.map key
    let (_, map) ← remove s.map key
    return { s with map, lost := s.lost ++ elements (found.bind s.map.arrays.entry).toList }
  | .clear => some { s with map := clear s.map, lost := s.lost ++ elements s.map.arrays.entries }
  | .free =>
    some { s with map := (free s.map s.alloc).1, alloc := (free s.map s.alloc).2,
                  lost := s.lost ++ elements s.map.arrays.entries }
  | .drain => do
    let l ← drain s.map
    return { s with map := (free s.map s.alloc).1, alloc := (free s.map s.alloc).2,
                    dropped := s.dropped ++ elements l }

def start (keyAlign valueAlign : Nat) (hash : Option (Bytes ks → UInt64))
    (keyEq : Option (Bytes ks → Bytes ks → Bool)) (a : Alloc) : Owner ks vs :=
  ⟨newIn keyAlign valueAlign hash keyEq, a, ⟨[], []⟩, ⟨[], []⟩, ⟨[], []⟩⟩

def Act.keeps : Act ks vs → Bool
  | .give _ _ _ | .get _ | .drain => true
  | .remove _ | .clear | .free    => false

/-! ## The drain

The loop that the tests use before `free`: it goes through the iterator and drops every key and value.
`drain_spec` says that it drops exactly the entries, each once.
-/

def entriesFrom (m : Map ks vs) (slot : Nat) : List (Bytes ks × Bytes vs) :=
  (List.range' slot (m.cap - slot)).filterMap m.arrays.entry

theorem entriesFrom_zero {m : Map ks vs} (hw : Wf m) : entriesFrom m 0 = m.arrays.entries := by
  rw [entriesFrom, Nat.sub_zero, Arrays.entries, hw.sized.ctrl, List.range_eq_range']

/-- Slots without an entry are skipped. -/
theorem entriesFrom_skip {m : Map ks vs} {slot stop : Nat} (hle : slot ≤ stop) (hstop : stop ≤ m.cap)
    (hskip : ∀ j, slot ≤ j → j < stop → m.arrays.ctrl[j]? ≠ some .full) :
    entriesFrom m slot = entriesFrom m stop := by
  have hsplit : List.range' slot (m.cap - slot) =
      List.range' slot (stop - slot) ++ List.range' stop (m.cap - stop) := by
    obtain ⟨n, rfl⟩ := Nat.exists_eq_add_of_le hle
    obtain ⟨k, hk⟩ := Nat.exists_eq_add_of_le hstop
    have hcount : m.cap - slot = n + k := by omega
    have hrest : m.cap - (slot + n) = k := by omega
    rw [Nat.add_sub_cancel_left, hcount, hrest, List.range'_append_1]
  have hnone : (List.range' slot (stop - slot)).filterMap m.arrays.entry = [] := by
    rw [List.filterMap_eq_nil_iff]
    intro j hj
    have := List.mem_range'_1.mp hj
    rw [Arrays.entry, if_neg (hskip j this.1 (by omega))]
  rw [entriesFrom, hsplit, List.filterMap_append, hnone, List.nil_append]
  rfl

theorem entriesFrom_entry {m : Map ks vs} {slot : Nat} (hslot : slot < m.cap)
    {e : Bytes ks × Bytes vs} (he : m.arrays.entry slot = some e) :
    entriesFrom m slot = e :: entriesFrom m (slot + 1) := by
  have hcount : m.cap - slot = (m.cap - (slot + 1)) + 1 := by omega
  rw [entriesFrom, hcount, List.range'_succ, List.filterMap_cons_some he]
  rfl

/-- The loop drops the entries from its slot on. -/
theorem drainLoop_spec {m : Map ks vs} (hw : Wf m) {fuel slot : Nat} (hslot : slot ≤ m.cap)
    (hfuel : m.cap - slot < fuel) : drainLoop m fuel slot = some (entriesFrom m slot) := by
  induction fuel generalizing slot with
  | zero => exact absurd hfuel (Nat.not_lt_zero _)
  | succ fuel ih =>
      have hround : m.cap - slot < m.cap + 1 := by omega
      rcases iterLoop_spec hw hslot hround with ⟨i, hloop, hle, hlt, hfull, hskip⟩ | ⟨hloop, hskip⟩
      · obtain ⟨e, he⟩ := hw.sized.entry hfull
        obtain ⟨-, hk, hv⟩ := Arrays.entry_eq_some.mp he
        have hrest : drainLoop m fuel (i + 1) = some (entriesFrom m (i + 1)) := ih hlt (by omega)
        rw [entriesFrom_skip hle hlt.le hskip, entriesFrom_entry hlt he]
        simp [drainLoop, iterNext, hloop, deref_eq hk, deref_eq hv, hrest]
      · rw [entriesFrom_skip hslot le_rfl hskip]
        simp [drainLoop, iterNext, hloop, entriesFrom]

/-- **The drain** hands out every live entry, in the order of the slots. -/
theorem drain_spec {m : Map ks vs} (hw : Wf m) : drain m = some m.arrays.entries := by
  rw [drain, iterNew, drainLoop_spec hw (Nat.zero_le _) (by omega), entriesFrom_zero hw]

/-! ## Where the elements are

The account of an owner, as a permutation: what was given is what was dropped, what is in the map, and
what a call let go. Each call moves elements from one heap to another.
-/

/-- Every key and every value that was given is dropped, in the map, or let go by it. -/
structure Owner.Accounted (s : Owner ks vs) : Prop where
  keys   : s.given.keys.Perm
    (s.dropped.keys ++ (s.map.arrays.entries.map Prod.fst ++ s.lost.keys))
  values : s.given.values.Perm
    (s.dropped.values ++ (s.map.arrays.entries.map Prod.snd ++ s.lost.values))

/-- What is new in a call, and what it drops and lets go. -/
theorem perm_step {α : Type} [DecidableEq α]
    {given dropped stored lost new drops stored' lets : List α}
    (h : given.Perm (dropped ++ (stored ++ lost)))
    (hstep : (new ++ stored).Perm (drops ++ (stored' ++ lets))) :
    (given ++ new).Perm ((dropped ++ drops) ++ (stored' ++ (lost ++ lets))) := by
  rw [List.perm_iff_count] at h hstep ⊢
  intro x
  have hx := h x
  have hx' := hstep x
  simp only [List.count_append] at hx hx' ⊢
  omega

/-- `insert_move` by the rules: the keys that were there or given are there or dropped, and so are the
    values. -/
theorem dropAfter_perm {m m' : Map ks vs} {a a' : Alloc} {key : Bytes ks} {value junk : Bytes vs}
    {r : Inserted vs} (h : InsertMoved m a key value (some junk) (some false) r m' a') :
    ([key] ++ m.arrays.entries.map Prod.fst).Perm
        ((dropAfter key value r).keys ++ (m'.arrays.entries.map Prod.fst ++ [])) ∧
      ([value] ++ m.arrays.entries.map Prod.snd).Perm
        ((dropAfter key value r).values ++ (m'.arrays.entries.map Prod.snd ++ [])) := by
  rw [List.append_nil, List.append_nil]
  cases h with
  | @replaced e rest m' _ hold hnew =>
      have hkeys : (m.arrays.entries.map Prod.fst).Perm (m'.arrays.entries.map Prod.fst) :=
        (hold.map Prod.fst).trans (hnew.map Prod.fst).symm
      refine ⟨hkeys.cons key, ?_⟩
      -- the value that was given takes the place of the displaced one
      have hvalues := (hnew.map Prod.snd).cons e.2
      exact (((hold.map Prod.snd).cons value).trans (.swap ..)).trans hvalues.symm
  | added _ hnew => exact ⟨(hnew.map Prod.fst).symm, (hnew.map Prod.snd).symm⟩
  | failed _ => exact ⟨.refl _, .refl _⟩

/-- A call that gives nothing to the map. -/
theorem Owner.Accounted.release {s : Owner ks vs} (h : s.Accounted) (map : Map ks vs) (alloc : Alloc)
    (drops lets : Elements ks vs)
    (hkeys : (s.map.arrays.entries.map Prod.fst).Perm
      (drops.keys ++ (map.arrays.entries.map Prod.fst ++ lets.keys)))
    (hvalues : (s.map.arrays.entries.map Prod.snd).Perm
      (drops.values ++ (map.arrays.entries.map Prod.snd ++ lets.values))) :
    Owner.Accounted
      { s with map, alloc, dropped := s.dropped ++ drops, lost := s.lost ++ lets } := by
  have hkeys' : (s.given.keys ++ []).Perm _ := perm_step h.keys hkeys
  have hvalues' : (s.given.values ++ []).Perm _ := perm_step h.values hvalues
  rw [List.append_nil] at hkeys' hvalues'
  exact ⟨hkeys', hvalues'⟩

theorem append_none (x : Elements ks vs) : x ++ ⟨[], []⟩ = x := by
  show (⟨x.keys ++ [], x.values ++ []⟩ : Elements ks vs) = x
  rw [List.append_nil, List.append_nil]

/-- Entries are let go. -/
theorem Owner.Accounted.letGo {s : Owner ks vs} (h : s.Accounted) {map : Map ks vs}
    (l : List (Bytes ks × Bytes vs)) (hperm : s.map.arrays.entries.Perm (map.arrays.entries ++ l))
    (alloc : Alloc) : Owner.Accounted { s with map, alloc, lost := s.lost ++ elements l } := by
  have hlet := h.release map alloc ⟨[], []⟩ (elements l)
    (by simpa [elements] using hperm.map Prod.fst) (by simpa [elements] using hperm.map Prod.snd)
  rwa [append_none] at hlet

/-- What was given is in the map, or was dropped. -/
theorem act_give {s : Owner ks vs} {key : Bytes ks} {value junk : Bytes vs} {r : Inserted vs}
    {map : Map ks vs} {alloc : Alloc}
    (h : insertMove s.map key value (some junk) (some false) s.alloc = some (r, map, alloc)) :
    act s (.give key value junk) =
      some { s with map, alloc, given := s.given ++ ⟨[key], [value]⟩,
                    dropped := s.dropped ++ dropAfter key value r } := by
  simp [act, h]

/-- What is removed is let go. -/
theorem act_remove {s : Owner ks vs} {key : Bytes ks} {found : Option Nat} {b : Bool}
    {map : Map ks vs} (hfind : findIndex s.map key = some found)
    (h : Hashmap.remove s.map key = some (b, map)) :
    act s (.remove key) =
      some { s with map, lost := s.lost ++ elements (found.bind s.map.arrays.entry).toList } := by
  simp [act, hfind, h]

theorem act_drain {s : Owner ks vs} (hw : Wf s.map) :
    act s .drain = some { s with map := (free s.map s.alloc).1, alloc := (free s.map s.alloc).2,
                                 dropped := s.dropped ++ elements s.map.arrays.entries } := by
  simp [act, drain_spec hw]

/-- **Step lemma.** Every call returns, and accounts for the elements. -/
theorem act_accounted {s : Owner ks vs} (hw : Wf s.map) (h : s.Accounted) (c : Act ks vs) :
    ∃ s', act s c = some s' ∧ Wf s'.map ∧ s'.Accounted ∧ (c.keeps = true → s'.lost = s.lost) ∧
      (c = .drain → s'.map.arrays.entries = []) := by
  cases c with
  | give key value junk =>
      obtain ⟨r, m', a', hr, hw', -, hins⟩ :=
        insertMove_spec hw key value (some junk) (some false) s.alloc
      obtain ⟨hkeys, hvalues⟩ := dropAfter_perm hins
      have hkeys' := perm_step h.keys hkeys
      have hvalues' := perm_step h.values hvalues
      rw [List.append_nil] at hkeys' hvalues'
      exact ⟨_, act_give hr, hw', ⟨hkeys', hvalues'⟩, fun _ => rfl, by rintro ⟨⟩⟩
  | get key =>
      obtain ⟨r, hget, -⟩ := get_spec hw key
      exact ⟨s, by simp [act, hget], hw, h, fun _ => rfl, by rintro ⟨⟩⟩
  | remove key =>
      obtain ⟨r, hfind, hsome, -⟩ := findIndex_spec hw key
      cases r with
      | none =>
          have hremove : Hashmap.remove s.map key = some (false, s.map) := by
            simp [Hashmap.remove, hfind]
          exact ⟨_, act_remove hfind hremove, hw, h.letGo [] (by simp) s.alloc,
            by rintro ⟨⟩, by rintro ⟨⟩⟩
      | some j =>
          obtain ⟨e, he, -⟩ := hsome j rfl
          obtain ⟨ctrl, hstore, hw', hperm⟩ := tombstone_spec hw he
          have hremove : Hashmap.remove s.map key = some (true,
              { s.map with arrays := { s.map.arrays with ctrl }, len := wsub s.map.len 1,
                           tombstones := wadd s.map.tombstones 1 }) := by
            simp [Hashmap.remove, hfind, hstore]
          refine ⟨_, act_remove hfind hremove, hw', ?_, by rintro ⟨⟩, by rintro ⟨⟩⟩
          have hfound : ((some j).bind s.map.arrays.entry).toList = [e] := by simp [he]
          rw [hfound]
          exact h.letGo [e] (hperm.trans (List.perm_append_singleton ..).symm) s.alloc
  | clear =>
      obtain ⟨hw', hentries, -⟩ := clear_spec hw
      exact ⟨_, rfl, hw', h.letGo _ (by rw [hentries]; exact .refl _) s.alloc, by rintro ⟨⟩,
        by rintro ⟨⟩⟩
  | free =>
      obtain ⟨hw', hentries, -⟩ := free_spec hw s.alloc
      exact ⟨_, rfl, hw', h.letGo _ (by rw [hentries]; exact .refl _) _, by rintro ⟨⟩,
        by rintro ⟨⟩⟩
  | drain =>
      obtain ⟨hw', hentries, -⟩ := free_spec hw s.alloc
      refine ⟨_, act_drain hw, hw', ?_, fun _ => rfl, fun _ => hentries⟩
      have hdrop := h.release (free s.map s.alloc).1 (free s.map s.alloc).2
        (elements s.map.arrays.entries) ⟨[], []⟩
        (by rw [hentries]; simp [elements]) (by rw [hentries]; simp [elements])
      rwa [append_none] at hdrop

/-! ## Every program

The account holds after every run, and without `remove`, `clear` and a bare `free` nothing is ever let
go.
-/

/-- **Run lemma.** Every program accounts for its elements, and loses none unless it removes one, or
    clears or frees the map without a drain. -/
theorem run_accounted (keyAlign valueAlign : Nat) (hash : Option (Bytes ks → UInt64))
    (keyEq : Option (Bytes ks → Bytes ks → Bool)) (a : Alloc) (acts : List (Act ks vs)) :
    ∃ s, Machine.run act (start keyAlign valueAlign hash keyEq a) acts = some s ∧ Wf s.map ∧
      s.Accounted ∧ ((∀ c ∈ acts, Act.keeps c = true) → s.lost = ⟨[], []⟩) := by
  refine Machine.run_progress (I := fun done (s : Owner ks vs) => Wf s.map ∧ s.Accounted ∧
    ((∀ c ∈ done, Act.keeps c = true) → s.lost = ⟨[], []⟩)) ?_ ?_
  · exact ⟨wf_newIn keyAlign valueAlign hash keyEq, ⟨.refl _, .refl _⟩, fun _ => rfl⟩
  · rintro done c rest s - ⟨hw, h, hlost⟩
    obtain ⟨s', hs', hw', h', hkeeps, -⟩ := act_accounted hw h c
    refine ⟨s', hs', hw', h', fun hall => ?_⟩
    rw [hkeeps (hall c (by simp)), hlost fun c' hc' => hall c' (List.mem_append_left _ hc')]

/-- **Elements are dropped once.** What is given to a map is dropped by its owner, still in it, or let
    go by it; and when the program has let nothing go, a drain leaves every key and every value dropped
    as often as it was given. -/
theorem elements_dropped_once (keyAlign valueAlign : Nat) (hash : Option (Bytes ks → UInt64))
    (keyEq : Option (Bytes ks → Bytes ks → Bool)) (a : Alloc) (acts : List (Act ks vs)) :
    ∃ s, Machine.run act (start keyAlign valueAlign hash keyEq a) acts = some s ∧ s.Accounted ∧
      ((∀ c ∈ acts, Act.keeps c = true) → ∃ s', act s .drain = some s' ∧ s'.given = s.given ∧
        s'.given.keys.Perm s'.dropped.keys ∧ s'.given.values.Perm s'.dropped.values) := by
  obtain ⟨s, hs, hw, h, hlost⟩ := run_accounted keyAlign valueAlign hash keyEq a acts
  refine ⟨s, hs, h, fun hall => ?_⟩
  obtain ⟨s', hs', -, h', hkeeps, hempty⟩ := act_accounted hw h .drain
  have hnone : s'.lost = ⟨[], []⟩ := (hkeeps rfl).trans (hlost hall)
  have hgiven : s'.given = s.given := by
    rw [act_drain hw] at hs'
    cases hs'
    rfl
  refine ⟨s', hs', hgiven, ?_, ?_⟩
  · simpa [hnone, hempty rfl] using h'.keys
  · simpa [hnone, hempty rfl] using h'.values

/-- `remove` returns no element: its key and its value are let go. -/
example : ((Machine.run act (start 1 1 none none ⟨fun _ => false, fun _ _ => 0, 0, []⟩)
    [.give #v[7] #v[1] #v[0], (.remove #v[7] : Act 1 1)]).map Owner.lost) =
      some ⟨[#v[7]], [#v[1]]⟩ := by
  decide +kernel

end CustLib.Hashmap.Drain
