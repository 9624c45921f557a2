import CustLib.Std.Protocol

/-!
# What `free` leaves of a container

A container that was freed and one that was just made are told apart by nothing that can be called on
them, as far as `free` resets it. `std_hashmap_free` looks at the capacity, `cstd_string_free` and
`std_vec_free` at the data pointer. A vec of units has a capacity and a length but never a block, so
its `free` does nothing (`free_resets_iff`).
-/

namespace CustLib.Reset

/-! ## Containers

What the three containers have in common: calls, a length and a capacity, `free`, and the blocks that
they own. `Resets` compares a freed container with a new one by every continuation, so nothing that a
program can observe tells them apart.
-/

structure Container (C Op Ret : Type) where
  exec    : C → Alloc → Op → Option (Ret × C × Alloc)
  free    : C → Alloc → C × Alloc
  len     : C → Nat
  cap     : C → Nat
  storage : C → List Block

/-- A call, one that asks for the length or the capacity, or `free`. -/
inductive Call (Op : Type) where
  | op (o : Op)
  | len
  | capacity
  | free

inductive Result (Ret : Type) where
  | ret (r : Ret)
  | size (n : Nat)
  | unit

section

variable {C Op Ret : Type} {K : Container C Op Ret}

def Container.call (K : Container C Op Ret) (c : C) (a : Alloc) :
    Call Op → Option (Result Ret × C × Alloc)
  | .op o     => do
    let (r, c, a) ← K.exec c a o
    return (.ret r, c, a)
  | .len      => some (.size (K.len c), c, a)
  | .capacity => some (.size (K.cap c), c, a)
  | .free     => some (.unit, K.free c a)

def Container.step (K : Container C Op Ret) (s : C × Alloc) (u : Call Op) : Option (C × Alloc) :=
  (K.call s.1 s.2 u).map Prod.snd

def Container.results (K : Container C Op Ret) (c : C) (a : Alloc) :
    List (Call Op) → Option (List (Result Ret))
  | []      => some []
  | u :: us => do
    let (r, c, a) ← K.call c a u
    return r :: (← K.results c a us)

/-- `free` resets `c` completely: to no elements, no capacity and no storage, upon which a second `free`
    does nothing and every continuation returns what it returns on `fresh`. -/
structure Container.Resets (K : Container C Op Ret) (c fresh : C) (a : Alloc) : Prop where
  len     : K.len (K.free c a).1 = 0
  cap     : K.cap (K.free c a).1 = 0
  storage : K.storage (K.free c a).1 = []
  again   : K.free (K.free c a).1 (K.free c a).2 = K.free c a
  same    : ∀ us, K.results (K.free c a).1 (K.free c a).2 us = K.results fresh (K.free c a).2 us

/-- A container without anything, on which `free` does nothing. -/
structure Container.Blank (K : Container C Op Ret) (c : C) : Prop where
  len     : K.len c = 0
  cap     : K.cap c = 0
  storage : K.storage c = []
  free    : ∀ a, K.free c a = (c, a)

/-- `free` resets what it turns into the fresh container. -/
theorem Container.Resets.of_eq {c fresh : C} {a : Alloc} (hblank : K.Blank fresh)
    (h : (K.free c a).1 = fresh) : K.Resets c fresh a where
  len     := h ▸ hblank.len
  cap     := h ▸ hblank.cap
  storage := h ▸ hblank.storage
  again   := by
    have hfree : K.free c a = (fresh, (K.free c a).2) := Prod.ext h rfl
    rw [hfree]
    exact hblank.free _
  same    := fun us => by rw [h]

/-- What the calls of a container and its `free` preserve holds after every sequence of them, each of
    which returns. -/
theorem Container.run_invariant {I : C → Prop}
    (hexec : ∀ c a o, I c → ∃ r c' a', K.exec c a o = some (r, c', a') ∧ I c')
    (hfree : ∀ c a, I c → I (K.free c a).1) {c : C} (hc : I c) (a : Alloc) (us : List (Call Op)) :
    ∃ s, Machine.run K.step (c, a) us = some s ∧ I s.1 := by
  refine Machine.run_progress (I := fun _ (s : C × Alloc) => I s.1) hc ?_
  intro _ u _ s _ hs
  cases u with
  | op o =>
      obtain ⟨r, c', a', hr, hc'⟩ := hexec s.1 s.2 o hs
      exact ⟨(c', a'), by simp [Container.step, Container.call, hr], hc'⟩
  | len => exact ⟨s, rfl, hs⟩
  | capacity => exact ⟨s, rfl, hs⟩
  | free => exact ⟨K.free s.1 s.2, rfl, hfree s.1 s.2 hs⟩

end

end CustLib.Reset

namespace CustLib

open CustLib.Reset CustLib.Ledger

/-! ## `std_vec`

`std_vec_free` returns at once where the data pointer is null. A vec whose elements have a size has no
block only while it has no capacity, so that is right for it; a vec of units never has a block, and
keeps its length and its capacity.
-/

namespace Vec

variable {es : Nat}

def container (es : Nat) : Container (StdVec es) (Op es) (Ret es) :=
  ⟨exec, free, StdVec.len, StdVec.cap, fun v => v.data.toList⟩

theorem blank_newIn (elemAlign : Nat) : (container es).Blank (newIn elemAlign) :=
  ⟨rfl, rfl, rfl, fun _ => rfl⟩

/-- What no call changes: the alignment, and that units have no block. -/
structure Kept (v v' : StdVec es) : Prop where
  align : v'.elemAlign = v.elemAlign
  units : es = 0 → v.data = none → v'.data = none

theorem Kept.refl (v : StdVec es) : Kept v v := ⟨rfl, fun _ => id⟩

theorem Reserved.kept {v v' : StdVec es} {extra : Nat} {a a' : Alloc} {ok : Bool}
    (hres : Reserved v extra a ok v' a') : Kept v v' := by
  cases hres with
  | enough | tooMany | tooLarge | refused => exact .refl v
  | units => exact ⟨rfl, fun _ => id⟩
  | grown hunits => exact ⟨rfl, fun hzero => absurd hzero hunits⟩

theorem exec_kept {v v' : StdVec es} {l : List (Bytes es)} (h : Models v l) {a a' : Alloc}
    {op : Op es} {r : Ret es} (hexec : exec v a op = some (r, v', a')) : Kept v v' := by
  obtain ⟨v₁, hcall, hdata, -, halign⟩ := exec_block h hexec
  have hkept : Kept v v₁ := by
    rcases hcall with ⟨ok, hres⟩ | ⟨rfl, -⟩
    · exact hres.kept
    · exact .refl _
  exact ⟨halign.trans hkept.align, fun hz hn => hdata.trans (hkept.units hz hn)⟩

structure Usable (elemAlign : Nat) (v : StdVec es) : Prop where
  models : ∃ l, Models v l
  align  : v.elemAlign = elemAlign
  units  : es = 0 → v.data = none

theorem usable_newIn (elemAlign : Nat) : Usable elemAlign (newIn elemAlign : StdVec es) :=
  ⟨⟨[], models_newIn elemAlign⟩, rfl, fun _ => rfl⟩

theorem Usable.kept {elemAlign : Nat} {v v' : StdVec es} (h : Usable elemAlign v)
    (hmodels : ∃ l, Models v' l) (hkept : Kept v v') : Usable elemAlign v' :=
  ⟨hmodels, hkept.align.trans h.align, fun hz => hkept.units hz (h.units hz)⟩

theorem Usable.exec {elemAlign : Nat} {v : StdVec es} (h : Usable elemAlign v) (a : Alloc)
    (op : Op es) : ∃ r v' a', exec v a op = some (r, v', a') ∧ Usable elemAlign v' := by
  obtain ⟨l, hl⟩ := h.models
  obtain ⟨r, v', a', hexec, hsim⟩ := exec_simulates hl a op
  obtain ⟨l', -, hl'⟩ := hsim.spec
  exact ⟨r, v', a', hexec, h.kept ⟨l', hl'⟩ (exec_kept hl hexec)⟩

/-- A vec without a block is the empty one, if its elements have a size. -/
theorem Usable.eq_newIn {elemAlign : Nat} {v : StdVec es} (h : Usable elemAlign v)
    (hdata : v.data = none) (hsize : es ≠ 0 ∨ v.cap = 0) : v = newIn elemAlign := by
  obtain ⟨l, hl⟩ := h.models
  have hbytes : v.bytes = [] := hl.null hdata
  have hcap : v.cap = 0 := by
    rcases hsize with hes | hcap
    · have hmul := hl.size
      rw [hbytes, List.length_nil] at hmul
      exact (Nat.mul_eq_zero.mp hmul.symm).resolve_right hes
    · exact hcap
  have hlen : v.len = 0 := Nat.le_zero.mp (hcap ▸ hl.room)
  have halign := h.align
  cases v
  simp_all [newIn]

/-- `free` makes the empty vec, unless the elements are units. -/
theorem Usable.free_eq {elemAlign : Nat} {v : StdVec es} (h : Usable elemAlign v) (a : Alloc)
    (hsize : es ≠ 0 ∨ v.cap = 0) : (free v a).1 = newIn elemAlign := by
  cases hdata : v.data with
  | none =>
      have hfree : free v a = (v, a) := by simp [free, hdata]
      rw [hfree]
      exact h.eq_newIn hdata hsize
  | some p => simp [free, hdata, newIn, h.align]

theorem Usable.free {elemAlign : Nat} {v : StdVec es} (h : Usable elemAlign v) (a : Alloc) :
    Usable elemAlign (free v a).1 := by
  cases hdata : v.data with
  | none =>
      have hfree : Vec.free v a = (v, a) := by simp [Vec.free, hdata]
      rwa [hfree]
  | some p =>
      have hfree : (Vec.free v a).1 = newIn elemAlign := by simp [Vec.free, hdata, newIn, h.align]
      rw [hfree]
      exact usable_newIn elemAlign

/-- **A vec is reset by `free` iff its elements have a size or it has no capacity.** -/
theorem Usable.resets_iff {elemAlign : Nat} {v : StdVec es} (h : Usable elemAlign v) (a : Alloc) :
    (container es).Resets v (newIn elemAlign) a ↔ es ≠ 0 ∨ v.cap = 0 := by
  constructor
  · intro hresets
    by_contra hsize
    obtain ⟨hes, hcap⟩ := not_or.mp hsize
    -- units never get a block, and without one `free` returns at once
    have hfree : Vec.free v a = (v, a) := by simp [Vec.free, h.units (not_not.mp hes)]
    apply hcap
    have hzero : (Vec.free v a).1.cap = 0 := hresets.cap
    rwa [hfree] at hzero
  · intro hsize
    exact .of_eq (blank_newIn elemAlign) (h.free_eq a hsize)

theorem construct_usable (elemAlign : Nat) (ctor : Ctor) (a : Alloc) :
    ∃ ok v a', construct elemAlign a ctor = some (ok, (v : StdVec es), a') ∧
      Usable elemAlign v := by
  cases ctor with
  | newIn => exact ⟨true, _, a, rfl, usable_newIn elemAlign⟩
  | withCapacityIn cap =>
      unfold construct withCapacityIn
      by_cases hzero : cap = 0
      · exact ⟨true, _, a, if_pos hzero, usable_newIn elemAlign⟩
      · obtain ⟨ok, v, a', hreserve, hres⟩ := reserve_spec (models_newIn elemAlign) cap a
        obtain ⟨hv, -, -, -⟩ := hres.models (models_newIn elemAlign)
        exact ⟨ok, v, a', (if_neg hzero).trans hreserve,
          (usable_newIn elemAlign).kept ⟨[], hv⟩ hres.kept⟩

end Vec

/-! ## `cstd_string`

A string with a length has a block, so its `free` resets it.
-/

namespace Str

def container : Container StdString Op Ret :=
  ⟨exec, free, StdString.len, StdString.cap, fun s => s.data.toList⟩

theorem blank_newIn : container.Blank newIn := ⟨rfl, rfl, rfl, fun _ => rfl⟩

/-- `free` makes the empty string. -/
theorem free_eq {s : StdString} {l : List UInt8} (h : Models s l) (a : Alloc) :
    (free s a).1 = newIn := by
  cases hdata : s.data with
  | none =>
      have hbytes : s.bytes = [] := h.null hdata
      have hcap : s.cap = 0 := by
        rw [← h.size, hbytes]
        rfl
      have hlen : s.len = 0 := Nat.le_zero.mp (hcap ▸ h.room)
      cases s
      simp_all [free, newIn]
  | some p => simp [free, hdata, newIn]

theorem exec_models (s : StdString) (a : Alloc) (op : Op) (h : ∃ l, Models s l) :
    ∃ r s' a', exec s a op = some (r, s', a') ∧ ∃ l, Models s' l := by
  obtain ⟨l, hl⟩ := h
  obtain ⟨r, s', a', hexec, hsim⟩ := exec_simulates hl a op
  obtain ⟨l', -, hl'⟩ := hsim.spec
  exact ⟨r, s', a', hexec, l', hl'⟩

theorem free_models (s : StdString) (a : Alloc) (h : ∃ l, Models s l) :
    ∃ l, Models (free s a).1 l := by
  obtain ⟨l, hl⟩ := h
  rw [free_eq hl a]
  exact ⟨[], models_newIn⟩

end Str

/-! ## `std_hashmap`

`std_hashmap_free` looks at the capacity, which is zero exactly for a table without arrays. The
alignments stay what they were, and with them the requests that later calls make.
-/

namespace Hashmap

variable {ks vs : Nat}

def container (ks vs : Nat) : Container (Map ks vs) (Op ks vs) (Ret vs) :=
  ⟨exec, free, Map.len, Map.cap, fun m =>
    m.arrays.ctrlPtr.toList ++ m.arrays.keysPtr.toList ++ m.arrays.valuesPtr.toList⟩

theorem blank_newIn (keyAlign valueAlign : Nat) (hash : Option (Bytes ks → UInt64))
    (keyEq : Option (Bytes ks → Bytes ks → Bool)) :
    (container ks vs).Blank (newIn keyAlign valueAlign hash keyEq) :=
  ⟨rfl, rfl, rfl, fun _ => rfl⟩

def aligns (m : Map ks vs) : Nat × Nat := (m.keyAlign, m.valueAlign)

section

variable {m m' : Map ks vs} {a a' : Alloc}

theorem rehash_aligns {newCap : Nat} {ok : Bool} (h : rehash m newCap a = some (ok, m', a')) :
    aligns m' = aligns m := by
  unfold rehash at h
  split at h
  · split at h
    · cases h
      rfl
    · obtain ⟨new, -, h⟩ := Option.bind_eq_some_iff.mp h
      cases h
      rfl
  · cases h
    rfl

theorem ensureOne_aligns {ok : Bool} (h : ensureOne m a = some (ok, m', a')) :
    aligns m' = aligns m := by
  unfold ensureOne at h
  split at h
  · exact rehash_aligns h
  · split at h
    · generalize (if wmul (wadd m.len 1) 4 > wmul m.cap 3 then wmul m.cap 2 else m.cap) = newCap at h
      by_cases hguard : newCap < m.cap
      · rw [if_pos hguard] at h
        cases h
        rfl
      · rw [if_neg hguard] at h
        exact rehash_aligns h
    · cases h
      rfl

theorem insertMove_aligns {key : Bytes ks} {value : Bytes vs} {oldValue : Option (Bytes vs)}
    {replaced : Option Bool} {r : Inserted vs}
    (h : insertMove m key value oldValue replaced a = some (r, m', a')) :
    aligns m' = aligns m := by
  rcases insertMove_cases h with ⟨values, rfl, -⟩ | ⟨ok, m₁, hensure, hdone⟩
  · rfl
  have hsame := ensureOne_aligns hensure
  rcases hdone with ⟨-, hinsert⟩ | ⟨-, rfl⟩
  · obtain ⟨ctrl, keys, values, tombstones, rfl⟩ := insertAbsent_cases hinsert
    exact hsame
  · exact hsame

theorem exec_aligns {op : Op ks vs} {r : Ret vs} (h : exec m a op = some (r, m', a')) :
    aligns m' = aligns m := by
  rcases exec_cases h with ⟨-, key, value, oldValue, replaced, r', hinsert⟩ |
    ⟨-, -, ⟨key, b, hremove⟩ | rfl | rfl⟩ | ⟨-, hfree⟩
  · exact insertMove_aligns hinsert
  · rcases remove_cases hremove with rfl | ⟨ctrl, rfl⟩ <;> rfl
  · unfold clear
    split <;> rfl
  · rfl
  · unfold free at hfree
    split at hfree <;> cases hfree <;> rfl

end

theorem entry_eq_zero_iff {ptr : Option Block} {size align : Nat} :
    entry ptr size align = 0 ↔ ptr = none := by
  cases ptr with
  | none => simp [entry]
  | some b => simp [entry]

structure Usable (fresh m : Map ks vs) : Prop where
  wf     : Wf m
  sound  : Sound m
  types  : SameTypes fresh m
  aligns : aligns m = aligns fresh

theorem Usable.exec {fresh m : Map ks vs} (h : Usable fresh m) (a : Alloc) (op : Op ks vs) :
    ∃ r m' a', exec m a op = some (r, m', a') ∧ Usable fresh m' := by
  obtain ⟨r, m', a', hexec, hw', ht⟩ := exec_wf h.wf a op
  refine ⟨r, m', a', hexec, hw', (exec_turns h.wf h.sound a op hexec).2, ?_, ?_⟩
  · exact ⟨ht.hash.trans h.types.hash, ht.keyEq.trans h.types.keyEq⟩
  · exact (exec_aligns hexec).trans h.aligns

section

variable {keyAlign valueAlign : Nat} {hash : Option (Bytes ks → UInt64)}
  {keyEq : Option (Bytes ks → Bytes ks → Bool)} {m : Map ks vs}

theorem usable_newIn (keyAlign valueAlign : Nat) (hash : Option (Bytes ks → UInt64))
    (keyEq : Option (Bytes ks → Bytes ks → Bool)) :
    Usable (newIn keyAlign valueAlign hash keyEq : Map ks vs)
      (newIn keyAlign valueAlign hash keyEq) :=
  ⟨wf_newIn keyAlign valueAlign hash keyEq, sound_newIn keyAlign valueAlign hash keyEq, .refl _,
    rfl⟩

/-- `free` makes the empty map: a map without a capacity is it already. -/
theorem Usable.free_eq (h : Usable (newIn keyAlign valueAlign hash keyEq) m) (a : Alloc) :
    (free m a).1 = newIn keyAlign valueAlign hash keyEq := by
  have hhash := h.types.hash
  have hkeyEq := h.types.keyEq
  obtain ⟨hkeyAlign, hvalueAlign⟩ := Prod.mk.inj h.aligns
  by_cases hcap : m.cap = 0
  · have hctrl : m.arrays.ctrl = [] := List.eq_nil_of_length_eq_zero (h.wf.sized.ctrl.trans hcap)
    have hkeys : m.arrays.keys = [] := List.eq_nil_of_length_eq_zero (h.wf.sized.keys.trans hcap)
    have hvalues : m.arrays.values = [] :=
      List.eq_nil_of_length_eq_zero (h.wf.sized.values.trans hcap)
    have hlen : m.len = 0 := by rw [h.wf.len, hctrl]; rfl
    have htombs : m.tombstones = 0 := by rw [h.wf.tombstones, hctrl]; rfl
    -- a map without a capacity owns no block
    have howned := congrArg Multiset.card (h.sound.null hcap)
    simp only [owned, blocks, Multiset.card_add, Multiset.card_zero, Nat.add_eq_zero_iff,
      Multiset.card_eq_zero, entry_eq_zero_iff] at howned
    obtain ⟨⟨hc, hk⟩, hv⟩ := howned
    rw [free, if_pos hcap]
    obtain ⟨⟨ctrl, keys, values, ctrlPtr, keysPtr, valuesPtr⟩, len, tombs, cap, ka, va, f, eq⟩ := m
    simp_all [newIn]
  · rw [free, if_neg hcap]
    obtain ⟨arrays, len, tombs, cap, ka, va, f, eq⟩ := m
    simp_all [newIn]

theorem Usable.free (h : Usable (newIn keyAlign valueAlign hash keyEq) m) (a : Alloc) :
    Usable (newIn keyAlign valueAlign hash keyEq) (free m a).1 := by
  rw [h.free_eq a]
  exact usable_newIn keyAlign valueAlign hash keyEq

end

end Hashmap

/-! ## The three containers

`free` resets strings and maps always, and a vec if and only if its elements have a size or its capacity
is zero.
-/

/-- **`free` resets strings and maps, and vecs of elements with a size.** Every sequence of calls on a
    new container returns, `free` and the two size queries included. In the state it reaches `free`
    resets a string and a map completely; it does a vec iff its elements have a size or it has no
    capacity. -/
theorem free_resets_iff (a : Alloc) :
    (∀ (es elemAlign : Nat) (ctor : Vec.Ctor) (us : List (Call (Vec.Op es))),
      ∃ ok v₀ a₀ s, Vec.construct elemAlign a ctor = some (ok, v₀, a₀) ∧
        Machine.run (Vec.container es).step (v₀, a₀) us = some s ∧
        ((Vec.container es).Resets s.1 (Vec.newIn elemAlign) s.2 ↔ es ≠ 0 ∨ s.1.cap = 0)) ∧
    (∀ (ctor : Str.Ctor) (us : List (Call Str.Op)),
      ∃ ok t₀ a₀ s, Str.construct a ctor = some (ok, t₀, a₀) ∧
        Machine.run Str.container.step (t₀, a₀) us = some s ∧
        Str.container.Resets s.1 Str.newIn s.2) ∧
    ∀ (ks vs keyAlign valueAlign : Nat) (hash : Option (Bytes ks → UInt64))
      (keyEq : Option (Bytes ks → Bytes ks → Bool)) (us : List (Call (Hashmap.Op ks vs))),
      ∃ s, Machine.run (Hashmap.container ks vs).step
          (Hashmap.newIn keyAlign valueAlign hash keyEq, a) us = some s ∧
        (Hashmap.container ks vs).Resets s.1 (Hashmap.newIn keyAlign valueAlign hash keyEq) s.2 := by
  refine ⟨?_, ?_, ?_⟩
  · intro es elemAlign ctor us
    obtain ⟨ok, v₀, a₀, hconstruct, hv₀⟩ := Vec.construct_usable elemAlign ctor a
    obtain ⟨s, hrun, hs⟩ := Container.run_invariant (K := Vec.container es)
      (fun v a op h => Vec.Usable.exec h a op) (fun v a h => Vec.Usable.free h a) hv₀ a₀ us
    exact ⟨ok, v₀, a₀, s, hconstruct, hrun, hs.resets_iff s.2⟩
  · intro ctor us
    obtain ⟨ok, t₀, a₀, hconstruct, ht₀, -⟩ := Str.construct_spec ctor a
    obtain ⟨s, hrun, l, hl⟩ := Container.run_invariant (K := Str.container)
      (fun t a op h => Str.exec_models t a op h) (fun t a h => Str.free_models t a h)
      ⟨[], ht₀⟩ a₀ us
    exact ⟨ok, t₀, a₀, s, hconstruct, hrun, .of_eq Str.blank_newIn (Str.free_eq hl s.2)⟩
  · intro ks vs keyAlign valueAlign hash keyEq us
    obtain ⟨s, hrun, hs⟩ := Container.run_invariant (K := Hashmap.container ks vs)
      (fun m a op h => Hashmap.Usable.exec h a op) (fun m a h => Hashmap.Usable.free h a)
      (Hashmap.usable_newIn keyAlign valueAlign hash keyEq) a us
    exact ⟨s, hrun, .of_eq (Hashmap.blank_newIn keyAlign valueAlign hash keyEq) (hs.free_eq s.2)⟩

/-- A vec of units that was pushed to once keeps its length and its capacity over `free`. -/
theorem units_outlive_free :
    ∃ s : Vec.StdVec 0 × Alloc,
      Machine.run (Vec.container 0).step
        (Vec.newIn 1, freshAlloc (fun _ => false) fun _ _ => 0) [.op (.push #v[])] = some s ∧
      (Vec.free s.1 s.2).1.len = 1 ∧ (Vec.free s.1 s.2).1.cap = 8 ∧
      ¬ (Vec.container 0).Resets s.1 (Vec.newIn 1) s.2 := by
  have hrun : (Machine.run (Vec.container 0).step
      (Vec.newIn 1, freshAlloc (fun _ => false) fun _ _ => 0) [.op (.push #v[])]).map
        (fun s => ((Vec.free s.1 s.2).1.len, (Vec.free s.1 s.2).1.cap)) = some (1, 8) := by
    decide +kernel
  obtain ⟨s, hs, hfree⟩ := Option.map_eq_some_iff.mp hrun
  obtain ⟨hlen, hcap⟩ := Prod.mk.inj hfree
  refine ⟨s, hs, hlen, hcap, ?_⟩
  intro hresets
  have hzero : (Vec.free s.1 s.2).1.cap = 0 := hresets.cap
  simp [hcap] at hzero

end CustLib
