import CustLib.Std.Growth

/-!
# `std::hashmap`: the functions of the source

Open addressing with linear probing and one control byte a slot. Key and value types are described
by their sizes `ks` and `vs`, a key is its `ks` bytes. The probe loops of the source have no bound;
here they are cut off after as many rounds as the table has slots, and a loop that is cut off, like
an access outside of an array, gives `none`.
-/

namespace CustLib.Hashmap

/-- A control byte. -/
inductive Slot where
  | empty
  | full
  | tombstone
  deriving DecidableEq, Repr

/-- The three arrays of a map: what they hold, and the blocks they are in. A null pointer is the
    array of zero-sized elements, or of no elements. -/
structure Arrays (ks vs : Nat) where
  ctrl      : List Slot
  keys      : List (Bytes ks)
  values    : List (Bytes vs)
  ctrlPtr   : Option Block
  keysPtr   : Option Block
  valuesPtr : Option Block
  deriving DecidableEq

/-- `struct std_hashmap`, less its allocator, which every call is handed with its state. -/
structure Map (ks vs : Nat) where
  arrays     : Arrays ks vs
  len        : Nat
  tombstones : Nat
  cap        : Nat
  keyAlign   : Nat
  valueAlign : Nat
  hash       : Bytes ks → UInt64
  keyEq      : Bytes ks → Bytes ks → Bool

variable {ks vs : Nat}

/-! ## Default hash and equality

What a map is given when the caller passes null pointers to `std_hashmap_new_in`: a digest of all bytes
of the key, and `memcmp`. Keys with padding or pointers need functions of their own.
-/

/-- `std_hash_bytes`. The comment in the source calls it FNV-1a. -/
def stdHashBytes (key : Bytes ks) : UInt64 :=
  key.toList.foldl (fun h b => (h ^^^ b.toUInt64) * 1099511628211) 1469598103934665603

def stdKeyEqBytes (a b : Bytes ks) : Bool := a == b

/-! ## Internal helpers

The static functions of `hashmap.c`. `rehash` builds the three arrays anew and copies the full slots;
`ensure_one` decides whether it has to run, at the doubled capacity or at the same one, before an
insertion; `find_index` is the probe of every lookup. The mask of a probe is `cap - 1`, so the
capacities are powers of two.
-/

/-- An allocation that is made only if it has a size; no block is needed otherwise. -/
def allocateOpt (a : Alloc) (size align : Nat) : Option (Option Block) × Alloc :=
  if size = 0 then (some none, a)
  else
    match a.allocate size align with
    | (none, a)   => (none, a)
    | (some b, a) => (some (some b), a)

def deallocateOpt (a : Alloc) (ptr : Option Block) (size align : Nat) : Alloc :=
  match ptr with
  | none   => a
  | some b => a.deallocate b size align

def freeArrays (m : Map ks vs) (a : Alloc) : Alloc :=
  let a := deallocateOpt a m.arrays.ctrlPtr m.cap 1
  let a := deallocateOpt a m.arrays.keysPtr ((checkedMul m.cap ks).getD 0) m.keyAlign
  deallocateOpt a m.arrays.valuesPtr ((checkedMul m.cap vs).getD 0) m.valueAlign

/-- The next slot of a probe: `(j + 1) & mask`. -/
def nextSlot (mask j : Nat) : Nat := wadd j 1 &&& mask

/-- Where the probe for a key starts: `(usize)h & mask`. -/
def homeSlot (m : Map ks vs) (mask : Nat) (key : Bytes ks) : Nat := (m.hash key).toNat &&& mask

/-- The three allocations of `rehash`: `none` is a refusal, upon which what was obtained is given
    back. The null pointer stands for an array of no bytes. -/
def allocateArrays (m : Map ks vs) (newCap keyBytes valBytes : Nat) (a : Alloc) :
    Option (Arrays ks vs) × Alloc :=
  match a.allocate newCap 1 with
  | (none, a) => (none, a)
  | (some ctrl, a) =>
    match allocateOpt a keyBytes m.keyAlign with
    | (none, a) => (none, a.deallocate ctrl newCap 1)
    | (some keys, a) =>
      match allocateOpt a valBytes m.valueAlign with
      | (none, a) => (none, (deallocateOpt a keys keyBytes m.keyAlign).deallocate ctrl newCap 1)
      | (some values, a) =>
        (some { ctrl      := List.replicate newCap .empty,
                keys      := a.fresh (keys.getD 0) ks newCap,
                values    := a.fresh (values.getD 0) vs newCap,
                ctrlPtr   := some ctrl,
                keysPtr   := keys,
                valuesPtr := values }, a)

/-- The probe of `rehash` for a slot that is not full. -/
def findFree (ctrl : List Slot) (mask : Nat) : Nat → Nat → Option Nat
  | 0, _ => none
  | fuel + 1, j => do
    if (← ctrl[j]?) = .full then findFree ctrl mask fuel (nextSlot mask j) else return j

/-- One round of `rehash`: copy slot `i` of the old arrays. -/
def copySlot (m : Map ks vs) (newCap : Nat) (new : Arrays ks vs) (i : Nat) :
    Option (Arrays ks vs) := do
  let c ← m.arrays.ctrl[i]?
  if c ≠ .full then
    return new
  let mask := newCap - 1
  let key ← m.arrays.keys[i]?
  let j ← findFree new.ctrl mask newCap (homeSlot m mask key)
  let ctrl ← store new.ctrl j .full
  let keys ← store new.keys j key
  let values ← store new.values j (← m.arrays.values[i]?)
  return { new with ctrl, keys, values }

def rehash (m : Map ks vs) (newCap : Nat) (a : Alloc) : Option (Bool × Map ks vs × Alloc) :=
  match checkedMul newCap ks, checkedMul newCap vs with
  | some keyBytes, some valBytes =>
    match allocateArrays m newCap keyBytes valBytes a with
    | (none, a) => some (false, m, a)
    | (some fresh, a) => do
      let new ← (List.range m.cap).foldlM (copySlot m newCap) fresh
      return (true, { m with arrays := new, cap := newCap, tombstones := 0 }, freeArrays m a)
  | _, _ => some (false, m, a)

def ensureOne (m : Map ks vs) (a : Alloc) : Option (Bool × Map ks vs × Alloc) :=
  if m.cap = 0 then
    rehash m 8 a
  else if wmul (wadd (wadd m.len m.tombstones) 1) 4 > wmul m.cap 3 then
    let newCap := if wmul (wadd m.len 1) 4 > wmul m.cap 3 then wmul m.cap 2 else m.cap
    if newCap < m.cap then some (false, m, a) else rehash m newCap a
  else
    some (true, m, a)

/-- The loop of `find_index`; the answer `none` is the index `(usize)-1`. -/
def findLoop (m : Map ks vs) (key : Bytes ks) (mask : Nat) : Nat → Nat → Option (Option Nat)
  | 0, _ => none
  | fuel + 1, j => do
    match (← m.arrays.ctrl[j]?) with
    | .empty     => return none
    | .full      =>
      if m.keyEq (← m.arrays.keys[j]?) key then return some j
      else findLoop m key mask fuel (nextSlot mask j)
    | .tombstone => findLoop m key mask fuel (nextSlot mask j)

def findIndex (m : Map ks vs) (key : Bytes ks) : Option (Option Nat) :=
  if m.cap = 0 then some none
  else
    let mask := m.cap - 1
    findLoop m key mask m.cap (homeSlot m mask key)

/-! ## Construction and teardown

A new map has no arrays at all: the first insertion allocates them. `free` gives them back and leaves a
map that can be used again.
-/

def newIn (keyAlign valueAlign : Nat) (hash : Option (Bytes ks → UInt64))
    (keyEq : Option (Bytes ks → Bytes ks → Bool)) : Map ks vs where
  arrays     := ⟨[], [], [], none, none, none⟩
  len        := 0
  tombstones := 0
  cap        := 0
  keyAlign   := keyAlign
  valueAlign := valueAlign
  hash       := hash.getD stdHashBytes
  keyEq      := keyEq.getD stdKeyEqBytes

def free (m : Map ks vs) (a : Alloc) : Map ks vs × Alloc :=
  if m.cap = 0 then (m, a)
  else
    ({ m with arrays := ⟨[], [], [], none, none, none⟩, len := 0, tombstones := 0, cap := 0 },
      freeArrays m a)

/-! ## Access

The public functions. `insert_move` is the general insertion: it moves the bytes of key and value in and
hands a displaced value out. `insert` is `insert_move` without out parameters, as in the source, and
`remove` leaves a tombstone behind so that no probe path is cut.
-/

/-- The loop of `insert_absent`: the first empty slot, and the first tombstone before it. -/
def insertLoop (ctrl : List Slot) (mask : Nat) :
    Nat → Nat → Option Nat → Option (Nat × Option Nat)
  | 0, _, _ => none
  | fuel + 1, j, firstTomb => do
    match (← ctrl[j]?) with
    | .empty     => return (j, firstTomb)
    | .tombstone => insertLoop ctrl mask fuel (nextSlot mask j) (firstTomb <|> some j)
    | .full      => insertLoop ctrl mask fuel (nextSlot mask j) firstTomb

def insertAbsent (m : Map ks vs) (key : Bytes ks) (value : Bytes vs) : Option (Map ks vs) := do
  let mask := m.cap - 1
  let (j, firstTomb) ← insertLoop m.arrays.ctrl mask m.cap (homeSlot m mask key) none
  let slot := firstTomb.getD j
  let ctrl ← store m.arrays.ctrl slot .full
  let keys ← store m.arrays.keys slot key
  let values ← store m.arrays.values slot value
  return { m with arrays := { m.arrays with ctrl, keys, values }, len := wadd m.len 1,
                  tombstones := if some slot = firstTomb then wsub m.tombstones 1
                    else m.tombstones }

/-- What `insert_move` returns: its result, and what its out parameters hold. -/
structure Inserted (vs : Nat) where
  ok       : Bool
  oldValue : Option (Bytes vs)
  replaced : Option Bool
  deriving DecidableEq

/-- `std_hashmap_insert_move`; `none` for an out parameter is the null pointer. -/
def insertMove (m : Map ks vs) (key : Bytes ks) (value : Bytes vs) (oldValue : Option (Bytes vs))
    (replaced : Option Bool) (a : Alloc) : Option (Inserted vs × Map ks vs × Alloc) := do
  match (← findIndex m key) with
  | some idx =>
    let old ← m.arrays.values[idx]?
    let values ← store m.arrays.values idx value
    return (⟨true, oldValue.map fun _ => old, replaced.map fun _ => true⟩,
      { m with arrays := { m.arrays with values } }, a)
  | none =>
    let (ok, m, a) ← ensureOne m a
    if ok then
      let m ← insertAbsent m key value
      return (⟨true, oldValue, replaced.map fun _ => false⟩, m, a)
    else
      return (⟨false, oldValue, replaced⟩, m, a)

def insert (m : Map ks vs) (key : Bytes ks) (value : Bytes vs) (a : Alloc) :
    Option (Bool × Map ks vs × Alloc) := do
  let (r, m, a) ← insertMove m key value none none a
  return (r.ok, m, a)

/-- `std_hashmap_get`: the slot whose value the returned pointer is to. -/
def get (m : Map ks vs) (key : Bytes ks) : Option (Option Nat) := do
  match (← findIndex m key) with
  | none     => return none
  | some idx => if vs = 0 then return none else return some idx

def contains (m : Map ks vs) (key : Bytes ks) : Option Bool := do
  return (← findIndex m key).isSome

def remove (m : Map ks vs) (key : Bytes ks) : Option (Bool × Map ks vs) := do
  match (← findIndex m key) with
  | none     => return (false, m)
  | some idx =>
    let ctrl ← store m.arrays.ctrl idx .tombstone
    return (true, { m with arrays := { m.arrays with ctrl }, len := wsub m.len 1,
                           tombstones := wadd m.tombstones 1 })

def clear (m : Map ks vs) : Map ks vs :=
  if m.cap = 0 then m
  else
    { m with arrays := { m.arrays with ctrl := List.replicate m.cap .empty }, len := 0,
             tombstones := 0 }

/-! ## Sequences of calls

A program on one map: `Op` are its calls, `Ret` what they return, and `step` is one call, together with
the record of what was returned so far.
-/

inductive Op (ks vs : Nat) where
  | insertMove (key : Bytes ks) (value : Bytes vs) (oldValue : Option (Bytes vs))
      (replaced : Option Bool)
  | insert (key : Bytes ks) (value : Bytes vs)
  | get (key : Bytes ks)
  | contains (key : Bytes ks)
  | remove (key : Bytes ks)
  | clear
  | len
  | free
  deriving DecidableEq

/-- What a call returns. The pointer of `get` is read at once. -/
inductive Ret (vs : Nat) where
  | inserted (r : Inserted vs)
  | bool (b : Bool)
  | value (v : Option (Bytes vs))
  | len (n : Nat)
  | unit
  deriving DecidableEq

def exec (m : Map ks vs) (a : Alloc) : Op ks vs → Option (Ret vs × Map ks vs × Alloc)
  | .insertMove key value oldValue replaced => do
    let (r, m, a) ← insertMove m key value oldValue replaced a
    return (.inserted r, m, a)
  | .insert key value => do
    let (ok, m, a) ← insert m key value a
    return (.bool ok, m, a)
  | .get key => do
    match (← get m key) with
    | none     => return (.value none, m, a)
    | some idx => return (.value (some (← m.arrays.values[idx]?)), m, a)
  | .contains key => do return (.bool (← contains m key), m, a)
  | .remove key => do
    let (b, m) ← remove m key
    return (.bool b, m, a)
  | .clear => some (.unit, clear m, a)
  | .len => some (.len m.len, m, a)
  | .free =>
    let (m, a) := free m a
    some (.unit, m, a)

structure State (ks vs : Nat) where
  map   : Map ks vs
  alloc : Alloc
  rets  : List (Ret vs)

def step (s : State ks vs) (op : Op ks vs) : Option (State ks vs) := do
  let (r, map, alloc) ← exec s.map s.alloc op
  return { map, alloc, rets := s.rets ++ [r] }

end CustLib.Hashmap
