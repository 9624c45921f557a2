import CustLib.Lib.Machine
import CustLib.Std.Growth

/-!
# `std::vec`: a growable array of elements of `es` bytes

The vec does not know its element type, only the size `es` of an element. The elements lie one behind
the other in one block, and `es` may be 0: then there is no block, and only the length counts.

A vec holds a list of elements (`Models`), and every call returns what it returns on that list
(`std_vec_refines_list`). An element is passed by value: what `elem` points to at the call is not in
the vec's own block.
-/

namespace CustLib.Vec

/-- `struct std_vec`, less its allocator, which every call is handed with its state. `bytes` is what the
    block at `data` holds; `elem_size` is `es`. -/
structure StdVec (es : Nat) where
  data      : Option Block
  bytes     : List UInt8
  len       : Nat
  cap       : Nat
  elemAlign : Nat
  deriving DecidableEq

variable {es : Nat}

/-! ## The functions of the source

`new_in`, `with_capacity_in`, `reserve`, `push`, `pop`, `get`, `get_const`, `clear` and `free`, in the
order of `vec.c`. Each takes the allocator with the state that it is in, and gives it back. `none` is a
write outside of the block, which no theorem below lets happen.
-/

def newIn (elemAlign : Nat) : StdVec es := ⟨none, [], 0, 0, elemAlign⟩

def reserve (v : StdVec es) (extra : Nat) (a : Alloc) : Option (Bool × StdVec es × Alloc) := do
  if extra = 0 then
    return (true, v, a)
  if wsub v.cap v.len ≥ extra then
    return (true, v, a)
  if extra > wsub (2 ^ 64 - 1) v.len then
    return (false, v, a)
  let newCap ← nextCap v.cap (wadd v.len extra)
  if es = 0 then
    return (true, { v with cap := newCap }, a)
  match checkedMul v.cap es, checkedMul newCap es with
  | some oldBytes, some newBytes =>
    match growBlock v.data v.bytes oldBytes newBytes v.elemAlign a with
    | (some (p, bytes), a) => return (true, { v with data := some p, bytes, cap := newCap }, a)
    | (none, a)            => return (false, v, a)
  | _, _ => return (false, v, a)

def withCapacityIn (elemAlign cap : Nat) (a : Alloc) : Option (Bool × StdVec es × Alloc) :=
  let v := newIn elemAlign
  if cap = 0 then some (true, v, a) else reserve v cap a

def free (v : StdVec es) (a : Alloc) : StdVec es × Alloc :=
  match v.data with
  | none   => (v, a)
  | some p =>
    let bytes := (checkedMul v.cap es).getD 0
    ({ v with data := none, bytes := [], len := 0, cap := 0 }, a.deallocate p bytes v.elemAlign)

/-- The copy of `push`, which units do not need. -/
def writeElem (v : StdVec es) (elem : Bytes es) : Option (List UInt8) :=
  if es ≠ 0 then copyIn v.bytes (wmul v.len es) elem.toList else some v.bytes

def push (v : StdVec es) (elem : Bytes es) (a : Alloc) : Option (Bool × StdVec es × Alloc) := do
  let (ok, v, a) ← reserve v 1 a
  if !ok then
    return (false, v, a)
  let bytes ← writeElem v elem
  return (true, { v with bytes, len := wadd v.len 1 }, a)

/-- `std_vec_pop`: its result, and what `out` points to; `none` is the null pointer. -/
def pop (v : StdVec es) (out : Option (Bytes es)) : Option (Bool × Option (Bytes es) × StdVec es) := do
  if v.len = 0 then
    return (false, out, v)
  let len := wsub v.len 1
  if out.isSome ∧ es ≠ 0 then
    return (true, some (← copyOut v.bytes (wmul len es) es), { v with len })
  return (true, out, { v with len })

/-- `std_vec_get`: where in the block the returned pointer is to. -/
def get (v : StdVec es) (i : Nat) : Option Nat :=
  if i ≥ v.len then none
  else if es = 0 then none
  else some (wmul i es)

def getConst (v : StdVec es) (i : Nat) : Option Nat :=
  if i ≥ v.len then none
  else if es = 0 then none
  else some (wmul i es)

def clear (v : StdVec es) : StdVec es := { v with len := 0 }

/-! ## Sequences of calls

A program makes a vec by one of the two constructors and then calls the functions in any order (`Op`).
`Ret` is what a call returns: for a pointer, what it points to at once.
-/

inductive Ctor where
  | newIn
  | withCapacityIn (cap : Nat)
  deriving DecidableEq, Repr

def construct (elemAlign : Nat) (a : Alloc) : Ctor → Option (Bool × StdVec es × Alloc)
  | .newIn              => some (true, newIn elemAlign, a)
  | .withCapacityIn cap => withCapacityIn elemAlign cap a

inductive Op (es : Nat) where
  | reserve (extra : Nat)
  | push (elem : Bytes es)
  | pop (out : Option (Bytes es))
  | get (i : Nat)
  | getConst (i : Nat)
  | clear
  deriving DecidableEq

inductive Ret (es : Nat) where
  | bool (b : Bool)
  | popped (ok : Bool) (out : Option (Bytes es))
  | elem (x : Option (Bytes es))
  | unit
  deriving DecidableEq

def deref (v : StdVec es) : Option Nat → Option (Option (Bytes es))
  | none     => some none
  | some off => do return some (← copyOut v.bytes off es)

def exec (v : StdVec es) (a : Alloc) : Op es → Option (Ret es × StdVec es × Alloc)
  | .reserve extra => do
    let (ok, v, a) ← reserve v extra a
    return (.bool ok, v, a)
  | .push elem => do
    let (ok, v, a) ← push v elem a
    return (.bool ok, v, a)
  | .pop out => do
    let (ok, out, v) ← pop v out
    return (.popped ok out, v, a)
  | .get i      => do return (.elem (← deref v (get v i)), v, a)
  | .getConst i => do return (.elem (← deref v (getConst v i)), v, a)
  | .clear      => some (.unit, clear v, a)

structure State (es : Nat) where
  vec   : StdVec es
  alloc : Alloc
  rets  : List (Ret es)

def step (s : State es) (op : Op es) : Option (State es) := do
  let (r, vec, alloc) ← exec s.vec s.alloc op
  return { vec, alloc, rets := s.rets ++ [r] }

/-! ## The list of elements

`Models s l` is the invariant: the vec holds the list `l`, one element behind the other, and its block
has the size that the capacity says. `reserve` has several exits, and `Reserved` has one constructor for
each; every other call needs only to know through which of them it went.
-/

/-- The bytes of a list of elements. -/
def flat (l : List (Bytes es)) : List UInt8 := l.flatMap Vector.toList

theorem length_flat (l : List (Bytes es)) : (flat l).length = l.length * es := by
  induction l with
  | nil => simp [flat]
  | cons x l ih =>
      rw [flat, List.flatMap_cons, List.length_append, ← flat, ih, Vector.length_toList,
        List.length_cons, Nat.succ_mul, Nat.add_comm]

theorem flat_append (l l' : List (Bytes es)) : flat (l ++ l') = flat l ++ flat l' :=
  List.flatMap_append

/-- **Invariant.** The vec holds the list `l`, and has the block it says it has. -/
structure Models (v : StdVec es) (l : List (Bytes es)) : Prop where
  len     : v.len = l.length
  room    : v.len ≤ v.cap
  cap     : v.cap < 2 ^ 64
  size    : v.bytes.length = v.cap * es
  fits    : v.cap * es < 2 ^ 64
  null    : v.data = none → v.bytes = []
  content : flat l <+: v.bytes

theorem models_newIn (elemAlign : Nat) : Models (newIn elemAlign : StdVec es) [] where
  len     := rfl
  room    := Nat.le_refl _
  cap     := Nat.two_pow_pos 64
  size    := by simp [newIn]
  fits    := by simp [newIn]
  null    := fun _ => rfl
  content := List.nil_prefix

section Calls

variable {v v' : StdVec es} {l : List (Bytes es)} {a a' : Alloc} {extra : Nat}

theorem Models.len_lt (h : Models v l) : v.len < 2 ^ 64 := Nat.lt_of_le_of_lt h.room h.cap

inductive Reserved (v : StdVec es) (extra : Nat) (a : Alloc) : Bool → StdVec es → Alloc → Prop
  | enough : v.len + extra ≤ v.cap → Reserved v extra a true v a
  | tooMany : 2 ^ 64 - 1 < v.len + extra → Reserved v extra a false v a
  | units {c} : es = 0 → nextCap v.cap (v.len + extra) = some c → Doubled (max 8 v.cap) (v.len + extra) c →
      Reserved v extra a true { v with cap := c } a
  | tooLarge {c} : nextCap v.cap (v.len + extra) = some c → 2 ^ 64 - 1 < c * es →
      Reserved v extra a false v a
  | refused {c a'} : nextCap v.cap (v.len + extra) = some c → c * es < 2 ^ 64 →
      growBlock v.data v.bytes (v.cap * es) (c * es) v.elemAlign a = (none, a') →
      Reserved v extra a false v a'
  | grown {c p bytes a'} : es ≠ 0 → nextCap v.cap (v.len + extra) = some c →
      Doubled (max 8 v.cap) (v.len + extra) c → c * es < 2 ^ 64 →
      growBlock v.data v.bytes (v.cap * es) (c * es) v.elemAlign a = (some (p, bytes), a') →
      Reserved v extra a true { v with data := some p, bytes, cap := c } a'

/-- **`reserve` returns**, with one of these outcomes. -/
theorem reserve_spec (h : Models v l) (extra : Nat) (a : Alloc) :
    ∃ ok v' a', reserve v extra a = some (ok, v', a') ∧ Reserved v extra a ok v' a' := by
  have hlen := h.len_lt
  have hroom := h.room
  have hfree : wsub v.cap v.len = v.cap - v.len := wsub_eq h.room h.cap
  have hmax : wsub (2 ^ 64 - 1) v.len = 2 ^ 64 - 1 - v.len := wsub_eq (by omega) (by omega)
  unfold reserve
  rw [hfree, hmax]
  by_cases hzero : extra = 0
  · exact ⟨true, v, a, by rw [if_pos hzero]; rfl, .enough (by omega)⟩
  by_cases henough : v.cap - v.len ≥ extra
  · exact ⟨true, v, a, by rw [if_neg hzero, if_pos henough]; rfl, .enough (by omega)⟩
  by_cases hmany : extra > 2 ^ 64 - 1 - v.len
  · exact ⟨false, v, a, by rw [if_neg hzero, if_neg henough, if_pos hmany]; rfl, .tooMany (by omega)⟩
  -- from here on nothing wraps, up to the size of the new block
  have hneed : wadd v.len extra = v.len + extra := wadd_eq (by omega)
  obtain ⟨c, hc, hd⟩ := nextCap_spec h.cap (show v.len + extra < 2 ^ 64 by omega)
  rw [if_neg hzero, if_neg henough, if_neg hmany, hneed, hc, Option.bind_eq_bind, Option.bind_some]
  by_cases hunits : es = 0
  · exact ⟨true, _, a, if_pos hunits, .units hunits hc hd⟩
  rw [if_neg hunits, checkedMul_eq v.cap, if_pos h.fits, checkedMul_eq c]
  by_cases hfits : c * es < 2 ^ 64
  · rw [if_pos hfits]
    dsimp only
    split
    next p bytes a' hgrow => exact ⟨true, _, a', rfl, .grown hunits hc hd hfits hgrow⟩
    next a' hgrow => exact ⟨false, v, a', rfl, .refused hc hfits hgrow⟩
  · rw [if_neg hfits]
    exact ⟨false, v, a, rfl, .tooLarge hc (by omega)⟩

/-- A reserve keeps the elements, and makes room if it succeeds. -/
theorem Reserved.models (h : Models v l) {ok : Bool} (hres : Reserved v extra a ok v' a') :
    Models v' l ∧ v'.len = v.len ∧ (ok = true → v.len + extra ≤ v'.cap) ∧ (ok = false → v' = v) := by
  cases hres with
  | enough henough => exact ⟨h, rfl, fun _ => henough, nofun⟩
  | tooMany => exact ⟨h, rfl, nofun, fun _ => rfl⟩
  | @units c hunits _ hd =>
      have hfits := hd.fits
      have hsize := h.size
      subst hunits
      refine ⟨⟨h.len, ?_, hd.lt, hsize, by simp, h.null, h.content⟩, rfl, fun _ => hfits, nofun⟩
      exact Nat.le_trans (Nat.le_add_right _ _) hfits
  | tooLarge => exact ⟨h, rfl, nofun, fun _ => rfl⟩
  | refused => exact ⟨h, rfl, nofun, fun _ => rfl⟩
  | @grown c p bytes a' _ _ hd hlt hgrow =>
      have hfits := hd.fits
      have hcap : v.cap ≤ c := Nat.le_trans (Nat.le_max_right 8 _) hd.grows
      obtain ⟨hlength, hprefix⟩ := growBlock_bytes hgrow h.size (Nat.mul_le_mul_right es hcap) h.null
      refine ⟨⟨h.len, ?_, hd.lt, hlength, hlt, nofun, h.content.trans hprefix⟩, rfl, fun _ => hfits,
        nofun⟩
      exact Nat.le_trans (Nat.le_add_right _ _) hfits

theorem writeElem_eq (v : StdVec es) (x : Bytes es) :
    writeElem v x = copyIn v.bytes (wmul v.len es) x.toList := by
  unfold writeElem
  split
  · rfl
  next hunits =>
    have hnil : x.toList = [] := List.eq_nil_of_length_eq_zero (by simpa using hunits)
    rw [hnil]
    rfl

/-- An element is written behind the ones the vec holds. -/
theorem Models.write (h : Models v l) (hroom : v.len < v.cap) (x : Bytes es) :
    ∃ bytes, writeElem v x = some bytes ∧
      Models { v with bytes, len := wadd v.len 1 } (l ++ [x]) := by
  have hsize := h.size
  have hfits := h.fits
  have hsucc : (v.len + 1) * es ≤ v.cap * es := Nat.mul_le_mul_right es hroom
  rw [Nat.succ_mul] at hsucc
  have hused : (flat l).length = v.len * es := by rw [length_flat, ← h.len]
  have hoff : wmul v.len es = (flat l).length := by
    rw [hused]
    exact wmul_eq (by omega)
  have hlen : wadd v.len 1 = (l ++ [x]).length := by
    rw [List.length_append, ← h.len]
    exact wadd_eq (by have := h.cap; omega)
  have hfit : (flat l).length + x.toList.length ≤ v.bytes.length := by
    rw [Vector.length_toList]
    omega
  obtain ⟨bytes, hcopy, hlength, hprefix⟩ := copyIn_prefix h.content hfit (by omega)
  rw [writeElem_eq, hoff]
  refine ⟨bytes, hcopy, hlen, ?_, h.cap, hlength.trans hsize, h.fits, ?_, ?_⟩
  · rw [hlen, List.length_append, ← h.len]
    exact hroom
  · intro hnull
    apply List.eq_nil_of_length_eq_zero
    show bytes.length = 0
    rw [hlength, h.null hnull]
    rfl
  · rw [flat_append]
    simpa [flat] using hprefix

/-- `push` after its call of `reserve` has succeeded. -/
theorem push_reserved {x : Bytes es} (hreserve : reserve v 1 a = some (true, v', a'))
    (hv' : Models v' l) (hroom : v'.len < v'.cap) :
    ∃ bytes, push v x a = some (true, { v' with bytes, len := wadd v'.len 1 }, a') ∧
      Models { v' with bytes, len := wadd v'.len 1 } (l ++ [x]) := by
  obtain ⟨bytes, hwrite, hbytes⟩ := hv'.write hroom x
  exact ⟨bytes, by simp [push, hreserve, hwrite], hbytes⟩

/-- **`push`** appends, or fails and leaves the vec as it was. -/
theorem push_spec (h : Models v l) (x : Bytes es) (a : Alloc) :
    ∃ ok v' v'' a', Reserved v 1 a ok v' a' ∧ push v x a = some (ok, v'', a') ∧
      (ok = true → Models v'' (l ++ [x]) ∧ v''.data = v'.data ∧ v''.cap = v'.cap ∧
        v''.elemAlign = v'.elemAlign) ∧ (ok = false → v'' = v) := by
  obtain ⟨ok, v', a', hreserve, hres⟩ := reserve_spec h 1 a
  obtain ⟨hv', hlen, hroom, hsame⟩ := hres.models h
  cases ok with
  | false => exact ⟨false, v', v', a', hres, by simp [push, hreserve], nofun, hsame⟩
  | true =>
      have hlt : v'.len < v'.cap := by
        have := hroom rfl
        omega
      obtain ⟨bytes, hpush, hbytes⟩ := push_reserved hreserve hv' hlt
      exact ⟨true, v', _, a', hres, hpush, fun _ => ⟨hbytes, rfl, rfl, rfl⟩, nofun⟩

/-- With room for them, a reserve does nothing. -/
theorem reserve_room (h : Models v l) (hroom : v.len + extra ≤ v.cap) (a : Alloc) :
    reserve v extra a = some (true, v, a) := by
  have hfree : wsub v.cap v.len = v.cap - v.len := wsub_eq h.room h.cap
  unfold reserve
  split
  · rfl
  · rw [hfree, if_pos (by omega)]
    rfl

/-- Element `i` lies at the stride `i * es`. -/
theorem Models.read (h : Models v l) {i : Nat} (hi : i < l.length) :
    copyOut v.bytes (wmul i es) es = some l[i] := by
  obtain ⟨rest, hrest⟩ := h.content
  have hsplit : flat l = flat (l.take i) ++ l[i].toList ++ flat (l.drop (i + 1)) := by
    have hl : l = l.take i ++ [l[i]] ++ l.drop (i + 1) := by simp
    conv_lhs => rw [hl, flat_append, flat_append]
    simp [flat]
  have hoff : wmul i es = (flat (l.take i)).length := by
    have hle : i * es ≤ v.cap * es := Nat.mul_le_mul_right es (by have := h.len; have := h.room; omega)
    have hfits := h.fits
    rw [length_flat, List.length_take_of_le (Nat.le_of_lt hi), wmul_eq (by omega)]
  rw [hoff, ← hrest, hsplit, List.append_assoc _ (flat _) rest]
  exact copyOut_append _ _ _

/-- **`pop`** returns the last element, or fails on the empty vec. -/
theorem pop_spec (h : Models v l) (out : Option (Bytes es)) :
    (l = [] ∧ pop v out = some (false, out, v)) ∨
    ∃ l' x, l = l' ++ [x] ∧ pop v out = some (true, out.map fun _ => x, { v with len := l'.length }) ∧
      Models { v with len := l'.length } l' := by
  rcases List.eq_nil_or_concat l with rfl | ⟨l', x, hl⟩
  · exact .inl ⟨rfl, if_pos h.len⟩
  · rw [List.concat_eq_append] at hl
    subst hl
    have hlen : v.len = l'.length + 1 := by simpa using h.len
    have hdec : wsub v.len 1 = l'.length := by
      rw [wsub_eq (by omega) h.len_lt, hlen, Nat.add_sub_cancel]
    have hroom : l'.length ≤ v.cap := by
      have := h.room
      omega
    have hprefix : flat l' <+: v.bytes :=
      (flat_append l' [x] ▸ List.prefix_append _ _).trans h.content
    have hread := h.read (show l'.length < (l' ++ [x]).length by simp)
    rw [List.getElem_concat_length rfl] at hread
    refine .inr ⟨l', x, rfl, ?_, rfl, hroom, h.cap, h.size, h.fits, h.null, hprefix⟩
    unfold pop
    rw [if_neg (by omega), hdec]
    cases out with
    | none => rfl
    | some y =>
        by_cases hunits : es = 0
        · -- an element of no bytes is not copied
          subst hunits
          rw [if_neg (by simp)]
          exact congrArg some (Prod.ext rfl (Prod.ext (congrArg some (Vector.ext nofun)) rfl))
        · rw [if_pos ⟨rfl, hunits⟩, hread]
          rfl

/-- **`get`** points to the element at an index. -/
theorem get_spec (h : Models v l) (i : Nat) :
    deref v (get v i) = some (if es = 0 then none else l[i]?) := by
  unfold get
  by_cases hi : i ≥ v.len
  · rw [if_pos hi, List.getElem?_eq_none (h.len ▸ hi), ite_self]
    rfl
  · rw [if_neg hi]
    split
    · rfl
    · have hlt : i < l.length := by
        rw [← h.len]
        omega
      rw [deref, List.getElem?_eq_getElem hlt, h.read hlt]
      rfl

theorem models_clear (h : Models v l) : Models (clear v) [] :=
  { h with len := rfl, room := Nat.zero_le _, content := List.nil_prefix }

end Calls

/-! ## The specification

A list, and what each call may return on it. The one freedom is that a call that needs memory may fail;
`Excused` says when it may. Room that was reserved is used up by as many pushes as it was reserved for,
and these pushes neither fail nor ask the allocator (`run_room`).
-/

inductive Spec : List (Bytes es) → Op es → Ret es → List (Bytes es) → Prop
  | reserve {l n b} : Spec l (.reserve n) (.bool b) l
  | push {l x} : Spec l (.push x) (.bool true) (l ++ [x])
  | push_fails {l x} : Spec l (.push x) (.bool false) l
  | pop {l x out} : Spec (l ++ [x]) (.pop out) (.popped true (out.map fun _ => x)) l
  | pop_empty {out} : Spec [] (.pop out) (.popped false out) []
  | get {l i} : Spec l (.get i) (.elem (if es = 0 then none else l[i]?)) l
  | getConst {l i} : Spec l (.getConst i) (.elem (if es = 0 then none else l[i]?)) l
  | clear {l} : Spec l .clear .unit []

def Ret.failed : Ret es → Bool
  | .bool b      => !b
  | .popped ok _ => !ok
  | _            => false

/-- What makes `reserve` fail: a refusal, or a size that is not a `usize`. -/
def Excused (v : StdVec es) (l : List (Bytes es)) (extra : Nat) (a a' : Alloc) : Prop :=
  (∃ call, a'.log = a.log ++ [call] ∧ call.isRefusal) ∨ 2 ^ 64 - 1 < l.length + extra ∨
  ∃ c, nextCap v.cap (l.length + extra) = some c ∧ 2 ^ 64 - 1 < c * es

structure Simulates (v : StdVec es) (a : Alloc) (l : List (Bytes es)) (op : Op es) (r : Ret es)
    (v' : StdVec es) (a' : Alloc) : Prop where
  spec    : ∃ l', Spec l op r l' ∧ Models v' l'
  /-- A call that returns false changes no field and no byte. -/
  failed  : r.failed = true → v' = v
  excused : ∀ extra, op = .reserve extra → r = .bool false → Excused v l extra a a'

section Runs

variable {v v' : StdVec es} {l : List (Bytes es)} {a a' : Alloc}

/-- A `reserve` that fails has an excuse. -/
theorem Reserved.excused (h : Models v l) {extra : Nat} (hres : Reserved v extra a false v' a') :
    Excused v l extra a a' := by
  unfold Excused
  rw [← h.len]
  cases hres with
  | tooMany hmany => exact .inr (.inl hmany)
  | tooLarge hc hlarge => exact .inr (.inr ⟨_, hc, hlarge⟩)
  | @refused c a' _ _ hgrow =>
      have hlog := growBlock_log v.data v.bytes (v.cap * es) (c * es) v.elemAlign a
      rw [hgrow] at hlog
      refine .inl ⟨_, hlog, ?_⟩
      cases v.data <;> rfl

/-- **Step lemma.** Every call simulates the list. -/
theorem exec_simulates (h : Models v l) (a : Alloc) (op : Op es) :
    ∃ r v' a', exec v a op = some (r, v', a') ∧ Simulates v a l op r v' a' := by
  cases op with
  | reserve extra =>
      obtain ⟨ok, v', a', hreserve, hres⟩ := reserve_spec h extra a
      obtain ⟨hv', -, -, hsame⟩ := hres.models h
      refine ⟨.bool ok, v', a', by simp [exec, hreserve], ⟨l, .reserve, hv'⟩, ?_, ?_⟩
      · intro hfailed
        exact hsame (by simpa [Ret.failed] using hfailed)
      · intro n hn hfalse
        cases hn
        cases hfalse
        exact hres.excused h
  | push x =>
      obtain ⟨ok, v', v'', a', hres, hpush, hdone, hsame⟩ := push_spec h x a
      refine ⟨.bool ok, v'', a', by simp [exec, hpush], ?_, ?_, nofun⟩
      · cases ok with
        | true => exact ⟨l ++ [x], .push, (hdone rfl).1⟩
        | false => exact ⟨l, .push_fails, hsame rfl ▸ h⟩
      · intro hfailed
        exact hsame (by simpa [Ret.failed] using hfailed)
  | pop out =>
      rcases pop_spec h out with ⟨rfl, hpop⟩ | ⟨l', x, rfl, hpop, hv'⟩
      · exact ⟨_, v, a, by simp [exec, hpop], ⟨[], .pop_empty, h⟩, fun _ => rfl, nofun⟩
      · exact ⟨_, _, a, by simp [exec, hpop], ⟨l', .pop, hv'⟩, nofun, nofun⟩
  | get i => exact ⟨_, v, a, by simp [exec, get_spec h], ⟨l, .get, h⟩, nofun, nofun⟩
  | getConst i =>
      have hget : deref v (getConst v i) = _ := get_spec h i
      exact ⟨_, v, a, by simp [exec, hget], ⟨l, .getConst, h⟩, nofun, nofun⟩
  | clear => exact ⟨.unit, clear v, a, rfl, ⟨[], .clear, models_clear h⟩, nofun, nofun⟩

def pushes (ops : List (Op es)) : Nat :=
  ops.countP fun op => match op with
    | .push _ => true
    | _       => false

/-- A call for which there is room leaves the block where it is, and does not call the allocator. -/
theorem exec_room (h : Models v l) {op : Op es} (hroom : v.len + pushes [op] ≤ v.cap)
    (hno : ∀ n, op ≠ .reserve n) (a : Alloc) :
    ∃ r v' l', exec v a op = some (r, v', a) ∧ Models v' l' ∧ v'.data = v.data ∧ v'.cap = v.cap ∧
      v'.len ≤ v.len + pushes [op] ∧ ∀ x, op = .push x → r = .bool true := by
  cases op with
  | reserve n => exact absurd rfl (hno n)
  | push x =>
      have hlt : v.len + 1 ≤ v.cap := hroom
      obtain ⟨bytes, hpush, hbytes⟩ := push_reserved (x := x) (reserve_room h hlt a) h hlt
      have hlen : wadd v.len 1 = v.len + 1 := wadd_eq (by have := h.cap; omega)
      refine ⟨.bool true, _, _, by simp [exec, hpush], hbytes, rfl, rfl, ?_, fun _ _ => rfl⟩
      exact Nat.le_of_eq hlen
  | pop out =>
      rcases pop_spec h out with ⟨rfl, hpop⟩ | ⟨l', x, rfl, hpop, hv'⟩
      · exact ⟨.popped false out, v, [], by simp [exec, hpop], h, rfl, rfl, Nat.le_add_right _ _, nofun⟩
      · refine ⟨.popped true _, _, l', by simp [exec, hpop]; rfl, hv', rfl, rfl, ?_, nofun⟩
        have hlen := h.len
        rw [List.length_append] at hlen
        show l'.length ≤ _
        omega
  | get i =>
      exact ⟨.elem _, v, l, by simp [exec, get_spec h]; rfl, h, rfl, rfl, Nat.le_add_right _ _, nofun⟩
  | getConst i =>
      have hget : deref v (getConst v i) = _ := get_spec h i
      exact ⟨.elem _, v, l, by simp [exec, hget]; rfl, h, rfl, rfl, Nat.le_add_right _ _, nofun⟩
  | clear => exact ⟨.unit, clear v, [], rfl, models_clear h, rfl, rfl, Nat.zero_le _, nofun⟩

/-- **Room lemma.** Pushes for which there is room succeed and leave the block where it is, without a
    call of the allocator, whatever other calls but `reserve` come between. -/
theorem run_room (h : Models v l) {ops : List (Op es)} (hroom : v.len + pushes ops ≤ v.cap)
    (hno : ∀ n, .reserve n ∉ ops) (a : Alloc) (rets : List (Ret es)) :
    ∃ t rs, Machine.run step ⟨v, a, rets⟩ ops = some ⟨t, a, rets ++ rs⟩ ∧ t.data = v.data ∧
      List.Forall₂ (fun op r => ∀ x, op = .push x → r = .bool true) ops rs := by
  induction ops generalizing v l rets with
  | nil => exact ⟨v, [], by simp, rfl, .nil⟩
  | cons op ops ih =>
      have hsplit : pushes (op :: ops) = pushes [op] + pushes ops := by
        rw [pushes, ← List.singleton_append, List.countP_append]
        rfl
      obtain ⟨r, v', l', hexec, hv', hdata, hcap, hlen, hpush⟩ := exec_room h (by omega)
        (fun n hn => hno n (hn ▸ List.mem_cons_self)) a
      obtain ⟨t, rs, hrun, ht, hrs⟩ := ih hv' (by omega)
        (fun n hn => hno n (List.mem_cons_of_mem _ hn)) (rets ++ [r])
      refine ⟨t, r :: rs, ?_, ht.trans hdata, .cons hpush hrs⟩
      simpa [step, hexec] using hrun

end Runs

theorem step_refines (s : State es) (l : List (Bytes es)) (op : Op es) (h : Models s.vec l) :
    ∃ s' r l', step s op = some s' ∧ s'.rets = s.rets ++ [r] ∧ Spec l op r l' ∧ Models s'.vec l' := by
  obtain ⟨r, v', a', hexec, hsim⟩ := exec_simulates h s.alloc op
  obtain ⟨l', hspec, hv'⟩ := hsim.spec
  exact ⟨⟨v', a', s.rets ++ [r]⟩, r, l', by simp [step, hexec], rfl, hspec, hv'⟩

/-- There is room for `extra` pushes: they succeed, and no call of the allocator and no move of the
    block comes with them, whatever other calls but `reserve` come between. -/
def HasRoom (v : StdVec es) (a : Alloc) (extra : Nat) : Prop :=
  ∀ next : List (Op es), (∀ n, .reserve n ∉ next) → pushes next ≤ extra →
    ∃ t rs, Machine.run step ⟨v, a, []⟩ next = some ⟨t, a, rs⟩ ∧ t.data = v.data ∧
      List.Forall₂ (fun op r => ∀ x, op = .push x → r = .bool true) next rs

/-- A reserve that succeeds makes room. -/
theorem Reserved.hasRoom {v v' : StdVec es} {l : List (Bytes es)} {a a' : Alloc} {extra : Nat}
    (h : Models v l) (hres : Reserved v extra a true v' a') : HasRoom v' a' extra := by
  obtain ⟨hv', hlen, hroom, -⟩ := hres.models h
  have hroom := hroom rfl
  intro next hno hpushes
  exact run_room hv' (by omega) hno a' []

/-- A constructor makes an empty vec, and one with a capacity has room for as many pushes. -/
theorem construct_spec (es elemAlign : Nat) (ctor : Ctor) (a : Alloc) :
    ∃ ok v a', construct elemAlign a ctor = some (ok, (v : StdVec es), a') ∧ Models v [] ∧
      (ok = false → v = newIn elemAlign) ∧
      ∀ cap, ctor = .withCapacityIn cap → ok = true → HasRoom v a' cap := by
  have hnew : Models (newIn elemAlign : StdVec es) [] := models_newIn elemAlign
  cases ctor with
  | newIn => exact ⟨true, _, a, rfl, hnew, nofun, nofun⟩
  | withCapacityIn cap =>
      unfold construct withCapacityIn
      by_cases hzero : cap = 0
      · refine ⟨true, _, a, if_pos hzero, hnew, nofun, fun n hn _ => ?_⟩
        cases hn
        subst hzero
        exact Reserved.hasRoom hnew (.enough hnew.room)
      · obtain ⟨ok, v, a', hreserve, hres⟩ := reserve_spec hnew cap a
        obtain ⟨hv, -, -, hsame⟩ := hres.models hnew
        refine ⟨ok, v, a', (if_neg hzero).trans hreserve, hv, hsame, fun n hn hok => ?_⟩
        cases hn
        cases hok
        exact hres.hasRoom hnew

end CustLib.Vec
