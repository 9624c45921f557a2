import Mathlib.Data.List.TakeWhile
import CustLib.Lib.Machine
import CustLib.Std.Growth

/-!
# `std::string`: views, and a growable string of bytes

A view shows some bytes; an owned string keeps its own in one block, of which it uses the first `len`.
`as_cstr` writes a NUL behind them, into a byte that does not count and that the next push overwrites.

A string holds a list of bytes (`Models`), NUL bytes among them, and every call returns what it returns
on that list (`cstd_string_refines_bytes`). What a pushed view shows is not in the string's own block.
-/

namespace CustLib.Str

/-! ## Views

A `struct cstd_str` is a pointer and a length; here it is the bytes that it shows. A view of a C string
ends in front of the first NUL (`fromCstr_eq`), so it never shows one, whatever the memory behind it.
-/

/-- What a `const char *` that is not null points to: memory with a NUL in it. -/
structure CString where
  mem  : List UInt8
  nul  : 0 ∈ mem
  size : mem.length ≤ 2 ^ 64
  deriving DecidableEq

/-- The loop of `cstd_str_from_cstr`. Without a NUL it leaves the memory. -/
def nulLoop : List UInt8 → Nat → Option Nat
  | [], _      => none
  | b :: bs, n => if b ≠ 0 then nulLoop bs (wadd n 1) else some n

/-- `cstd_str_from_cstr`, of what is at the pointer: the bytes that the view shows. -/
def fromCstr : Option (List UInt8) → Option (List UInt8)
  | none     => some []
  | some mem => do return mem.take (← nulLoop mem 0)

/-- `cstd_str_eq`: the same length, and the same bytes. -/
def strEq (a b : List UInt8) : Bool :=
  if a.length ≠ b.length then false else (a.zip b).all fun (x, y) => x == y

/-- The bytes before the first NUL. -/
def beforeNul (l : List UInt8) : List UInt8 := l.takeWhile (· ≠ 0)

@[simp] theorem beforeNul_zero (l : List UInt8) : beforeNul (0 :: l) = [] := rfl

theorem beforeNul_cons {b : UInt8} (hb : b ≠ 0) (l : List UInt8) :
    beforeNul (b :: l) = b :: beforeNul l :=
  List.takeWhile_cons_of_pos (by simpa using hb)

theorem nulLoop_eq {mem : List UInt8} (hnul : 0 ∈ mem) {n : Nat} (hsize : n + mem.length ≤ 2 ^ 64) :
    nulLoop mem n = some (n + (beforeNul mem).length) := by
  induction mem generalizing n with
  | nil => exact nomatch hnul
  | cons b bs ih =>
      rw [List.length_cons] at hsize
      unfold nulLoop
      by_cases hb : b = 0
      · subst hb
        rfl
      · have hrest : 0 ∈ bs := (List.mem_cons.mp hnul).resolve_left (Ne.symm hb)
        have hpos : 0 < bs.length := List.length_pos_of_mem hrest
        rw [if_pos hb, wadd_eq (by omega), ih hrest (by omega), beforeNul_cons hb, List.length_cons]
        congr 1
        omega

/-- **A view of a C string** shows the bytes before its NUL. -/
theorem fromCstr_eq {mem : List UInt8} (hnul : 0 ∈ mem) (hsize : mem.length ≤ 2 ^ 64) :
    fromCstr (some mem) = some (beforeNul mem) := by
  have hprefix : beforeNul mem <+: mem := List.takeWhile_prefix _
  rw [fromCstr, nulLoop_eq hnul (by omega), Nat.zero_add]
  exact congrArg some (List.prefix_iff_eq_take.mp hprefix).symm

theorem strEq_iff {a b : List UInt8} : strEq a b = true ↔ a = b := by
  unfold strEq
  induction a generalizing b with
  | nil => cases b <;> simp
  | cons x a ih =>
      cases b with
      | nil => simp
      | cons y b =>
          have hih := @ih b
          simp only [List.length_cons, ne_eq, Nat.add_right_cancel_iff, List.zip_cons_cons,
            List.all_cons, List.cons.injEq] at hih ⊢
          split at hih <;> grind

theorem beforeNul_append (l rest : List UInt8) : beforeNul (l ++ 0 :: rest) = beforeNul l := by
  induction l with
  | nil => rfl
  | cons b l ih =>
      by_cases hb : b = 0
      · subst hb
        rfl
      · rw [List.cons_append, beforeNul_cons hb, beforeNul_cons hb, ih]

theorem beforeNul_eq_self {l : List UInt8} (h : 0 ∉ l) : beforeNul l = l := by
  induction l with
  | nil => rfl
  | cons b l ih =>
      obtain ⟨hb, hl⟩ := not_or.mp fun hmem => h (List.mem_cons.mpr hmem)
      rw [beforeNul_cons (Ne.symm hb), ih hl]

/-! ## The owned string

The functions in the order of `string.c`. They are those of a vec of bytes, except that `reserve`
computes `len + extra` with an overflow check of its own, and that `as_cstr` asks for one byte more than
the string has.
-/

/-- `struct cstd_string`, less its allocator. `bytes` is what the block at `data` holds. -/
structure StdString where
  data  : Option Block
  bytes : List UInt8
  len   : Nat
  cap   : Nat
  deriving DecidableEq

def newIn : StdString := ⟨none, [], 0, 0⟩

def reserve (s : StdString) (extra : Nat) (a : Alloc) : Option (Bool × StdString × Alloc) := do
  if extra = 0 then
    return (true, s, a)
  if wsub s.cap s.len ≥ extra then
    return (true, s, a)
  if extra > wsub (2 ^ 64 - 1) s.len then
    return (false, s, a)
  let newCap ← nextCap s.cap (wadd s.len extra)
  match growBlock s.data s.bytes s.cap newCap 1 a with
  | (some (p, bytes), a) => return (true, { s with data := some p, bytes, cap := newCap }, a)
  | (none, a)            => return (false, s, a)

def withCapacityIn (cap : Nat) (a : Alloc) : Option (Bool × StdString × Alloc) :=
  if cap = 0 then some (true, newIn, a) else reserve newIn cap a

def free (s : StdString) (a : Alloc) : StdString × Alloc :=
  match s.data with
  | none   => (s, a)
  | some p => (⟨none, [], 0, 0⟩, a.deallocate p s.cap 1)

/-- `cstd_string_as_str`: the bytes that the view shows. -/
def asStr (s : StdString) : List UInt8 := s.bytes.take s.len

def pushByte (s : StdString) (b : UInt8) (a : Alloc) : Option (Bool × StdString × Alloc) := do
  let (ok, s, a) ← reserve s 1 a
  if !ok then
    return (false, s, a)
  let bytes ← store s.bytes s.len b
  return (true, { s with bytes, len := wadd s.len 1 }, a)

/-- `cstd_string_push_str`, of the bytes that the view shows. -/
def pushStr (s : StdString) (x : List UInt8) (a : Alloc) : Option (Bool × StdString × Alloc) := do
  if x.length = 0 then
    return (true, s, a)
  let (ok, s, a) ← reserve s x.length a
  if !ok then
    return (false, s, a)
  let bytes ← copyIn s.bytes s.len x
  return (true, { s with bytes, len := wadd s.len x.length }, a)

/-- `cstd_string_push_cstr`; `none` is the null pointer. -/
def pushCstr (s : StdString) (cs : Option CString) (a : Alloc) :
    Option (Bool × StdString × Alloc) := do
  pushStr s (← fromCstr (cs.map CString.mem)) a

/-- `cstd_string_as_cstr`: the block at the returned pointer. -/
def asCstr (s : StdString) (a : Alloc) : Option (Option Block × StdString × Alloc) := do
  let (ok, s, a) ← reserve s 1 a
  if !ok then
    return (none, s, a)
  let bytes ← store s.bytes s.len 0
  return (s.data, { s with bytes }, a)

def clear (s : StdString) : StdString := { s with len := 0 }

/-! ## Sequences of calls

The calls of a program on one string. A view that is pushed is given by its bytes; that it may not point
into the string itself is a rule of the caller.
-/

inductive Ctor where
  | newIn
  | withCapacityIn (cap : Nat)
  deriving DecidableEq, Repr

def construct (a : Alloc) : Ctor → Option (Bool × StdString × Alloc)
  | .newIn              => some (true, newIn, a)
  | .withCapacityIn cap => withCapacityIn cap a

inductive Op where
  | reserve (extra : Nat)
  | pushByte (b : UInt8)
  | pushStr (x : List UInt8)
  | pushCstr (cs : Option CString)
  | asCstr
  | clear
  deriving DecidableEq

/-- What a call returns; of `as_cstr`, what is at the returned pointer. -/
inductive Ret where
  | bool (b : Bool)
  | cstr (mem : Option (List UInt8))
  | unit
  deriving DecidableEq

def exec (s : StdString) (a : Alloc) : Op → Option (Ret × StdString × Alloc)
  | .reserve extra => do
    let (ok, s, a) ← reserve s extra a
    return (.bool ok, s, a)
  | .pushByte b => do
    let (ok, s, a) ← pushByte s b a
    return (.bool ok, s, a)
  | .pushStr x => do
    let (ok, s, a) ← pushStr s x a
    return (.bool ok, s, a)
  | .pushCstr cs => do
    let (ok, s, a) ← pushCstr s cs a
    return (.bool ok, s, a)
  | .asCstr => do
    let (p, s, a) ← asCstr s a
    return (.cstr (p.map fun _ => s.bytes), s, a)
  | .clear => some (.unit, clear s, a)

structure State where
  str   : StdString
  alloc : Alloc
  rets  : List Ret

def step (s : State) (op : Op) : Option State := do
  let (r, str, alloc) ← exec s.str s.alloc op
  return { str, alloc, rets := s.rets ++ [r] }

/-! ## The bytes it holds

`Models s l` is the invariant: the string holds the bytes `l` and has the block it says it has. As with
the vec, `Reserved` has a constructor for each exit of `reserve`, and the spec lemmas of the pushes and
of `as_cstr` go through it.
-/

/-- **Invariant.** The string holds the bytes `l`, and has the block it says it has. -/
structure Models (s : StdString) (l : List UInt8) : Prop where
  len     : s.len = l.length
  room    : s.len ≤ s.cap
  cap     : s.cap < 2 ^ 64
  size    : s.bytes.length = s.cap
  null    : s.data = none → s.bytes = []
  content : l <+: s.bytes

theorem models_newIn : Models newIn [] where
  len     := rfl
  room    := Nat.le_refl _
  cap     := Nat.two_pow_pos 64
  size    := rfl
  null    := fun _ => rfl
  content := List.nil_prefix

section Calls

variable {s s' : StdString} {l : List UInt8} {a a' : Alloc} {extra : Nat}

theorem Models.len_lt (h : Models s l) : s.len < 2 ^ 64 := Nat.lt_of_le_of_lt h.room h.cap

inductive Reserved (s : StdString) (extra : Nat) (a : Alloc) : Bool → StdString → Alloc → Prop
  | enough : s.len + extra ≤ s.cap → Reserved s extra a true s a
  | tooMany : 2 ^ 64 - 1 < s.len + extra → Reserved s extra a false s a
  | refused {c a'} : nextCap s.cap (s.len + extra) = some c →
      growBlock s.data s.bytes s.cap c 1 a = (none, a') → Reserved s extra a false s a'
  | grown {c p bytes a'} : nextCap s.cap (s.len + extra) = some c →
      Doubled (max 8 s.cap) (s.len + extra) c →
      growBlock s.data s.bytes s.cap c 1 a = (some (p, bytes), a') →
      Reserved s extra a true { s with data := some p, bytes, cap := c } a'

/-- **`reserve` returns**, with one of these outcomes. -/
theorem reserve_spec (h : Models s l) (extra : Nat) (a : Alloc) :
    ∃ ok s' a', reserve s extra a = some (ok, s', a') ∧ Reserved s extra a ok s' a' := by
  have hlen := h.len_lt
  have hroom := h.room
  have hfree : wsub s.cap s.len = s.cap - s.len := wsub_eq h.room h.cap
  have hmax : wsub (2 ^ 64 - 1) s.len = 2 ^ 64 - 1 - s.len := wsub_eq (by omega) (by omega)
  unfold reserve
  rw [hfree, hmax]
  by_cases hzero : extra = 0
  · exact ⟨true, s, a, by rw [if_pos hzero]; rfl, .enough (by omega)⟩
  by_cases henough : s.cap - s.len ≥ extra
  · exact ⟨true, s, a, by rw [if_neg hzero, if_pos henough]; rfl, .enough (by omega)⟩
  by_cases hmany : extra > 2 ^ 64 - 1 - s.len
  · exact ⟨false, s, a, by rw [if_neg hzero, if_neg henough, if_pos hmany]; rfl, .tooMany (by omega)⟩
  have hneed : wadd s.len extra = s.len + extra := wadd_eq (by omega)
  obtain ⟨c, hc, hd⟩ := nextCap_spec h.cap (show s.len + extra < 2 ^ 64 by omega)
  rw [if_neg hzero, if_neg henough, if_neg hmany, hneed, hc, Option.bind_eq_bind, Option.bind_some]
  split
  next p bytes a' hgrow => exact ⟨true, _, a', rfl, .grown hc hd hgrow⟩
  next a' hgrow => exact ⟨false, s, a', rfl, .refused hc hgrow⟩

/-- A reserve keeps the bytes, and makes room if it succeeds. -/
theorem Reserved.models (h : Models s l) {ok : Bool} (hres : Reserved s extra a ok s' a') :
    Models s' l ∧ s'.len = s.len ∧ (ok = true → s.len + extra ≤ s'.cap) ∧ (ok = false → s' = s) := by
  cases hres with
  | enough henough => exact ⟨h, rfl, fun _ => henough, nofun⟩
  | tooMany => exact ⟨h, rfl, nofun, fun _ => rfl⟩
  | refused => exact ⟨h, rfl, nofun, fun _ => rfl⟩
  | @grown c p bytes a' _ hd hgrow =>
      have hfits := hd.fits
      have hcap : s.cap ≤ c := Nat.le_trans (Nat.le_max_right 8 _) hd.grows
      obtain ⟨hlength, hprefix⟩ := growBlock_bytes hgrow h.size hcap h.null
      refine ⟨⟨h.len, ?_, hd.lt, hlength, nofun, h.content.trans hprefix⟩, rfl, fun _ => hfits, nofun⟩
      exact Nat.le_trans (Nat.le_add_right _ _) hfits

/-- With room for them, a reserve does nothing. -/
theorem reserve_room (h : Models s l) (hroom : s.len + extra ≤ s.cap) (a : Alloc) :
    reserve s extra a = some (true, s, a) := by
  have hfree : wsub s.cap s.len = s.cap - s.len := wsub_eq h.room h.cap
  unfold reserve
  split
  · rfl
  · rw [hfree, if_pos (by omega)]
    rfl

/-- Bytes are written behind the ones the string holds; they count if the length says so. -/
theorem Models.write (h : Models s l) {x : List UInt8} (hroom : s.len + x.length ≤ s.cap) :
    ∃ bytes, copyIn s.bytes s.len x = some bytes ∧ l ++ x <+: bytes ∧ Models { s with bytes } l ∧
      Models { s with bytes, len := wadd s.len x.length } (l ++ x) := by
  have hcap := h.cap
  have hsize := h.size
  have hlen : wadd s.len x.length = (l ++ x).length := by
    rw [wadd_eq (by omega), List.length_append, h.len]
  have hfit : l.length + x.length ≤ s.bytes.length := by
    rw [← h.len, hsize]
    exact hroom
  obtain ⟨bytes, hcopy, hlength, hprefix⟩ := copyIn_prefix h.content hfit (by omega)
  have hnull : s.data = none → bytes = [] := by
    intro hnull
    apply List.eq_nil_of_length_eq_zero
    rw [hlength, h.null hnull]
    rfl
  refine ⟨bytes, h.len ▸ hcopy, hprefix, ?_, ?_⟩
  · exact { h with size := hlength.trans hsize, null := hnull,
                   content := (List.prefix_append l x).trans hprefix }
  · refine ⟨hlen, ?_, hcap, hlength.trans hsize, hnull, hprefix⟩
    rw [hlen, List.length_append, ← h.len]
    exact hroom

/-- `push_str` after its call of `reserve` has succeeded. -/
theorem pushStr_reserved {x : List UInt8} (hx : x ≠ [])
    (hreserve : reserve s x.length a = some (true, s', a')) (hs' : Models s' l)
    (hroom : s'.len + x.length ≤ s'.cap) :
    ∃ bytes, pushStr s x a = some (true, { s' with bytes, len := wadd s'.len x.length }, a') ∧
      Models { s' with bytes, len := wadd s'.len x.length } (l ++ x) := by
  obtain ⟨bytes, hcopy, -, -, hbytes⟩ := hs'.write hroom
  exact ⟨bytes, by simp [pushStr, hx, hreserve, hcopy], hbytes⟩

/-- A byte is pushed as a string of one byte is. -/
theorem pushByte_eq (s : StdString) (b : UInt8) (a : Alloc) : pushByte s b a = pushStr s [b] a := by
  simp [pushByte, pushStr, copyIn_singleton]

theorem pushCstr_eq (s : StdString) (cs : Option CString) (a : Alloc) :
    pushCstr s cs a = pushStr s (cs.elim [] fun c => beforeNul c.mem) a := by
  cases cs with
  | none => rfl
  | some c => simp [pushCstr, fromCstr_eq c.nul c.size]

/-- **`push_str`** appends, or fails and leaves the string as it was. -/
theorem pushStr_spec (h : Models s l) (x : List UInt8) (a : Alloc) :
    ∃ ok s' s'' a', Reserved s x.length a ok s' a' ∧ pushStr s x a = some (ok, s'', a') ∧
      (ok = true → Models s'' (l ++ x) ∧ s''.data = s'.data ∧ s''.cap = s'.cap) ∧
      (ok = false → s'' = s) := by
  by_cases hx : x = []
  · subst hx
    have hres : Reserved s 0 a true s a := .enough h.room
    exact ⟨true, s, s, a, hres, rfl, fun _ => ⟨by simpa using h, rfl, rfl⟩, nofun⟩
  obtain ⟨ok, s', a', hreserve, hres⟩ := reserve_spec h x.length a
  obtain ⟨hs', hlen, hroom, hsame⟩ := hres.models h
  cases ok with
  | false => exact ⟨false, s', s', a', hres, by simp [pushStr, hx, hreserve], nofun, hsame⟩
  | true =>
      obtain ⟨bytes, hpush, hbytes⟩ := pushStr_reserved hx hreserve hs' (hlen ▸ hroom rfl)
      exact ⟨true, s', _, a', hres, hpush, fun _ => ⟨hbytes, rfl, rfl⟩, nofun⟩

/-- **`as_cstr`** leaves the bytes alone and returns a block that holds them and a NUL, or fails and
    leaves the string as it was. -/
theorem asCstr_spec (h : Models s l) (a : Alloc) :
    ∃ ok s' s'' a', Reserved s 1 a ok s' a' ∧
      asCstr s a = some (if ok then s''.data else none, s'', a') ∧
      (ok = true → Models s'' l ∧ s''.data.isSome ∧ (∃ rest, s''.bytes = l ++ 0 :: rest) ∧
        s''.data = s'.data ∧ s''.cap = s'.cap) ∧ (ok = false → s'' = s) := by
  obtain ⟨ok, s', a', hreserve, hres⟩ := reserve_spec h 1 a
  obtain ⟨hs', hlen, hroom, hsame⟩ := hres.models h
  cases ok with
  | false => exact ⟨false, s', s', a', hres, by simp [asCstr, hreserve], nofun, hsame⟩
  | true =>
      have hlt : s'.len + [(0 : UInt8)].length ≤ s'.cap := hlen ▸ hroom rfl
      obtain ⟨bytes, hcopy, ⟨rest, hrest⟩, hbytes, -⟩ := hs'.write hlt
      rw [copyIn_singleton] at hcopy
      have hsome : s'.data.isSome := by
        rw [Option.isSome_iff_ne_none]
        intro hnull
        have hsize := hs'.size
        rw [hs'.null hnull] at hsize
        simp at hsize hlt
        omega
      refine ⟨true, s', { s' with bytes }, a', hres, by simp [asCstr, hreserve, hcopy], fun _ => ?_,
        nofun⟩
      exact ⟨hbytes, hsome, ⟨rest, by simpa using hrest.symm⟩, rfl, rfl⟩

theorem models_clear (h : Models s l) : Models (clear s) [] :=
  { h with len := rfl, room := Nat.zero_le _, content := List.nil_prefix }

theorem Models.asStr (h : Models s l) : asStr s = l := by
  rw [Str.asStr, h.len]
  exact (List.prefix_iff_eq_take.mp h.content).symm

end Calls

/-! ## The specification

A list of bytes, and what each call may return on it. A call that fails is excused by a refusal or by a
length that is not a `usize`, and it leaves the bytes as they were. Equality of two strings is equality
of their lists.
-/

def Op.pushes : Op → Option (List UInt8)
  | .pushByte b  => some [b]
  | .pushStr x   => some x
  | .pushCstr cs => some (cs.elim [] fun c => beforeNul c.mem)
  | _            => none

def Op.reserves : Op → Nat
  | .reserve extra => extra
  | .asCstr        => 1
  | op             => (op.pushes.getD []).length

inductive Spec : List UInt8 → Op → Ret → List UInt8 → Prop
  | reserve {l n b} : Spec l (.reserve n) (.bool b) l
  | push {l op x} : op.pushes = some x → Spec l op (.bool true) (l ++ x)
  | push_fails {l op x} : op.pushes = some x → Spec l op (.bool false) l
  | asCstr {l rest} : Spec l .asCstr (.cstr (some (l ++ 0 :: rest))) l
  | asCstr_fails {l} : Spec l .asCstr (.cstr none) l
  | clear {l} : Spec l .clear .unit []

def Ret.failed : Ret → Bool
  | .bool b   => !b
  | .cstr mem => mem.isNone
  | .unit     => false

/-- What makes a call fail that needs room for `extra` bytes: a refusal, or a length that is not a
    `usize`. -/
def Excused (l : List UInt8) (extra : Nat) (a a' : Alloc) : Prop :=
  (∃ call, a'.log = a.log ++ [call] ∧ call.isRefusal) ∨ 2 ^ 64 - 1 < l.length + extra

structure Simulates (s : StdString) (a : Alloc) (l : List UInt8) (op : Op) (r : Ret) (s' : StdString)
    (a' : Alloc) : Prop where
  spec    : ∃ l', Spec l op r l' ∧ Models s' l'
  /-- A call that fails changes nothing. -/
  failed  : r.failed = true → s' = s
  excused : r.failed = true → Excused l op.reserves a a'
  /-- The C string shows what is before the first NUL, which is all of it if there is none. -/
  cstr    : ∀ mem, r = .cstr (some mem) →
    fromCstr (some mem) = some (beforeNul l) ∧ (strEq (beforeNul l) l = true ↔ 0 ∉ l)

section Runs

variable {s s' : StdString} {l : List UInt8} {a a' : Alloc}

theorem strEq_beforeNul (l : List UInt8) : strEq (beforeNul l) l = true ↔ 0 ∉ l := by
  rw [strEq_iff]
  constructor
  · intro heq hzero
    rw [← heq] at hzero
    simpa using List.mem_takeWhile_imp hzero
  · exact beforeNul_eq_self

/-- All three pushes push a string. -/
theorem exec_push {op : Op} {x : List UInt8} (hop : op.pushes = some x) (s : StdString) (a : Alloc) :
    exec s a op = (do
      let (ok, s, a) ← pushStr s x a
      return (.bool ok, s, a)) := by
  cases op with
  | pushByte b =>
      cases hop
      rw [exec, pushByte_eq]
  | pushStr x =>
      cases hop
      rfl
  | pushCstr cs =>
      cases hop
      rw [exec, pushCstr_eq]
  | reserve | asCstr | clear => exact nomatch hop

/-- A `reserve` that fails has an excuse. -/
theorem Reserved.excused (h : Models s l) {extra : Nat} (hres : Reserved s extra a false s' a') :
    Excused l extra a a' := by
  unfold Excused
  rw [← h.len]
  cases hres with
  | tooMany hmany => exact .inr hmany
  | @refused c a' _ hgrow =>
      have hlog := growBlock_log s.data s.bytes s.cap c 1 a
      rw [hgrow] at hlog
      refine .inl ⟨_, hlog, ?_⟩
      cases s.data <;> rfl

/-- A push needs room for what it pushes. -/
theorem reserves_push {op : Op} {x : List UInt8} (hop : op.pushes = some x) :
    op.reserves = x.length := by
  cases op with
  | pushByte b | pushStr y | pushCstr cs =>
      cases hop
      rfl
  | reserve | asCstr | clear => exact nomatch hop

/-- A push appends its bytes, or fails with an excuse. -/
theorem push_simulates (h : Models s l) (a : Alloc) {op : Op} {x : List UInt8}
    (hop : op.pushes = some x) :
    ∃ r s' a', exec s a op = some (r, s', a') ∧ Simulates s a l op r s' a' := by
  obtain ⟨ok, _, s'', a', hres, hpush, hdone, hsame⟩ := pushStr_spec h x a
  refine ⟨.bool ok, s'', a', by rw [exec_push hop, hpush]; rfl, ?_, ?_, ?_, nofun⟩
  · cases ok with
    | true => exact ⟨l ++ x, .push hop, (hdone rfl).1⟩
    | false => exact ⟨l, .push_fails hop, hsame rfl ▸ h⟩
  · intro hfailed
    exact hsame (by simpa [Ret.failed] using hfailed)
  · intro hfailed
    obtain rfl : ok = false := by simpa [Ret.failed] using hfailed
    rw [reserves_push hop]
    exact hres.excused h

/-- **Step lemma.** Every call simulates the list of bytes. -/
theorem exec_simulates (h : Models s l) (a : Alloc) (op : Op) :
    ∃ r s' a', exec s a op = some (r, s', a') ∧ Simulates s a l op r s' a' := by
  cases op with
  | reserve extra =>
      obtain ⟨ok, s', a', hreserve, hres⟩ := reserve_spec h extra a
      obtain ⟨hs', -, -, hsame⟩ := hres.models h
      refine ⟨.bool ok, s', a', by simp [exec, hreserve], ⟨l, .reserve, hs'⟩, ?_, ?_, nofun⟩
      · intro hfailed
        exact hsame (by simpa [Ret.failed] using hfailed)
      · intro hfailed
        obtain rfl : ok = false := by simpa [Ret.failed] using hfailed
        exact hres.excused h
  | pushByte b => exact push_simulates h a rfl
  | pushStr x => exact push_simulates h a rfl
  | pushCstr cs => exact push_simulates h a rfl
  | asCstr =>
      obtain ⟨ok, _, s'', a', hres, hcstr, hdone, hsame⟩ := asCstr_spec h a
      cases ok with
      | false =>
          refine ⟨.cstr none, s'', a', by simp [exec, hcstr], ⟨l, .asCstr_fails, hsame rfl ▸ h⟩,
            fun _ => hsame rfl, fun _ => hres.excused h, nofun⟩
      | true =>
          obtain ⟨hs'', hsome, ⟨rest, hrest⟩, -, -⟩ := hdone rfl
          obtain ⟨p, hp⟩ := Option.isSome_iff_exists.mp hsome
          refine ⟨.cstr (some s''.bytes), s'', a', by simp [exec, hcstr, hp],
            ⟨l, hrest ▸ .asCstr, hs''⟩, nofun, nofun, ?_⟩
          intro mem hmem
          cases hmem
          refine ⟨?_, strEq_beforeNul l⟩
          rw [fromCstr_eq (by simp [hrest]) (by rw [hs''.size]; exact Nat.le_of_lt hs''.cap), hrest,
            beforeNul_append]
  | clear => exact ⟨.unit, clear s, a, rfl, ⟨[], .clear, models_clear h⟩, nofun, nofun, nofun⟩

theorem step_refines (s : State) (l : List UInt8) (op : Op) (h : Models s.str l) :
    ∃ s' r l', step s op = some s' ∧ s'.rets = s.rets ++ [r] ∧ Spec l op r l' ∧ Models s'.str l' := by
  obtain ⟨r, s', a', hexec, hsim⟩ := exec_simulates h s.alloc op
  obtain ⟨l', hspec, hs'⟩ := hsim.spec
  exact ⟨⟨s', a', s.rets ++ [r]⟩, r, l', by simp [step, hexec], rfl, hspec, hs'⟩

/-- How many bytes some calls push. -/
def pushedBytes (ops : List Op) : Nat := (ops.map fun op => (op.pushes.getD []).length).sum

/-- A push or a clear for which there is room leaves the block where it is, and does not call the
    allocator. -/
theorem exec_room (h : Models s l) {op : Op} (hroom : s.len + (op.pushes.getD []).length ≤ s.cap)
    (hno : (∀ n, op ≠ .reserve n) ∧ op ≠ .asCstr) (a : Alloc) :
    ∃ r s' l', exec s a op = some (r, s', a) ∧ Models s' l' ∧ s'.data = s.data ∧ s'.cap = s.cap ∧
      s'.len ≤ s.len + (op.pushes.getD []).length ∧ (op.pushes.isSome → r = .bool true) := by
  cases hop : op.pushes with
  | none =>
      cases op with
      | reserve n => exact absurd rfl (hno.1 n)
      | asCstr => exact absurd rfl hno.2
      | clear =>
          exact ⟨.unit, clear s, [], rfl, models_clear h, rfl, rfl, Nat.zero_le _, nofun⟩
      | pushByte | pushStr | pushCstr => exact nomatch hop
  | some x =>
      rw [hop, Option.getD_some] at hroom
      by_cases hx : x = []
      · subst hx
        exact ⟨.bool true, s, l, by rw [exec_push hop]; rfl, h, rfl, rfl, Nat.le_add_right _ _,
          fun _ => rfl⟩
      · obtain ⟨bytes, hpush, hbytes⟩ := pushStr_reserved hx (reserve_room h hroom a) h hroom
        have hlen : wadd s.len x.length = s.len + x.length := wadd_eq (by have := h.cap; omega)
        refine ⟨.bool true, _, _, by rw [exec_push hop, hpush]; rfl, hbytes, rfl, rfl, ?_,
          fun _ => rfl⟩
        exact Nat.le_of_eq hlen

/-- **Room lemma.** Bytes for which there is room are pushed without a call of the allocator. -/
theorem run_room (h : Models s l) {ops : List Op} (hroom : s.len + pushedBytes ops ≤ s.cap)
    (hno : ∀ op ∈ ops, (∀ n, op ≠ .reserve n) ∧ op ≠ .asCstr) (a : Alloc) (rets : List Ret) :
    ∃ t rs, Machine.run step ⟨s, a, rets⟩ ops = some ⟨t, a, rets ++ rs⟩ ∧ t.data = s.data ∧
      List.Forall₂ (fun op r => op.pushes.isSome → r = .bool true) ops rs := by
  induction ops generalizing s l rets with
  | nil => exact ⟨s, [], by simp, rfl, .nil⟩
  | cons op ops ih =>
      rw [pushedBytes, List.map_cons, List.sum_cons, ← pushedBytes] at hroom
      obtain ⟨hop, hops⟩ := List.forall_mem_cons.mp hno
      obtain ⟨r, s', l', hexec, hs', hdata, hcap, hlen, hpush⟩ := exec_room h (by omega) hop a
      obtain ⟨t, rs, hrun, ht, hrs⟩ := ih hs' (by omega) hops (rets ++ [r])
      refine ⟨t, r :: rs, ?_, ht.trans hdata, .cons hpush hrs⟩
      simpa [step, hexec] using hrun

end Runs

/-- There is room for `extra` bytes: they are pushed without a call of the allocator, and the block
    stays where it is. -/
def HasRoom (s : StdString) (a : Alloc) (extra : Nat) : Prop :=
  ∀ next : List Op, (∀ op ∈ next, (∀ n, op ≠ .reserve n) ∧ op ≠ .asCstr) →
    pushedBytes next ≤ extra →
    ∃ t rs, Machine.run step ⟨s, a, []⟩ next = some ⟨t, a, rs⟩ ∧ t.data = s.data ∧
      List.Forall₂ (fun op r => op.pushes.isSome → r = .bool true) next rs

/-- A reserve that succeeds makes room. -/
theorem Reserved.hasRoom {s s' : StdString} {l : List UInt8} {a a' : Alloc} {extra : Nat}
    (h : Models s l) (hres : Reserved s extra a true s' a') : HasRoom s' a' extra := by
  obtain ⟨hs', hlen, hroom, -⟩ := hres.models h
  have hroom := hroom rfl
  intro next hno hpushed
  exact run_room hs' (by omega) hno a' []

/-- A constructor makes an empty string, and one with a capacity has room for as many bytes. -/
theorem construct_spec (ctor : Ctor) (a : Alloc) :
    ∃ ok s a', construct a ctor = some (ok, s, a') ∧ Models s [] ∧ (ok = false → s = newIn) ∧
      ∀ cap, ctor = .withCapacityIn cap → ok = true → HasRoom s a' cap := by
  cases ctor with
  | newIn => exact ⟨true, _, a, rfl, models_newIn, nofun, nofun⟩
  | withCapacityIn cap =>
      unfold construct withCapacityIn
      by_cases hzero : cap = 0
      · refine ⟨true, _, a, if_pos hzero, models_newIn, nofun, fun n hn _ => ?_⟩
        cases hn
        subst hzero
        exact Reserved.hasRoom models_newIn (.enough models_newIn.room)
      · obtain ⟨ok, s, a', hreserve, hres⟩ := reserve_spec models_newIn cap a
        obtain ⟨hs, -, -, hsame⟩ := hres.models models_newIn
        refine ⟨ok, s, a', (if_neg hzero).trans hreserve, hs, hsame, fun n hn hok => ?_⟩
        cases hn
        cases hok
        exact hres.hasRoom models_newIn

/-- **`cstd_string` refines a list of bytes.** For every constructor call, every allocator and every
    sequence of calls: the string shows the bytes pushed since the last clear, the calls return what they
    return on that list, and so does every further call; a call that fails is excused and changes
    nothing, and a failed constructor leaves the empty string. The C string is what is before the first
    NUL. After a successful `reserve` or `with_capacity_in`, as many bytes are pushed without the
    allocator. -/
theorem cstd_string_refines_bytes (ctor : Ctor) (a : Alloc) :
    ∃ ok s₀ a₀, construct a ctor = some (ok, s₀, a₀) ∧ (ok = false → s₀ = newIn) ∧
      (∀ cap, ctor = .withCapacityIn cap → ok = true → HasRoom s₀ a₀ cap) ∧
      ∀ ops, ∃ s l, Machine.run step ⟨s₀, a₀, []⟩ ops = some s ∧
        Machine.SpecRun Spec [] ops s.rets l ∧ Models s.str l ∧ asStr s.str = l ∧
        (∀ op, ∃ r s' a', exec s.str s.alloc op = some (r, s', a') ∧
          Simulates s.str s.alloc l op r s' a') ∧
        ∀ extra s' a', reserve s.str extra s.alloc = some (true, s', a') → HasRoom s' a' extra := by
  obtain ⟨ok, s₀, a₀, hconstruct, hs₀, hempty, hcap⟩ := construct_spec ctor a
  refine ⟨ok, s₀, a₀, hconstruct, hempty, hcap, fun ops => ?_⟩
  obtain ⟨s, l, hrun, hspec, hs⟩ := Machine.run_refines (s := ⟨s₀, a₀, []⟩) step_refines hs₀ rfl ops
  refine ⟨s, l, hrun, hspec, hs, hs.asStr, exec_simulates hs s.alloc, ?_⟩
  intro extra s' a' hreserve
  obtain ⟨_, _, _, hreserve', hres⟩ := reserve_spec hs extra s.alloc
  cases hreserve.symm.trans hreserve'
  exact hres.hasRoom hs

end CustLib.Str
