import CustLib.Std.Alloc

/-!
# Buffers that grow

What `vec.c`, `string.c` and `hashmap.c` have in common: writes into memory, products that must not
wrap, and capacities that double. A write outside of a buffer gives `none`, and so does a loop that is
cut off.
-/

namespace CustLib

/-! ## Memory

A block is an array, and `store` is the only way to write into one. The byte loops of the containers
copy an element in front to back; they are `copyIn` and `copyOut`, with the index as a parameter, so
that one lemma says what the whole loop has copied.
-/

def store {α : Type} (l : List α) (i : Nat) (x : α) : Option (List α) :=
  if i < l.length then some (l.set i x) else none

/-- The loop `dst[i] = src[i]`, from the index `i` on. -/
def copyIn (dst : List UInt8) : Nat → List UInt8 → Option (List UInt8)
  | _, []      => some dst
  | i, x :: xs => do copyIn (← store dst i x) (wadd i 1) xs

/-- The same loop the other way: `n` bytes, from the index `i` on. -/
def copyOut (src : List UInt8) (i n : Nat) : Option (Bytes n) :=
  if h : i + n ≤ src.length then some (Vector.ofFn fun j => src[i + j]) else none

theorem store_eq {α : Type} {l : List α} {i : Nat} (h : i < l.length) (x : α) :
    store l i x = some (l.set i x) := if_pos h

/-- Writing behind a prefix leaves the prefix alone. -/
theorem copyIn_append (pre old post xs : List UInt8) (hlen : old.length = xs.length)
    (hsize : pre.length + xs.length < 2 ^ 64) :
    copyIn (pre ++ old ++ post) pre.length xs = some (pre ++ xs ++ post) := by
  induction xs generalizing pre old with
  | nil =>
      rw [List.length_eq_zero_iff.mp hlen]
      rfl
  | cons x xs ih =>
      obtain ⟨y, old, rfl⟩ := List.exists_cons_of_length_eq_add_one hlen
      rw [List.length_cons] at hsize
      have hstore : store (pre ++ y :: old ++ post) pre.length x =
          some (pre ++ [x] ++ old ++ post) := by
        rw [store_eq (by simp)]
        simp
      have hnext : wadd pre.length 1 = (pre ++ [x]).length := by
        rw [wadd_eq (by omega), List.length_append]
        rfl
      rw [copyIn, hstore, Option.bind_eq_bind, Option.bind_some, hnext,
        ih (pre ++ [x]) old (by simpa using hlen) (by simp; omega)]
      simp

/-- **Writing behind the bytes in use.** -/
theorem copyIn_prefix {used bytes xs : List UInt8} (hused : used <+: bytes)
    (hroom : used.length + xs.length ≤ bytes.length) (hsize : bytes.length < 2 ^ 64) :
    ∃ bytes', copyIn bytes used.length xs = some bytes' ∧ bytes'.length = bytes.length ∧
      used ++ xs <+: bytes' := by
  obtain ⟨rest, rfl⟩ := hused
  rw [List.length_append] at hroom hsize
  have hold : (rest.take xs.length).length = xs.length := List.length_take_of_le (by omega)
  have hcopy := copyIn_append used (rest.take xs.length) (rest.drop xs.length) xs hold (by omega)
  rw [List.append_assoc, List.take_append_drop] at hcopy
  refine ⟨_, hcopy, ?_, List.prefix_append _ _⟩
  simp only [List.length_append, List.length_drop]
  omega

theorem copyIn_singleton (bytes : List UInt8) (i : Nat) (b : UInt8) :
    copyIn bytes i [b] = store bytes i b := by
  rw [copyIn]
  cases store bytes i b <;> rfl

theorem copyOut_append {n : Nat} (pre post : List UInt8) (x : Bytes n) :
    copyOut (pre ++ x.toList ++ post) pre.length n = some x := by
  rw [copyOut, dif_pos (by simp)]
  congr 1
  ext j hj
  simp [List.getElem_append_right]

/-! ## Products

`checked_mul`, which occurs in `vec.c` and in `hashmap.c` with the same text. Its answer is the exact
product, or none where the product is not a `usize`.
-/

def checkedMul (a b : Nat) : Option Nat :=
  if a = 0 ∨ b = 0 then some 0
  else if a > (2 ^ 64 - 1) / b then none
  else some (wmul a b)

/-- **The product, unless it would wrap.** -/
theorem checkedMul_eq (a b : Nat) :
    checkedMul a b = if a * b < 2 ^ 64 then some (a * b) else none := by
  unfold checkedMul
  by_cases hzero : a = 0 ∨ b = 0
  · rw [if_pos hzero, Nat.mul_eq_zero.mpr hzero]
    rfl
  · have hb : 0 < b := by omega
    have hfits : a > (2 ^ 64 - 1) / b ↔ ¬ a * b < 2 ^ 64 := by
      rw [gt_iff_lt, Nat.div_lt_iff_lt_mul hb]
      omega
    rw [if_neg hzero]
    by_cases hlt : a * b < 2 ^ 64
    · rw [if_neg fun h => hfits.mp h hlt, if_pos hlt, wmul_eq hlt]
    · rw [if_pos (hfits.mpr hlt), if_neg hlt]

/-! ## Capacities

`next_cap` doubles from the current capacity until it has room for the request, and falls back on the
request itself when doubling would pass the top of `usize`. Its loop is cut off after as many rounds as
`usize` has bits; `nextCap_spec` shows that this is enough.
-/

def nextCapLoop : Nat → Nat → Nat → Option Nat
  | 0, _, _ => none
  | fuel + 1, newCap, need =>
    if newCap < need then
      if newCap > (2 ^ 64 - 1) / 2 then some need
      else nextCapLoop fuel (wmul newCap 2) need
    else some newCap

/-- `next_cap`: the same text in `vec.c` and in `string.c`. -/
def nextCap (current need : Nat) : Option Nat :=
  nextCapLoop 64 (if current < 8 then 8 else current) need

/-- What the loop returns: a capacity that fits, and was not reached by a product that wraps. -/
structure Doubled (newCap need c : Nat) : Prop where
  fits  : need ≤ c
  grows : newCap ≤ c
  lt    : c < 2 ^ 64
  steps : c = need ∨ ∃ k, c = newCap * 2 ^ k

/-- The loop ends within its bound. -/
theorem nextCapLoop_spec {fuel newCap need : Nat} (hcap : newCap < 2 ^ 64) (hneed : need < 2 ^ 64)
    (hfuel : 2 ^ 64 ≤ newCap * 2 ^ fuel) :
    ∃ c, nextCapLoop fuel newCap need = some c ∧ Doubled newCap need c := by
  induction fuel generalizing newCap with
  | zero => omega
  | succ fuel ih =>
      unfold nextCapLoop
      split
      next hlt =>
        split
        next hlast => exact ⟨need, rfl, Nat.le_refl _, by omega, hneed, .inl rfl⟩
        next hdouble =>
          have hexact : wmul newCap 2 = newCap * 2 := wmul_eq (by omega)
          have hpow : newCap * 2 ^ (fuel + 1) = newCap * 2 * 2 ^ fuel := by
            rw [Nat.pow_succ', Nat.mul_assoc]
          rw [hexact]
          obtain ⟨c, hc, hd⟩ := ih (by omega) (hpow ▸ hfuel)
          have hgrows := hd.grows
          refine ⟨c, hc, hd.fits, by omega, hd.lt, ?_⟩
          rcases hd.steps with hneed | ⟨k, hk⟩
          · exact .inl hneed
          · exact .inr ⟨k + 1, by rw [hk, Nat.pow_succ', Nat.mul_assoc]⟩
      next hge => exact ⟨newCap, rfl, by omega, Nat.le_refl _, hcap, .inr ⟨0, by simp⟩⟩

/-- **`next_cap` terminates**, with a capacity that fits and is not less than the current one. -/
theorem nextCap_spec {current need : Nat} (hcap : current < 2 ^ 64) (hneed : need < 2 ^ 64) :
    ∃ c, nextCap current need = some c ∧ Doubled (max 8 current) need c := by
  have hmax : (if current < 8 then 8 else current) = max 8 current := by
    split <;> omega
  rw [nextCap, hmax]
  apply nextCapLoop_spec (by omega) hneed
  calc 2 ^ 64 ≤ 8 * 2 ^ 64 := by decide
    _ ≤ max 8 current * 2 ^ 64 := Nat.mul_le_mul_right _ (Nat.le_max_left _ _)

/-! ## Growth

What `std_vec_reserve` and `cstd_string_reserve` do once they know the new size: `allocate` for the
first block and `reallocate` for every later one.
-/

/-- Ask for a block of `newBytes` bytes, with the bytes of the old one if there is one; `none` is a
    refusal. -/
def growBlock (data : Option Block) (bytes : List UInt8) (oldBytes newBytes align : Nat) (a : Alloc) :
    Option (Block × List UInt8) × Alloc :=
  match data with
  | some old =>
    match a.reallocate old oldBytes newBytes align with
    | (some p, a) => (some (p, a.moved p bytes oldBytes newBytes), a)
    | (none, a)   => (none, a)
  | none =>
    match a.allocate newBytes align with
    | (some p, a) => (some (p, a.rest p 0 newBytes), a)
    | (none, a)   => (none, a)

/-- The call that `growBlock` makes, with its answer. -/
def growCall (data : Option Block) (oldBytes newBytes align : Nat) : Option Block → AllocCall
  | some p => match data with
    | some old => .reallocated old p oldBytes newBytes align
    | none     => .allocated p newBytes align
  | none => match data with
    | some old => .kept old oldBytes newBytes align
    | none     => .refused newBytes align

/-- One call of the allocator is made. -/
theorem growBlock_log (data : Option Block) (bytes : List UInt8) (oldBytes newBytes align : Nat)
    (a : Alloc) :
    (growBlock data bytes oldBytes newBytes align a).2.log = a.log ++ [growCall data oldBytes newBytes
      align ((growBlock data bytes oldBytes newBytes align a).1.map Prod.fst)] := by
  by_cases hrefuses : a.refuses a.requests = true
  · cases data <;> simp [growBlock, Alloc.reallocate, Alloc.allocate, growCall, hrefuses]
  · cases data <;> simp [growBlock, Alloc.reallocate, Alloc.allocate, growCall, hrefuses]

/-- A larger buffer begins with the bytes of the old one. -/
theorem growBlock_bytes {data : Option Block} {bytes grown : List UInt8}
    {oldBytes newBytes align : Nat} {a a' : Alloc} {p : Block}
    (h : growBlock data bytes oldBytes newBytes align a = (some (p, grown), a'))
    (hlen : bytes.length = oldBytes) (hle : oldBytes ≤ newBytes) (hnull : data = none → bytes = []) :
    grown.length = newBytes ∧ bytes <+: grown := by
  unfold growBlock at h
  cases data with
  | some old =>
      dsimp only at h
      split at h
      next p' a₁ hcall =>
        cases h
        rw [Alloc.moved, Nat.min_eq_left hle, ← hlen, List.take_length]
        exact ⟨by simp [Alloc.rest]; omega, List.prefix_append _ _⟩
      next => cases h
  | none =>
      rw [hnull rfl] at hlen ⊢
      dsimp only at h
      split at h
      next p' a₁ hcall =>
        cases h
        exact ⟨by simp [Alloc.rest], List.nil_prefix⟩
      next => cases h

end CustLib
