import Mathlib.Data.List.Basic

/-!
# A memory that two parties write

A party works in a memory, and another one writes to the same memory in between. `Effect`s are writes
of whole extents and rewrites of an extent from its old bytes; their values are left open (`Values`).
`stained es` are the places where the other party shows: it wrote there last, or the party rewrote an
extent with such a place in it. These are exactly the places that may differ from what the party alone
would have left there (`stained_sound`, `stained_exact`).
-/

namespace CustLib.Overwrite

/-! ## Accesses

A memory is a function from addresses to bytes. An access is to the bytes of one extent; what it writes
is found under its key in a table of values.
-/

abbrev Memory := Nat → UInt8

inductive Effect where
  | write (key addr size : Nat)
  | rewrite (key addr size : Nat)
  deriving DecidableEq, Repr

def Effect.key : Effect → Nat
  | .write k _ _ | .rewrite k _ _ => k

/-- What the accesses with a key write: the bytes of a write, and those of a rewrite from the old
    ones. -/
structure Values where
  bytes : Nat → Nat → UInt8
  fn    : Nat → List UInt8 → Nat → UInt8

def extent {α : Type} (m : Nat → α) (addr size : Nat) : List α :=
  (List.range size).map fun i => m (addr + i)

def patch {α : Type} (m : Nat → α) (addr size : Nat) (new : Nat → α) : Nat → α :=
  fun p => if addr ≤ p ∧ p < addr + size then new (p - addr) else m p

def Effect.apply (v : Values) (m : Memory) : Effect → Memory
  | .write k addr size   => patch m addr size (v.bytes k)
  | .rewrite k addr size => patch m addr size (v.fn k (extent m addr size))

def replay (v : Values) (m : Memory) (es : List Effect) : Memory := es.foldl (Effect.apply v) m

theorem replay_append (v : Values) (m : Memory) (es es' : List Effect) :
    replay v m (es ++ es') = replay v (replay v m es) es' := List.foldl_append

/-! ## Extents

Bytes of an extent, under writes to other extents, to the same one, and to a part of it.
-/

section Extents

variable {α : Type} {m m' : Nat → α}

@[simp] theorem extent_length (m : Nat → α) (addr size : Nat) : (extent m addr size).length = size := by
  rw [extent, List.length_map, List.length_range]

theorem extent_congr {addr size : Nat} (h : ∀ p, addr ≤ p → p < addr + size → m p = m' p) :
    extent m addr size = extent m' addr size := by
  apply List.map_congr_left
  intro i hi
  exact h _ (Nat.le_add_right addr i) (Nat.add_lt_add_left (List.mem_range.mp hi) addr)

/-- Adjacent extents. -/
theorem extent_append (m : Nat → α) (addr size size' : Nat) :
    extent m addr (size + size') = extent m addr size ++ extent m (addr + size) size' := by
  rw [extent, List.range_add, List.map_append, List.map_map]
  congr 2
  funext i
  rw [Function.comp_apply, Nat.add_assoc]

/-- A patched extent has its new bytes. -/
theorem extent_patch (m : Nat → α) (addr size : Nat) (new : Nat → α) :
    extent (patch m addr size new) addr size = (List.range size).map new := by
  apply List.map_congr_left
  intro i hi
  have hin : addr ≤ addr + i ∧ addr + i < addr + size :=
    ⟨Nat.le_add_right addr i, Nat.add_lt_add_left (List.mem_range.mp hi) addr⟩
  rw [patch, if_pos hin, Nat.add_sub_cancel_left]

end Extents

def Effect.Within (addr size : Nat) : Effect → Prop
  | .write _ a n | .rewrite _ a n => addr ≤ a ∧ a + n ≤ addr + size

/-- An extent in another one. -/
theorem Effect.Within.mono {addr size addr' size' : Nat} {e : Effect} (h : e.Within addr size)
    (hlo : addr' ≤ addr) (hhi : addr + size ≤ addr' + size') : e.Within addr' size' := by
  cases e <;> exact ⟨Nat.le_trans hlo h.1, Nat.le_trans h.2 hhi⟩

/-- **Frame.** Accesses to an extent leave the other bytes alone. -/
theorem replay_outside (v : Values) {addr size p : Nat} (hp : p < addr ∨ addr + size ≤ p)
    {es : List Effect} (h : ∀ e ∈ es, e.Within addr size) (m : Memory) :
    replay v m es p = m p := by
  induction es generalizing m with
  | nil => rfl
  | cons e es ih =>
      have he := h e List.mem_cons_self
      have hstep : e.apply v m p = m p := by
        cases e <;>
        · obtain ⟨hlo, hhi⟩ := he
          rw [Effect.apply, patch, if_neg]
          omega
      rw [replay, List.foldl_cons, ← hstep]
      exact ih (fun e' he' => h e' (List.mem_cons_of_mem e he')) _

/-! ## Two parties

A history of accesses, each marked with its party. `stain` follows one access: a write of the other
party stains its extent, a write of the first party cleans it, and a rewrite spreads the stains of its
extent over all of it.
-/

/-- An access of either party: `true` marks those of the first. -/
abbrev Marked := Bool × Effect

/-- The accesses of the first party. -/
def mine (es : List Marked) : List Effect := (es.filter Prod.fst).map Prod.snd

/-- What an access does to the places where the other party shows. -/
def stain (s : Nat → Bool) : Marked → Nat → Bool
  | (true, .write _ addr size)   => patch s addr size fun _ => false
  | (true, .rewrite _ addr size) => patch s addr size fun _ => (extent s addr size).any id
  | (false, .write _ addr size)  => patch s addr size fun _ => true
  | (false, .rewrite _ addr size) => patch s addr size fun _ => true

def stained (es : List Marked) : Nat → Bool := es.foldl stain fun _ => false

/-! ## The other places are as the party alone leaves them

Two memories side by side, one with all accesses and one with those of the first party only. They agree
wherever there is no stain, by induction over the accesses.
-/

def Clean (s : Nat → Bool) (m m' : Memory) : Prop := ∀ p, s p = false → m p = m' p

theorem Clean.extent_eq {s : Nat → Bool} {m m' : Memory} (h : Clean s m m') {addr size : Nat}
    (hs : (extent s addr size).any id = false) : extent m addr size = extent m' addr size := by
  refine List.map_congr_left fun i hi => h _ ?_
  rw [List.any_eq_false] at hs
  simpa using hs _ (List.mem_map_of_mem hi)

/-- One access keeps the agreement outside of the stains. -/
theorem Clean.step {s : Nat → Bool} {m m' : Memory} (h : Clean s m m') (v : Values) :
    ∀ e : Marked, Clean (stain s e) (e.2.apply v m) (if e.1 then e.2.apply v m' else m') := by
  rintro ⟨_ | _, e⟩ p hp
  · -- the other party's access
    cases e <;>
    · simp only [stain, patch] at hp
      simp only [Effect.apply, patch]
      split at hp
      · cases hp
      · next hout => simp [hout, h p hp]
  · cases e with
    | write k addr size =>
        simp only [stain, patch] at hp
        simp only [Effect.apply, patch, if_true]
        split
        · rfl
        · next hout => exact h p (by simpa [hout] using hp)
    | rewrite k addr size =>
        simp only [stain, patch] at hp
        simp only [Effect.apply, patch, if_true]
        split
        · next hin =>
          rw [if_pos hin] at hp
          rw [h.extent_eq hp]
        · next hout => exact h p (by simpa [hout] using hp)

/-- So do all of them. -/
theorem Clean.run {s : Nat → Bool} {m m' : Memory} (h : Clean s m m') (v : Values)
    (es : List Marked) :
    Clean (es.foldl stain s) (replay v m (es.map Prod.snd)) (replay v m' (mine es)) := by
  induction es generalizing s m m' with
  | nil => exact h
  | cons e es ih =>
      obtain ⟨b, e⟩ := e
      have hstep := ih (h.step v (b, e))
      cases b <;> exact hstep

/-- **Soundness.** A place that is not stained is as the party alone leaves it. -/
theorem stained_sound (v : Values) (m : Memory) (es : List Marked) (p : Nat)
    (hp : stained es p = false) : replay v m (es.map Prod.snd) p = replay v m (mine es) p :=
  Clean.run (fun _ _ => rfl) v es p hp

/-! ## The stained ones need not be

For values that tell the parties apart the stains can be seen in the memory, so no smaller set of places
would do.
-/

/-- The values that show the stains: the party writes zeros and keeps them, the other one ones. -/
def telltale (theirs : Nat → Bool) : Values where
  bytes k _ := if theirs k then 1 else 0
  fn k old _ := if theirs k || old.any (· ≠ 0) then 1 else 0

/-- The memory that shows the stains. -/
def showing (s : Nat → Bool) : Memory := fun p => if s p then 1 else 0

theorem showing_any (s : Nat → Bool) (addr size : Nat) :
    (extent (showing s) addr size).any (· ≠ 0) = (extent s addr size).any id := by
  rw [extent, extent, List.any_map, List.any_map]
  congr 1
  funext i
  cases h : s (addr + i) <;> simp [showing, h]

theorem showing_patch (s : Nat → Bool) (addr size : Nat) (b : Bool) :
    patch (showing s) addr size (fun _ => if b then 1 else 0) =
      showing (patch s addr size fun _ => b) := by
  funext p
  simp only [patch, showing]
  split <;> rfl

/-- The keys of the other party are told by `theirs`. -/
def Told (theirs : Nat → Bool) (es : List Marked) : Prop := ∀ e ∈ es, theirs e.2.key = !e.1

theorem showing_step {theirs : Nat → Bool} {e : Marked} (he : theirs e.2.key = !e.1)
    (s : Nat → Bool) :
    e.2.apply (telltale theirs) (showing s) = showing (stain s e) := by
  obtain ⟨b, e⟩ := e
  cases e with
  | write k addr size =>
      have hk : theirs k = !b := he
      have hstain : stain s (b, .write k addr size) = patch s addr size fun _ => !b := by
        cases b <;> rfl
      rw [hstain, ← showing_patch]
      simp only [Effect.apply, telltale, hk]
  | rewrite k addr size =>
      have hk : theirs k = !b := he
      have hstain : stain s (b, .rewrite k addr size) =
          patch s addr size fun _ => !b || (extent s addr size).any id := by
        cases b <;> rfl
      rw [hstain, ← showing_patch, ← showing_any]
      simp only [Effect.apply, telltale, hk]

/-- With the telling values the memory shows the stains. -/
theorem showing_run {theirs : Nat → Bool} {es : List Marked} (h : Told theirs es)
    (s : Nat → Bool) :
    replay (telltale theirs) (showing s) (es.map Prod.snd) = showing (es.foldl stain s) := by
  induction es generalizing s with
  | nil => rfl
  | cons e es ih =>
      rw [List.map_cons, replay, List.foldl_cons, showing_step (h e List.mem_cons_self)]
      exact ih (fun e' he' => h e' (List.mem_cons_of_mem e he')) _

/-- Alone, the party leaves no stain. -/
theorem stained_mine (es : List Marked) :
    stained (es.filter Prod.fst) = fun _ => false := by
  have hstep : ∀ e : Effect, stain (fun _ => false) (true, e) = fun _ => false := by
    intro e
    funext p
    cases e <;> simp [stain, patch, extent]
  induction es with
  | nil => rfl
  | cons e es ih =>
      obtain ⟨b, e⟩ := e
      cases b with
      | false => exact ih
      | true =>
          rw [List.filter_cons_of_pos rfl, stained, List.foldl_cons, hstep]
          exact ih

/-- **Exactness.** Some values tell every stained place from what the party alone leaves there. -/
theorem stained_exact {theirs : Nat → Bool} {es : List Marked} (h : Told theirs es) (p : Nat)
    (hp : stained es p = true) :
    replay (telltale theirs) (fun _ => 0) (es.map Prod.snd) p ≠
      replay (telltale theirs) (fun _ => 0) (mine es) p := by
  have hzero : (fun _ => 0 : Memory) = showing fun _ => false := rfl
  have hmine : Told theirs (es.filter Prod.fst) := fun e he => h e (List.mem_of_mem_filter he)
  have hrace := congrFun (showing_run h fun _ => false) p
  have halone := congrFun (showing_run hmine fun _ => false) p
  have hclean := congrFun (stained_mine es) p
  rw [hzero, mine, hrace, halone]
  rw [stained] at hp hclean
  simp [showing, hp, hclean]

end CustLib.Overwrite
