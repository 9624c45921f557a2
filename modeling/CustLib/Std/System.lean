import CustLib.Std.Alloc
import Mathlib.Logic.Function.Basic

/-!
# `std::alloc`: the system allocator

`cstd_alloc_system` hands requests on to libc: `malloc` and `realloc` up to the alignment they
guarantee, and `aligned_alloc` beyond it, whose size has to be a multiple of the alignment. libc is a
heap of byte blocks that may refuse any request. The alignment that `malloc` guarantees,
`_Alignof(max_align_t)`, is a parameter.

The rounded size wraps when it passes the top of `usize`, and then the block is too small
(`le_allocateRequest_iff`).
-/

namespace CustLib.System

/-! ## libc

`malloc`, `aligned_alloc`, `realloc`, `free` and `memcpy` with their documented behaviour. A granted
request adds a block with arbitrary contents under a number that was never used; a copy or a `free` that
the heap has no block for raises `overrun`, which no later call takes back.
-/

inductive Request where
  | malloc (n : Nat)
  | alignedAlloc (align n : Nat)
  | realloc (p : Option Block) (n : Nat)
  deriving DecidableEq, Repr

def Request.bytes : Request → Nat
  | .malloc n | .alignedAlloc _ n | .realloc _ n => n

@[simp] theorem Request.bytes_malloc (n : Nat) : (malloc n).bytes = n := rfl

@[simp] theorem Request.bytes_alignedAlloc (align n : Nat) : (alignedAlloc align n).bytes = n := rfl

@[simp] theorem Request.bytes_realloc (p : Option Block) (n : Nat) : (realloc p n).bytes = n := rfl

/-- What `aligned_alloc` wants of its arguments, when the block is to be aligned to `align`. -/
def Request.WholeMultiple (align : Nat) : Request → Prop
  | .alignedAlloc a n => a = align ∧ a ∣ n
  | _ => True

/-- The heap of libc. Blocks are numbered by the request that returned them; `overrun` is raised by a
    copy that leaves its block. -/
structure Libc where
  refuses  : Nat → Bool
  junk     : Block → Nat → UInt8
  blocks   : Block → Option (List UInt8)
  requests : List Request
  overrun  : Bool
  /-- Blocks that were not handed out yet are not live. -/
  fresh    : ∀ b, requests.length ≤ b → blocks b = none

def Libc.serve (h : Libc) (r : Request) : Option Block × Libc :=
  let b := h.requests.length
  let requests := h.requests ++ [r]
  if h.refuses b then
    (none, { h with requests, fresh := fun c hc => h.fresh c (by grind) })
  else
    (some b,
      { h with requests,
               blocks := Function.update h.blocks b (some ((List.range r.bytes).map (h.junk b))),
               fresh := fun c hc => by
                 have hne : c ≠ b := by grind
                 rw [Function.update_of_ne hne]
                 exact h.fresh c (by grind) })

def Libc.setBlock (h : Libc) (b : Block) (bytes : Option (List UInt8)) (hb : (h.blocks b).isSome) :
    Libc :=
  { h with blocks := Function.update h.blocks b bytes,
           fresh := fun c hc => by
             have hne : c ≠ b := by
               rintro rfl
               simp [h.fresh c hc] at hb
             rw [Function.update_of_ne hne]
             exact h.fresh c hc }

def Libc.free (h : Libc) : Option Block → Libc
  | none   => h
  | some p => if hp : (h.blocks p).isSome then h.setBlock p none hp else { h with overrun := true }

/-- `memcpy` of `n` bytes from the start of one block to the start of another. -/
def Libc.memcpy (h : Libc) (dst src : Block) (n : Nat) : Libc :=
  match h.blocks src with
  | none   => { h with overrun := true }
  | some s =>
    if hd : (h.blocks dst).isSome then
      let d := (h.blocks dst).get hd
      if n ≤ d.length ∧ n ≤ s.length then
        h.setBlock dst (some (s.take n ++ d.drop n)) hd
      else { h with overrun := true }
    else { h with overrun := true }

def Libc.malloc (h : Libc) (n : Nat) : Option Block × Libc := h.serve (.malloc n)

def Libc.alignedAlloc (h : Libc) (align n : Nat) : Option Block × Libc :=
  h.serve (.alignedAlloc align n)

/-- `realloc`: a new block with the bytes of the old one, as many as there is room for. -/
def Libc.realloc (h : Libc) (p : Option Block) (n : Nat) : Option Block × Libc :=
  match h.serve (.realloc p n) with
  | (none, h)   => (none, h)
  | (some b, h) =>
    match p with
    | none   => (some b, h)
    | some q => (some b, (h.memcpy b q (min ((h.blocks q).elim 0 List.length) n)).free (some q))

/-! ## The functions of the source

`sys_allocate`, `sys_deallocate` and `sys_reallocate`, the three functions of the vtable. Up to the
alignment of `malloc` they are the functions of libc. Beyond it the size is rounded up to a multiple of
the alignment, as `aligned_alloc` wants it, and a reallocation is an allocation with a copy.
-/

def rounded (size align : Nat) : Nat := wsub (wadd size align) 1 &&& wnot (wsub align 1)

/-- `sys_allocate`; `maxAlign` is `_Alignof(max_align_t)`. -/
def sysAllocate (maxAlign size align : Nat) (h : Libc) : Option Block × Libc :=
  if size = 0 then (none, h)
  else if align ≤ maxAlign then h.malloc size
  else h.alignedAlloc align (rounded size align)

def sysDeallocate (ptr : Option Block) (h : Libc) : Libc := h.free ptr

def sysReallocate (maxAlign : Nat) (ptr : Option Block) (oldSize newSize align : Nat) (h : Libc) :
    Option Block × Libc :=
  if newSize = 0 then (none, h.free ptr)
  else if align ≤ maxAlign then h.realloc ptr newSize
  else
    -- `realloc` cannot preserve the alignment
    match sysAllocate maxAlign newSize align h with
    | (none, h)       => (none, h)
    | (some fresh, h) =>
      match ptr with
      | none   => (some fresh, h)
      | some p =>
        let copy := if oldSize < newSize then oldSize else newSize
        (some fresh, (h.memcpy fresh p copy).free (some p))

/-! ## Rounding up

The mask in `rounded` rounds down to a multiple of the alignment, so the sum in front of it must not
wrap for the result to be large enough.
-/

/-- The rounded size, without the machine. -/
theorem rounded_eq {size k : Nat} (hk : k < 64) :
    rounded size (2 ^ k) = (size + 2 ^ k - 1) % 2 ^ 64 / 2 ^ k * 2 ^ k := by
  have hpos := Nat.two_pow_pos k
  have hlt : 2 ^ k < 2 ^ 64 := Nat.pow_lt_pow_right (by decide) hk
  have hmask : wsub (2 ^ k) 1 = 2 ^ k - 1 := wsub_eq hpos hlt
  have hsum : wsub (wadd size (2 ^ k)) 1 = (size + 2 ^ k - 1) % 2 ^ 64 := by
    simp only [wsub, wadd]
    omega
  rw [rounded, hmask, hsum, and_wnot_mask (Nat.mod_lt _ (by decide)) (by omega)]

theorem dvd_rounded (size : Nat) {k : Nat} (hk : k < 64) : 2 ^ k ∣ rounded size (2 ^ k) := by
  rw [rounded_eq hk]
  exact Nat.dvd_mul_left _ _

/-- The rounded size is no less than the size iff the sum did not wrap. -/
theorem le_rounded_iff {size k : Nat} (hsize : size < 2 ^ 64) (hk : k < 64) :
    size ≤ rounded size (2 ^ k) ↔ size + 2 ^ k - 1 < 2 ^ 64 := by
  have hpos := Nat.two_pow_pos k
  have hlt : 2 ^ k < 2 ^ 64 := Nat.pow_lt_pow_right (by decide) hk
  rw [rounded_eq hk]
  constructor
  · intro hle
    by_contra hwrap
    have hdown := Nat.div_mul_le_self ((size + 2 ^ k - 1) % 2 ^ 64) (2 ^ k)
    omega
  · intro hfits
    rw [Nat.mod_eq_of_lt hfits]
    have hdiv := Nat.div_add_mod' (size + 2 ^ k - 1) (2 ^ k)
    have hmod := Nat.mod_lt (size + 2 ^ k - 1) hpos
    omega

/-! ## What the functions ask for

`Served` says what a caller gets: a block with room for the request, or the null pointer, after one
request to libc. Whether the request has room for what the caller wanted is a question of the rounding
(`Fits`).
-/

/-- The block `b` is live and has room for `n` bytes. -/
def Libc.HasRoom (h : Libc) (b : Block) (n : Nat) : Prop :=
  ∃ bytes, h.blocks b = some bytes ∧ bytes.length = n

/-- A call has asked libc for memory once, and the block it returns is new and has the size asked
    for. -/
structure Served (h : Libc) (answer : Option Block × Libc) (r : Request) : Prop where
  asked : answer.2.requests = h.requests ++ [r]
  room  : ∀ b, answer.1 = some b → h.blocks b = none ∧ answer.2.HasRoom b r.bytes

theorem served_serve (h : Libc) (r : Request) : Served h (h.serve r) r := by
  by_cases href : h.refuses h.requests.length = true
  · have hanswer : (h.serve r).1 = none := by simp [Libc.serve, href]
    exact ⟨by simp [Libc.serve, href], by simp [hanswer]⟩
  · refine ⟨by simp [Libc.serve, href], ?_⟩
    intro b hb
    obtain rfl : h.requests.length = b := by simpa [Libc.serve, href] using hb
    exact ⟨h.fresh _ le_rfl, _, by simp [Libc.serve, href]; rfl, by simp⟩

section Frames

variable {h : Libc} {b p q : Block} {n k : Nat}

@[simp] theorem requests_setBlock (bytes : Option (List UInt8)) (hb : (h.blocks b).isSome) :
    (h.setBlock b bytes hb).requests = h.requests := rfl

@[simp] theorem requests_free (o : Option Block) : (h.free o).requests = h.requests := by
  cases o with
  | none => rfl
  | some p =>
      simp only [Libc.free]
      split <;> rfl

@[simp] theorem requests_memcpy : (h.memcpy p q k).requests = h.requests := by
  unfold Libc.memcpy
  grind [requests_setBlock]

/-- Freeing one block leaves the others. -/
theorem Libc.HasRoom.free (hr : h.HasRoom b n) (hbp : b ≠ p) : (h.free (some p)).HasRoom b n := by
  simp only [Libc.free]
  split
  · obtain ⟨bytes, hb, hlen⟩ := hr
    exact ⟨bytes, by simpa [Libc.setBlock, hbp] using hb, hlen⟩
  · exact hr

/-- A copy changes no block's size. -/
theorem Libc.HasRoom.memcpy (hr : h.HasRoom b n) : (h.memcpy p q k).HasRoom b n := by
  unfold Libc.memcpy
  split
  · exact hr
  · split
    · rename_i hd
      simp only
      split
      · rename_i hfits
        by_cases hbp : b = p
        · subst hbp
          obtain ⟨bytes, hb, hlen⟩ := hr
          refine ⟨_, by simp [Libc.setBlock]; rfl, ?_⟩
          simp only [hb, Option.get_some] at hfits ⊢
          grind
        · obtain ⟨bytes, hb, hlen⟩ := hr
          exact ⟨bytes, by simpa [Libc.setBlock, hbp] using hb, hlen⟩
      · exact hr
    · exact hr

/-- The old block is copied into the new one and freed. -/
theorem Served.move {h' : Libc} {r : Request} (hs : Served h (some b, h') r)
    (hp : (h.blocks p).isSome) : Served h (some b, (h'.memcpy b p k).free (some p)) r := by
  obtain ⟨hnew, hroom⟩ := hs.room b rfl
  have hbp : b ≠ p := by
    rintro rfl
    simp [hnew] at hp
  constructor
  case asked => simpa using hs.asked
  case room =>
    rintro c ⟨⟩
    exact ⟨hnew, hroom.memcpy.free hbp⟩

end Frames

def allocateRequest (maxAlign size align : Nat) : Request :=
  if align ≤ maxAlign then .malloc size else .alignedAlloc align (rounded size align)

def reallocateRequest (maxAlign : Nat) (ptr : Option Block) (newSize align : Nat) : Request :=
  if align ≤ maxAlign then .realloc ptr newSize else .alignedAlloc align (rounded newSize align)

theorem sysAllocate_served (maxAlign align : Nat) {size : Nat} (hpos : 0 < size) (h : Libc) :
    Served h (sysAllocate maxAlign size align h) (allocateRequest maxAlign size align) := by
  unfold sysAllocate allocateRequest
  rw [if_neg (by omega)]
  split
  · exact served_serve h _
  · exact served_serve h _

/-- A reallocation asks libc once, or not at all for nothing. -/
theorem sysReallocate_served {maxAlign oldSize newSize align : Nat} {ptr : Option Block} {h : Libc}
    (hpos : 0 < newSize) (hlive : ∀ p, ptr = some p → (h.blocks p).isSome) :
    Served h (sysReallocate maxAlign ptr oldSize newSize align h)
      (reallocateRequest maxAlign ptr newSize align) := by
  unfold sysReallocate reallocateRequest
  rw [if_neg (by omega)]
  split
  · have hs := served_serve h (.realloc ptr newSize)
    unfold Libc.realloc
    rcases hanswer : h.serve (.realloc ptr newSize) with ⟨_ | b, h'⟩
    · rwa [hanswer] at hs
    · rw [hanswer] at hs
      cases ptr with
      | none => exact hs
      | some p => exact hs.move (hlive p rfl)
  · rename_i hover
    have hs := sysAllocate_served maxAlign align hpos h
    rw [allocateRequest, if_neg hover] at hs
    rcases hanswer : sysAllocate maxAlign newSize align h with ⟨_ | b, h'⟩
    · rwa [hanswer] at hs
    · rw [hanswer] at hs
      cases ptr with
      | none => exact hs
      | some p => exact hs.move (hlive p rfl)

/-- The rounding does not pass the top of `usize`, or there is none. -/
def Fits (maxAlign size align : Nat) : Prop := align ≤ maxAlign ∨ size + align - 1 < 2 ^ 64

theorem le_allocateRequest_iff {maxAlign size k : Nat} (hsize : size < 2 ^ 64) (hk : k < 64) :
    size ≤ (allocateRequest maxAlign size (2 ^ k)).bytes ↔ Fits maxAlign size (2 ^ k) := by
  by_cases halign : 2 ^ k ≤ maxAlign
  · rw [allocateRequest, if_pos halign, Request.bytes_malloc]
    exact iff_of_true (Nat.le_refl size) (.inl halign)
  · rw [allocateRequest, if_neg halign, Request.bytes_alignedAlloc, le_rounded_iff hsize hk, Fits,
      or_iff_right halign]

/-- The request has room for what is wanted iff the rounding does not wrap. -/
theorem le_reallocateRequest_iff {maxAlign size k : Nat} (ptr : Option Block)
    (hsize : size < 2 ^ 64) (hk : k < 64) :
    size ≤ (reallocateRequest maxAlign ptr size (2 ^ k)).bytes ↔ Fits maxAlign size (2 ^ k) := by
  by_cases halign : 2 ^ k ≤ maxAlign
  · rw [reallocateRequest, if_pos halign, Request.bytes_realloc]
    exact iff_of_true (Nat.le_refl size) (.inl halign)
  · rw [reallocateRequest, if_neg halign, Request.bytes_alignedAlloc, le_rounded_iff hsize hk, Fits,
      or_iff_right halign]

theorem allocateRequest_wholeMultiple (maxAlign size : Nat) {k : Nat} (hk : k < 64) :
    (allocateRequest maxAlign size (2 ^ k)).WholeMultiple (2 ^ k) := by
  by_cases halign : 2 ^ k ≤ maxAlign
  · rw [allocateRequest, if_pos halign]
    exact True.intro
  · rw [allocateRequest, if_neg halign]
    exact And.intro rfl (dvd_rounded size hk)

theorem reallocateRequest_wholeMultiple (maxAlign size : Nat) (ptr : Option Block) {k : Nat}
    (hk : k < 64) : (reallocateRequest maxAlign ptr size (2 ^ k)).WholeMultiple (2 ^ k) := by
  by_cases halign : 2 ^ k ≤ maxAlign
  · rw [reallocateRequest, if_pos halign]
    exact True.intro
  · rw [reallocateRequest, if_neg halign]
    exact And.intro rfl (dvd_rounded size hk)

end CustLib.System
