import CustLib.Std.System

/-!
# `sys_reallocate` and the owner of the block

Who owns the old block after a reallocation is told by the answer: under the null pointer the
caller still does, and it is as it was; under a block it is gone, and its bytes are in the new one.
Two of the three ways through `sys_reallocate` keep to this, libc's `realloc` and the copy into an
aligned block, whose size must not wrap. The third does not: a reallocation to size 0 frees the
block and answers with the null pointer. `reallocate_tells_owner_iff` puts this together.

A block that is freed twice, or copied behind its end, raises `overrun` (`free_dead`), and a number
is never handed out again. So a block that was live, is not any more, and was given up without
raising `overrun`, was released exactly once. A block that `sys_deallocate` takes back at once leaves
the heap as it was (`allocate_deallocate`).
-/

namespace CustLib.System

/-! ## What a caller may rely on

The convention in `alloc.c` as a statement: what the answer of a reallocation says about the old block.
`Kept` and `Released` are the two answers, and both say what became of every other block.
-/

structure Kept (h h' : Libc) : Prop where
  blocks  : h'.blocks = h.blocks
  overrun : h'.overrun = h.overrun

/-- The block `p` was released, once, and no block but `p` and the ones in `new` has changed. -/
structure Released (h h' : Libc) (p : Block) (new : Option Block) : Prop where
  live    : (h.blocks p).isSome
  gone    : h'.blocks p = none
  overrun : h'.overrun = h.overrun
  others  : ∀ c, c ≠ p → some c ≠ new → h'.blocks c = h.blocks c

/-- The block `b` starts with the first `n` bytes of `old`. -/
def StartsWith (h : Libc) (b : Block) (old : List UInt8) (n : Nat) : Prop :=
  ∃ bytes, h.blocks b = some bytes ∧ n ≤ bytes.length ∧ bytes.take n = old.take n

/-- What the answer to a reallocation of `p` says of its owner, when `p` holds `old` and `n` bytes
    of it fit into the new size. -/
structure TellsOwner (h : Libc) (p : Block) (old : List UInt8) (n : Nat)
    (answer : Option Block × Libc) : Prop where
  null  : answer.1 = none → Kept h answer.2
  block : ∀ b, answer.1 = some b →
    b ≠ p ∧ Released h answer.2 p (some b) ∧ StartsWith answer.2 b old n

/-! ## The calls of libc

One lemma for each call of libc that a reallocation makes: what it does to the blocks, and when it does
not raise `overrun`.
-/

section Calls

variable {h : Libc} {p b : Block}

/-- A second `free` is noticed. -/
theorem free_dead (hp : h.blocks p = none) : (h.free (some p)).overrun = true := by
  simp [Libc.free, hp]

/-- A live block is freed. -/
theorem free_live {bytes : List UInt8} (hp : h.blocks p = some bytes) :
    (h.free (some p)).blocks = Function.update h.blocks p none ∧
      (h.free (some p)).overrun = h.overrun := by
  have hlive : (h.blocks p).isSome := by simp [hp]
  simp only [Libc.free, dif_pos hlive]
  exact ⟨rfl, rfl⟩

/-- The block is released by `free`. -/
theorem released_free {bytes : List UInt8} (hp : h.blocks p = some bytes) :
    Released h (h.free (some p)) p none := by
  obtain ⟨hblocks, hover⟩ := free_live hp
  refine ⟨by simp [hp], by simp [hblocks], hover, ?_⟩
  intro c hc _
  rw [hblocks, Function.update_of_ne hc]

/-- A copy that stays in both blocks. -/
theorem memcpy_within {d s : List UInt8} {n : Nat} (hb : h.blocks b = some d)
    (hp : h.blocks p = some s) (hd : n ≤ d.length) (hs : n ≤ s.length) :
    (h.memcpy b p n).blocks = Function.update h.blocks b (some (s.take n ++ d.drop n)) ∧
      (h.memcpy b p n).overrun = h.overrun := by
  have hlive : (h.blocks b).isSome := by simp [hb]
  have hget : (h.blocks b).get hlive = d := by simp [hb]
  simp only [Libc.memcpy, hp, dif_pos hlive, hget, if_pos (And.intro hd hs)]
  exact ⟨rfl, rfl⟩

/-- A request that is refused leaves the heap alone. -/
theorem serve_none {r : Request} {h' : Libc} (hr : h.serve r = (none, h')) : Kept h h' := by
  unfold Libc.serve at hr
  dsimp only at hr
  split at hr
  · cases hr
    exact ⟨rfl, rfl⟩
  · cases hr

/-- A request that is granted adds a block of the size asked for. -/
theorem serve_some {r : Request} {h' : Libc} (hr : h.serve r = (some b, h')) :
    h.blocks b = none ∧ h'.overrun = h.overrun ∧ ∃ bytes, bytes.length = r.bytes ∧
      h'.blocks = Function.update h.blocks b (some bytes) := by
  unfold Libc.serve at hr
  dsimp only at hr
  split at hr
  · cases hr
  · cases hr
    exact ⟨h.fresh _ le_rfl, rfl, _, by simp, rfl⟩

/-- The old block is copied into a new one and freed. -/
theorem move_released {h' : Libc} {r : Request} (hr : h.serve r = (some b, h')) {old : List UInt8}
    (hp : h.blocks p = some old) {k n : Nat} (hk : k ≤ old.length) (hroom : k ≤ r.bytes)
    (hn : n ≤ k) :
    b ≠ p ∧ Released h ((h'.memcpy b p k).free (some p)) p (some b) ∧
      StartsWith ((h'.memcpy b p k).free (some p)) b old n := by
  obtain ⟨hnew, hover, bytes, hlen, hblocks⟩ := serve_some hr
  -- the number of the new block was not in use
  have hbp : b ≠ p := by
    rintro rfl
    rw [hnew] at hp
    cases hp
  have hb' : h'.blocks b = some bytes := by simp [hblocks]
  have hp' : h'.blocks p = some old := by simp [hblocks, hbp.symm, hp]
  obtain ⟨hcopy, hcopyover⟩ := memcpy_within hb' hp' (hlen ▸ hroom) hk
  have hp'' : (h'.memcpy b p k).blocks p = some old := by simp [hcopy, hbp.symm, hp']
  obtain ⟨hfree, hfreeover⟩ := free_live hp''
  refine ⟨hbp, ⟨by simp [hp], by simp [hfree], hfreeover.trans (hcopyover.trans hover), ?_⟩, ?_⟩
  · intro c hcp hcb
    have hcb : c ≠ b := fun heq => hcb (congrArg some heq)
    rw [hfree, Function.update_of_ne hcp, hcopy, Function.update_of_ne hcb, hblocks,
      Function.update_of_ne hcb]
  · refine ⟨old.take k ++ bytes.drop k, by simp [hfree, hcopy, hbp], ?_, ?_⟩
    · rw [List.length_append, List.length_take]
      omega
    · rw [List.take_append_of_le_length (by rw [List.length_take]; omega), List.take_take,
        Nat.min_eq_left hn]

/-- A request, and the `free` of what it got. -/
theorem serve_free (h : Libc) (r : Request) : Kept h ((h.serve r).2.free (h.serve r).1) := by
  rcases hr : h.serve r with ⟨_ | b, h'⟩
  · exact serve_none hr
  · obtain ⟨hnew, hover, bytes, -, hblocks⟩ := serve_some hr
    have hb : h'.blocks b = some bytes := by simp [hblocks]
    obtain ⟨hfree, hfreeover⟩ := free_live hb
    refine ⟨?_, hfreeover.trans hover⟩
    rw [hfree, hblocks, Function.update_idem, ← hnew, Function.update_eq_self]

end Calls

/-- **An allocation that is given back leaves no trace**, whatever `sys_allocate` answered. -/
theorem allocate_deallocate (maxAlign size align : Nat) (h : Libc) :
    Kept h (sysDeallocate (sysAllocate maxAlign size align h).1
      (sysAllocate maxAlign size align h).2) := by
  unfold sysAllocate
  split
  · exact ⟨rfl, rfl⟩
  · split
    · exact serve_free h (.malloc size)
    · exact serve_free h (.alignedAlloc align (rounded size align))

/-! ## The three ways of `sys_reallocate`

The way through libc's `realloc`, the copy into an aligned block, and the `free` at size 0. The first
keeps to the convention always and the last never. The copy keeps to it when the new block has room, so
exactly when the rounding does not wrap or nothing has to be copied.
-/

/-- What `sys_reallocate` does beyond the alignment of `malloc`: `c` bytes are copied into an aligned
    block of `n`, and the old block is freed. -/
def moveAligned (h : Libc) (p : Block) (align n c : Nat) : Option Block × Libc :=
  match h.alignedAlloc align n with
  | (none, h)       => (none, h)
  | (some fresh, h) => (some fresh, (h.memcpy fresh p c).free (some p))

section Reallocate

variable {h : Libc} {p : Block} {old : List UInt8} {maxAlign oldSize newSize align : Nat}

/-- libc's `realloc` copies what there is room for, as far as the old block goes. -/
theorem realloc_tellsOwner (hp : h.blocks p = some old) (hsize : oldSize ≤ old.length) :
    TellsOwner h p old (min oldSize newSize) (h.realloc (some p) newSize) := by
  unfold Libc.realloc
  rcases hr : h.serve (.realloc (some p) newSize) with ⟨_ | b, h'⟩
  · exact ⟨fun _ => serve_none hr, nofun⟩
  · obtain ⟨hnew, -, bytes, -, hblocks⟩ := serve_some hr
    have hp' : h'.blocks p = some old := by
      have hbp : p ≠ b := by
        rintro rfl
        rw [hnew] at hp
        cases hp
      rw [hblocks, Function.update_of_ne hbp, hp]
    refine ⟨nofun, ?_⟩
    rintro c ⟨⟩
    have hk : (h'.blocks p).elim 0 List.length = old.length := by simp [hp']
    simp only [hk]
    exact move_released hr hp (Nat.min_le_left _ _) (Nat.min_le_right _ _)
      (min_le_min_right newSize hsize)

/-- The copy of `c` bytes into an aligned block of `n`. -/
theorem aligned_tellsOwner {n c : Nat} (hp : h.blocks p = some old) (hc : c ≤ old.length)
    (hroom : h.refuses h.requests.length = true ∨ c ≤ n) :
    TellsOwner h p old c (moveAligned h p align n c) := by
  unfold moveAligned Libc.alignedAlloc
  rcases hr : h.serve (.alignedAlloc align n) with ⟨_ | b, h'⟩
  · exact ⟨fun _ => serve_none hr, by simp⟩
  · have hfits : c ≤ n := hroom.resolve_left fun href => by simp [Libc.serve, href] at hr
    refine ⟨by simp, ?_⟩
    rintro _ ⟨⟩
    exact move_released hr hp hc hfits (Nat.le_refl c)

/-- `sys_reallocate` of a block beyond the alignment of `malloc`. -/
theorem sysReallocate_aligned (hpos : newSize ≠ 0) (hover : ¬align ≤ maxAlign) :
    sysReallocate maxAlign (some p) oldSize newSize align h =
      moveAligned h p align (rounded newSize align) (min oldSize newSize) := by
  have hcopy : (if oldSize < newSize then oldSize else newSize) = min oldSize newSize := by
    split <;> omega
  rcases hfresh : h.alignedAlloc align (rounded newSize align) with ⟨_ | fresh, h'⟩
  · simp only [sysReallocate, sysAllocate, moveAligned, if_neg hpos, if_neg hover, hfresh]
  · simp only [sysReallocate, sysAllocate, moveAligned, if_neg hpos, if_neg hover, hfresh, hcopy]

/-- A reallocation to size 0 frees the block, and answers with the null pointer. -/
theorem reallocate_zero (maxAlign oldSize align : Nat) (hp : h.blocks p = some old) :
    (sysReallocate maxAlign (some p) oldSize 0 align h).1 = none ∧
      Released h (sysReallocate maxAlign (some p) oldSize 0 align h).2 p none :=
  ⟨rfl, released_free hp⟩

/-- So the owner is told wrong. -/
theorem not_tellsOwner_zero (hp : h.blocks p = some old) (n : Nat) :
    ¬TellsOwner h p old n (sysReallocate maxAlign (some p) oldSize 0 align h) := by
  intro howner
  obtain ⟨hnull, hreleased⟩ := reallocate_zero maxAlign oldSize align hp
  have hgone := hreleased.gone
  rw [(howner.null hnull).blocks, hp] at hgone
  cases hgone

/-- A copy does not fit into an aligned block that is too small for it. -/
theorem not_tellsOwner_short {n c : Nat} (hgrant : h.refuses h.requests.length = false)
    (hshort : n < c) :
    ¬TellsOwner h p old c (moveAligned h p align n c) := by
  intro howner
  rcases hr : h.serve (.alignedAlloc align n) with ⟨_ | b, h'⟩
  · simp [Libc.serve, hgrant] at hr
  · simp only [moveAligned, Libc.alignedAlloc, hr] at howner
    obtain ⟨hbp, -, bytes, hbytes, hlen, -⟩ := howner.block b rfl
    -- neither the copy nor the `free` of the old block changes the size of the new one
    have hserved := (served_serve h (.alignedAlloc align n)).room b (by rw [hr])
    rw [hr] at hserved
    obtain ⟨room, hroom, hsize⟩ := (hserved.2.memcpy (p := b) (q := p) (k := c)).free hbp
    rw [hbytes] at hroom
    cases hroom
    rw [Request.bytes_alignedAlloc] at hsize
    omega

/-- The copy into an aligned block keeps to the convention iff it fits, or is not made. -/
theorem aligned_tellsOwner_iff {n c : Nat} (hp : h.blocks p = some old) (hc : c ≤ old.length) :
    TellsOwner h p old c (moveAligned h p align n c) ↔
      h.refuses h.requests.length = true ∨ c ≤ n := by
  constructor
  · intro howner
    cases hgrant : h.refuses h.requests.length with
    | true => exact .inl rfl
    | false =>
        refine .inr (Nat.le_of_not_lt fun hshort => ?_)
        exact not_tellsOwner_short hgrant hshort howner
  · exact aligned_tellsOwner hp hc

end Reallocate

/-- A rounding that passes the top of `usize` leaves nothing. -/
theorem rounded_wrapped {size k : Nat} (hsize : size < 2 ^ 64) (hk : k < 64)
    (hwrap : ¬size + 2 ^ k - 1 < 2 ^ 64) : rounded size (2 ^ k) = 0 := by
  have hpos := Nat.two_pow_pos k
  have hmod : (size + 2 ^ k - 1) % 2 ^ 64 = size + 2 ^ k - 1 - 2 ^ 64 := by
    have hlt : 2 ^ k < 2 ^ 64 := Nat.pow_lt_pow_right (by decide) hk
    rw [Nat.mod_eq_sub_mod (by omega), Nat.mod_eq_of_lt (by omega)]
  rw [rounded_eq hk, hmod, Nat.div_eq_of_lt (by omega), Nat.zero_mul]

/-- What is copied fits into the rounded size iff the rounding does not pass the top of `usize`, or
    nothing is copied. -/
theorem copy_le_rounded_iff (oldSize : Nat) {newSize k : Nat} (hpos : 0 < newSize)
    (hnew : newSize < 2 ^ 64) (hk : k < 64) :
    min oldSize newSize ≤ rounded newSize (2 ^ k) ↔ newSize + 2 ^ k - 1 < 2 ^ 64 ∨ oldSize = 0 := by
  by_cases hfits : newSize + 2 ^ k - 1 < 2 ^ 64
  · have hroom := (le_rounded_iff hnew hk).mpr hfits
    exact iff_of_true ((Nat.min_le_right _ _).trans hroom) (.inl hfits)
  · rw [rounded_wrapped hnew hk hfits, or_iff_right hfits]
    omega

/-- **The answer to a reallocation tells who owns the old block, iff the new size is not 0 and the
    rounding does not wrap** (or has no consequence: libc refuses, or nothing is copied). With the
    null pointer everything is as it was. With a block, the old one was released, once, and the new
    one starts with as many of its bytes as were promised and fit. The old block may be longer than
    the size it was asked for, by the rounding. -/
theorem reallocate_tells_owner_iff (maxAlign oldSize newSize k : Nat) (hnew : newSize < 2 ^ 64)
    (hk : k < 64) {h : Libc} {p : Block} {old : List UInt8} (hp : h.blocks p = some old)
    (hsize : oldSize ≤ old.length) :
    TellsOwner h p old (min oldSize newSize)
        (sysReallocate maxAlign (some p) oldSize newSize (2 ^ k) h) ↔
      newSize ≠ 0 ∧
        (Fits maxAlign newSize (2 ^ k) ∨ h.refuses h.requests.length = true ∨ oldSize = 0) := by
  rcases Nat.eq_zero_or_pos newSize with rfl | hpos
  · exact iff_of_false (not_tellsOwner_zero hp _) fun hcond => hcond.1 rfl
  have hne : newSize ≠ 0 := Nat.ne_of_gt hpos
  by_cases halign : 2 ^ k ≤ maxAlign
  · refine iff_of_true ?_ ⟨hne, .inl (.inl halign)⟩
    rw [sysReallocate, if_neg hne, if_pos halign]
    exact realloc_tellsOwner hp hsize
  have hcopy : min oldSize newSize ≤ old.length := (Nat.min_le_left _ _).trans hsize
  rw [sysReallocate_aligned hne halign, aligned_tellsOwner_iff hp hcopy,
    copy_le_rounded_iff oldSize hpos hnew hk, Fits, or_iff_right halign]
  tauto

/-- A heap with one block of four bytes, which grants everything. -/
def oneBlock : Libc where
  refuses  := fun _ => false
  junk     := fun _ _ => 0
  blocks   := fun b => if b = 0 then some [1, 2, 3, 4] else none
  requests := [.malloc 4]
  overrun  := false
  fresh    := fun b hb => if_neg (by rintro rfl; exact absurd hb (by decide))

/-- The block grows to eight bytes. -/
theorem reallocate_tells_owner_iff_grow :
    TellsOwner oneBlock 0 [1, 2, 3, 4] 4 (sysReallocate 16 (some 0) 4 8 (2 ^ 0) oneBlock) :=
  (reallocate_tells_owner_iff 16 4 8 0 (by decide) (by decide) (h := oneBlock) rfl (by decide)).mpr
    ⟨by decide, .inl (.inl (by decide))⟩

/-- At size 0 the answer is the null pointer and the block is gone; a caller that takes itself for
    the owner frees it a second time. A size whose rounding wraps gets a block without room for the
    copy. -/
theorem freed_under_null :
    ¬TellsOwner oneBlock 0 [1, 2, 3, 4] 0 (sysReallocate 16 (some 0) 4 0 1 oneBlock) ∧
    (sysReallocate 16 (some 0) 4 0 1 oneBlock).1 = none ∧
    ((sysReallocate 16 (some 0) 4 0 1 oneBlock).2.free (some 0)).overrun = true ∧
    (sysReallocate 16 (some 0) 4 (2 ^ 64 - 16) 32 oneBlock).1 = some 1 ∧
    (sysReallocate 16 (some 0) 4 (2 ^ 64 - 16) 32 oneBlock).2.overrun = true := by
  refine ⟨?_, rfl, rfl, rfl, rfl⟩
  intro howner
  have hkept := congrFun (howner.null rfl).blocks 0
  cases hkept

end CustLib.System
