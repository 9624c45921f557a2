import CustLib.Std.System

/-!
# `cust_execution::future`: the box of an immediately ready future

`cexec_future_ready_in` copies its payload behind a header into one block, whose size is the sum of
the two and may wrap. `requests_cover_iff` collects when the sizes computed for the system allocator
and for this box are large enough.
-/

namespace CustLib.ReadyBox

open CustLib.System

/-- `sizeof(struct ready_box)`: the allocator's two pointers and `size`. -/
def header : Nat := 24

def boxAlign : Nat := 8

/-- `struct ready_box`, less its allocator. `bytes` is what its block holds behind the header. -/
structure Box where
  block : Block
  size  : Nat
  bytes : List UInt8

/-! ## The functions of the source

`cexec_future_ready_in` with its box. Header and payload are in one block, so the payload begins
`header` bytes behind its start; a write or read that leaves the block gives `none`.
-/

/-- `cexec_future_ready_in`, once the allocator has answered with a block of `n` bytes: write the header
    and copy the payload. `none` is a write behind the end of the block. -/
def fill (b : Block) (n : Nat) (value : Option (List UInt8)) (size : Nat) (a : Alloc) :
    Option Box :=
  if n < header then none
  else
    let bytes := a.rest b header n
    match value with
    | some v =>
      if size ≠ 0 then
        if bytes.length < size then none else some ⟨b, size, v.take size ++ bytes.drop size⟩
      else some ⟨b, size, bytes⟩
    | none   => some ⟨b, size, bytes⟩

/-- `cexec_future_ready_in`. `value` is what the pointer points to, or the null pointer. The first
    component is `none` when memory behind the block was written, and `some none` is the null
    future. -/
def readyIn (value : Option (List UInt8)) (size : Nat) (a : Alloc) :
    Option (Option Box) × Alloc :=
  let n := wadd header size
  match a.allocate n boxAlign with
  | (none, a)   => (some none, a)
  | (some b, a) => ((fill b n value size a).map some, a)

/-- `ready_poll`: the bytes that are copied to `out`, when it is not null. `none` is a read behind the
    end of the box. -/
def readyPoll (b : Box) (out : Bool) : Option (List UInt8) :=
  if out ∧ b.size ≠ 0 then
    if b.bytes.length < b.size then none else some (b.bytes.take b.size)
  else some []

def readyDrop (b : Box) (a : Alloc) : Alloc := a.deallocate b.block (wadd header b.size) boxAlign

/-! ## What they do

The block is large enough exactly when the sum of header and size has not wrapped. Then the bytes that
the future yields are those that it was given.
-/

def Asked (a a' : Alloc) (n : Nat) : Prop :=
  a'.log = a.log ++ [.refused n boxAlign] ∨ ∃ b, a'.log = a.log ++ [.allocated b n boxAlign]

/-- Header and payload fit into the size asked for iff their sum does not wrap. -/
theorem le_wadd_iff {size : Nat} (hsize : size < 2 ^ 64) :
    header + size ≤ wadd header size ↔ header + size < 2 ^ 64 := by
  simp only [wadd, header]
  omega

@[simp] theorem length_rest (a : Alloc) (b : Block) (i n : Nat) :
    (a.rest b i n).length = n - i := by
  simp [Alloc.rest]

/-- A block with room for header and payload is filled: the payload comes first, the rest is what the
    block held. -/
theorem fill_eq (b : Block) (value : Option (List UInt8)) (size : Nat) (a : Alloc) :
    fill b (header + size) value size a = some ⟨b, size,
      (value.elim [] (List.take size)) ++
        (a.rest b header (header + size)).drop (if value.isSome then size else 0)⟩ := by
  rw [fill, if_neg (by omega)]
  cases value with
  | none => simp
  | some v =>
      by_cases hzero : size = 0
      · simp [hzero]
      · simp [hzero]

/-- The box is filled without leaving its block iff there is room for header and payload. -/
theorem fill_isSome_iff (b : Block) (value : Option (List UInt8)) {size : Nat} (a : Alloc)
    (hsize : size < 2 ^ 64) :
    (fill b (wadd header size) value size a).isSome ↔ header + size < 2 ^ 64 := by
  constructor
  · intro h
    by_contra hwrap
    have hshort : wadd header size < header := by
      simp only [wadd, header] at *
      omega
    simp [fill, hshort] at h
  · intro hfits
    rw [wadd_eq hfits, fill_eq]
    rfl

/-- The call when the allocator grants the request. -/
theorem readyIn_granted (value : Option (List UInt8)) (size : Nat) {a : Alloc}
    (hgrant : a.refuses a.requests = false) : ∃ a' : Alloc,
    a'.log = a.log ++ [.allocated a.requests (wadd header size) boxAlign] ∧
    readyIn value size a =
      ((fill a.requests (wadd header size) value size a').map some, a') := by
  refine ⟨(a.allocate (wadd header size) boxAlign).2, ?_, ?_⟩
  · simp [Alloc.allocate, hgrant]
  · simp [readyIn, Alloc.allocate, hgrant]

theorem readyIn_refused (value : Option (List UInt8)) (size : Nat) {a : Alloc}
    (href : a.refuses a.requests = true) : ∃ a' : Alloc,
    a'.log = a.log ++ [.refused (wadd header size) boxAlign] ∧
    readyIn value size a = (some none, a') := by
  refine ⟨(a.allocate (wadd header size) boxAlign).2, ?_, ?_⟩
  · simp [Alloc.allocate, href]
  · simp [readyIn, Alloc.allocate, href]

theorem readyIn_asked (value : Option (List UInt8)) (size : Nat) (a : Alloc) :
    Asked a (readyIn value size a).2 (wadd header size) := by
  cases hgrant : a.refuses a.requests with
  | false =>
      obtain ⟨a', hlog, hr⟩ := readyIn_granted value size hgrant
      rw [hr]
      exact .inr ⟨_, hlog⟩
  | true =>
      obtain ⟨a', hlog, hr⟩ := readyIn_refused value size hgrant
      rw [hr]
      exact .inl hlog

/-- A granted box is filled within its block iff the sum does not wrap. -/
theorem readyIn_inside_iff {value : Option (List UInt8)} {size : Nat} {a : Alloc}
    (hsize : size < 2 ^ 64) (hgrant : a.refuses a.requests = false) :
    (readyIn value size a).1.isSome ↔ header + size < 2 ^ 64 := by
  obtain ⟨a', -, hr⟩ := readyIn_granted value size hgrant
  rw [hr, Option.isSome_map]
  exact fill_isSome_iff a.requests value a' hsize

/-- A ready future yields its payload, and its block is given back as it was asked for. -/
theorem ready_yields {v : List UInt8} {a : Alloc} (hfits : header + v.length < 2 ^ 64)
    (hgrant : a.refuses a.requests = false) :
    ∃ b a', readyIn (some v) v.length a = (some (some b), a') ∧ readyPoll b true = some v ∧
      a'.log = a.log ++ [.allocated b.block (wadd header b.size) boxAlign] ∧
      (readyDrop b a').log = a'.log ++ [.deallocated b.block (wadd header b.size) boxAlign] := by
  obtain ⟨a', hlog, hr⟩ := readyIn_granted (some v) v.length hgrant
  rw [wadd_eq hfits, fill_eq] at hr
  refine ⟨_, a', hr, ?_, hlog, rfl⟩
  by_cases hnil : v = []
  · simp [readyPoll, hnil]
  · simp [readyPoll, hnil]

/-! ## Size arithmetic

The two sums that may wrap, next to each other: the rounding of the system allocator and the header of
the ready box.
-/

/-- **What is asked for has room, iff the size arithmetic does not wrap.** `sys_allocate` and
    `sys_reallocate` ask libc once, for a whole multiple of the alignment where `aligned_alloc` wants
    one, and get what they ask for or nothing. This is no less than the size they were asked for iff
    the rounding does not pass the top of `usize`. The box of a ready future is asked for with room
    for header and payload, and is filled within its block, iff their sum does not. -/
theorem requests_cover_iff (maxAlign size k : Nat) (hpos : 0 < size) (hsize : size < 2 ^ 64)
    (hk : k < 64) :
    (∀ h : Libc, ∃ r, Served h (sysAllocate maxAlign size (2 ^ k) h) r ∧
      r.WholeMultiple (2 ^ k) ∧ (size ≤ r.bytes ↔ Fits maxAlign size (2 ^ k))) ∧
    (∀ (h : Libc) (ptr : Option Block) (oldSize : Nat), (∀ p, ptr = some p → (h.blocks p).isSome) →
      ∃ r, Served h (sysReallocate maxAlign ptr oldSize size (2 ^ k) h) r ∧
        r.WholeMultiple (2 ^ k) ∧ (size ≤ r.bytes ↔ Fits maxAlign size (2 ^ k))) ∧
    ∀ (a : Alloc) (value : Option (List UInt8)) (payload : Nat), payload < 2 ^ 64 →
      ∃ n, Asked a (readyIn value payload a).2 n ∧
        (header + payload ≤ n ↔ header + payload < 2 ^ 64) ∧
        (a.refuses a.requests = false →
          ((readyIn value payload a).1.isSome ↔ header + payload < 2 ^ 64)) := by
  refine ⟨?_, ?_, ?_⟩
  · intro h
    exact ⟨_, sysAllocate_served maxAlign _ hpos h, allocateRequest_wholeMultiple maxAlign size hk,
      le_allocateRequest_iff hsize hk⟩
  · intro h ptr oldSize hlive
    exact ⟨_, sysReallocate_served hpos hlive, reallocateRequest_wholeMultiple maxAlign size ptr hk,
      le_reallocateRequest_iff ptr hsize hk⟩
  · intro a value payload hpayload
    exact ⟨_, readyIn_asked value payload a, le_wadd_iff hpayload, readyIn_inside_iff hpayload⟩

/-- A heap that grants everything and holds nothing yet. -/
def emptyHeap : Libc where
  refuses  := fun _ => false
  junk     := fun _ _ => 0
  blocks   := fun _ => none
  requests := []
  overrun  := false
  fresh    := fun _ _ => rfl

/-- 100 bytes aligned to a cache line. -/
theorem requests_cover_iff_line :
    ∃ r, Served emptyHeap (sysAllocate 16 100 64 emptyHeap) r ∧ r.WholeMultiple 64 ∧
      100 ≤ r.bytes := by
  obtain ⟨r, hserved, hmul, hroom⟩ :=
    (requests_cover_iff 16 100 6 (by decide) (by decide) (by decide)).1 emptyHeap
  exact ⟨r, hserved, hmul, hroom.mpr (.inr (by decide))⟩

/-- Near the top of `usize` the rounded size wraps to 0, and the size of a ready future's box to less
    than its header. -/
theorem wrapped_requests :
    (sysAllocate 16 (2 ^ 64 - 16) 32 emptyHeap).1 = some 0 ∧
    (sysAllocate 16 (2 ^ 64 - 16) 32 emptyHeap).2.requests = [.alignedAlloc 32 0] ∧
    (sysAllocate 16 (2 ^ 64 - 16) 32 emptyHeap).2.blocks 0 = some [] ∧
    ∀ a : Alloc, (readyIn none (2 ^ 64 - 1) a).2.log = a.log ++ [.refused 23 8] ∨
      (readyIn none (2 ^ 64 - 1) a).1 = none ∧
        ∃ b, (readyIn none (2 ^ 64 - 1) a).2.log = a.log ++ [.allocated b 23 8] := by
  refine ⟨rfl, rfl, rfl, ?_⟩
  intro a
  have hn : wadd header (2 ^ 64 - 1) = 23 := rfl
  cases hgrant : a.refuses a.requests with
  | false =>
      obtain ⟨a', hlog, hr⟩ := readyIn_granted none (2 ^ 64 - 1) hgrant
      have hfill : fill a.requests 23 none (2 ^ 64 - 1) a' = none := rfl
      rw [hn] at hlog hr
      rw [hr, hfill]
      exact .inr ⟨rfl, _, hlog⟩
  | true =>
      obtain ⟨a', hlog, hr⟩ := readyIn_refused none (2 ^ 64 - 1) hgrant
      rw [hn] at hlog
      exact .inl (hr ▸ hlog)

end CustLib.ReadyBox
