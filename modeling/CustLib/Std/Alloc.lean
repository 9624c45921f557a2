import CustLib.Std.Types

/-!
# `std::alloc`: a pluggable allocator

The allocator a container is given may refuse any request. Which ones, and what fresh memory holds,
is fixed in advance by `refuses` and `junk`; the containers are verified for all of them. Blocks are
numbered by the request that returned them, and `log` records every call.
-/

namespace CustLib

/-! ## Calls and answers

A call is recorded with its answer, so that the protocol between a container and its allocator can be
read off the log (`CustLib.Std.Ledger`). `isRefusal` tells the calls that were answered by the null
pointer.
-/

/-- A block of memory (its address). -/
abbrev Block := Nat

/-- A call of the allocator, with its answer. `kept` is a refused `reallocate`, which leaves the old
    block as it is. -/
inductive AllocCall where
  | allocated (block : Block) (size align : Nat)
  | refused (size align : Nat)
  | deallocated (block : Block) (size align : Nat)
  | reallocated (old new : Block) (oldSize newSize align : Nat)
  | kept (block : Block) (oldSize newSize align : Nat)
  deriving DecidableEq, Repr

def AllocCall.isRefusal : AllocCall → Bool
  | .refused _ _ | .kept _ _ _ _ => true
  | _                            => false

/-- `struct cstd_alloc`, with the state behind its vtable: how many requests it has seen, and what it
    was asked. -/
structure Alloc where
  refuses  : Nat → Bool
  junk     : Block → Nat → UInt8
  requests : Nat
  log      : List AllocCall

/-! ## The three entry points

`cstd_alloc_allocate`, `cstd_alloc_reallocate` and `cstd_alloc_deallocate`. The first two count as
requests, and a request is refused or granted by its number alone: what is proved for every `refuses` is
proved for every pattern of failures. Their alignment goes into the log; the number of a block says
nothing about its address.
-/

def Alloc.allocate (a : Alloc) (size align : Nat) : Option Block × Alloc :=
  if a.refuses a.requests then
    (none, { a with requests := a.requests + 1, log := a.log ++ [.refused size align] })
  else
    (some a.requests,
      { a with requests := a.requests + 1, log := a.log ++ [.allocated a.requests size align] })

def Alloc.deallocate (a : Alloc) (block : Block) (size align : Nat) : Alloc :=
  { a with log := a.log ++ [.deallocated block size align] }

def Alloc.reallocate (a : Alloc) (block : Block) (oldSize newSize align : Nat) :
    Option Block × Alloc :=
  if a.refuses a.requests then
    (none, { a with requests := a.requests + 1,
                    log := a.log ++ [.kept block oldSize newSize align] })
  else
    (some a.requests,
      { a with requests := a.requests + 1,
               log := a.log ++ [.reallocated block a.requests oldSize newSize align] })

/-! ## What fresh memory holds

`malloc` does not clear its blocks. `junk` gives every byte of every block some value, and a
`reallocate` that grows a block has such bytes behind the old ones.
-/

/-- What the bytes from `i` on of a block of `size` bytes hold when nothing has been written there. -/
def Alloc.rest (a : Alloc) (block : Block) (i size : Nat) : List UInt8 :=
  (List.range' i (size - i)).map (a.junk block)

/-- What a block holds after `reallocate`: the bytes of the old one, as many as there is room for. -/
def Alloc.moved (a : Alloc) (block : Block) (bytes : List UInt8) (oldSize newSize : Nat) :
    List UInt8 :=
  let kept := min oldSize newSize
  bytes.take kept ++ a.rest block kept newSize

/-- What a fresh block holds, read as an array of `cap` elements of `n` bytes. -/
def Alloc.fresh (a : Alloc) (block : Block) (n cap : Nat) : List (Bytes n) :=
  (List.range cap).map fun i => Vector.ofFn fun b => a.junk block (i * n + b)

@[simp] theorem Alloc.length_fresh (a : Alloc) (block : Block) (n cap : Nat) :
    (a.fresh block n cap).length = cap := by
  simp [Alloc.fresh]

end CustLib
