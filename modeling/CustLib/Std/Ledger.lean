import Mathlib.Data.Multiset.AddSub
import CustLib.Lib.History
import CustLib.Lib.Machine
import CustLib.Std.Growth

/-!
# The ledger of an allocator

From the calls that were made it follows which blocks are live, with which size and alignment
(`live`). A call is fair if the block it names is live and has the size and alignment it passes.
`Holds log R` says that every call was fair and that exactly the blocks `R` are live. `Turns P E a E' a'`
says what a program does to the blocks it owns; there is one rule for each call of the allocator, and a
frame rule.
-/

namespace CustLib.Ledger

open CustLib.History

/-! ## Live blocks

Which blocks are live follows from the log alone: an allocation adds its block, a reallocation exchanges
it, a deallocation takes it out. A call that was refused changes nothing. `Fair` is the rule of
`alloc.c` for a caller: the block that is named is live, and its size and alignment are passed as they
were asked for.
-/

abbrev Entry := Block × Nat × Nat

/-- The block that a call names, with what it passes. -/
def names : AllocCall → Multiset Entry
  | .allocated _ _ _ | .refused _ _          => 0
  | .deallocated b size align                => {(b, size, align)}
  | .reallocated old _ oldSize _ align       => {(old, oldSize, align)}
  | .kept b oldSize _ align                  => {(b, oldSize, align)}

/-- What a call changes: the blocks that are live after it, when `R` were before. -/
def after (R : Multiset Entry) : AllocCall → Multiset Entry
  | .allocated b size align                  => (b, size, align) ::ₘ R
  | .reallocated old new oldSize size align  => (new, size, align) ::ₘ R.erase (old, oldSize, align)
  | .deallocated b size align                => R.erase (b, size, align)
  | .refused _ _ | .kept _ _ _ _             => R

def live (log : List AllocCall) : Multiset Entry := log.foldl after 0

def Fair (pre : List AllocCall) (call : AllocCall) : Prop := ∀ e ∈ names call, e ∈ live pre

def sizes : AllocCall → List Nat
  | .allocated _ size _ | .refused size _ | .deallocated _ size _ => [size]
  | .reallocated _ _ oldSize newSize _ | .kept _ oldSize newSize _ => [oldSize, newSize]

/-- Every call was fair, and exactly the blocks `R` are live. -/
structure Holds (log : List AllocCall) (R : Multiset Entry) : Prop where
  fair : Each Fair log
  live : live log = R

def entry (ptr : Option Block) (size align : Nat) : Multiset Entry :=
  match ptr with
  | none   => 0
  | some b => {(b, size, align)}

/-! ## One rule a call

The ledger is kept by every call that is fair: the block that it names is replaced by the one that it
returns.
-/

section Rules

variable {log : List AllocCall} {R : Multiset Entry} {a a' : Alloc} {size align : Nat}

theorem holds_nil : Holds [] 0 := ⟨each_nil, rfl⟩

theorem live_concat (log : List AllocCall) (call : AllocCall) :
    Ledger.live (log ++ [call]) = after (Ledger.live log) call := by
  rw [Ledger.live, List.foldl_append]
  rfl

/-- **A fair call.** -/
theorem Holds.call (h : Holds log R) {call : AllocCall} (hfair : ∀ e ∈ names call, e ∈ R) :
    Holds (log ++ [call]) (after R call) := by
  constructor
  · refine each_concat.mpr ⟨h.fair, ?_⟩
    rw [Fair, h.live]
    exact hfair
  · rw [live_concat, h.live]

end Rules

/-! ## What a program does to the blocks

`Turns P E a E' a'` is a triple without a program: from the allocator `a` to `a'` the blocks `E` have
become `E'`, and the byte counts that were passed meet `P`. It composes (`trans`) and ignores blocks
that others own (`frame`), so that a function is proved with the blocks that it touches only.
-/

/-- From `a` to `a'` the blocks `E` have become `E'`, whatever other blocks are live, and the byte counts
    that were passed have `P`. -/
structure Turns (P : Nat → Prop) (E : Multiset Entry) (a : Alloc) (E' : Multiset Entry) (a' : Alloc) :
    Prop where
  holds  : ∀ R, Holds a.log (E + R) → Holds a'.log (E' + R)
  passed : ∃ calls, a'.log = a.log ++ calls ∧ ∀ call ∈ calls, ∀ n ∈ sizes call, P n

namespace Turns

variable {P Q : Nat → Prop} {E E' E'' F : Multiset Entry} {a a' a'' : Alloc} {size align : Nat}

theorem refl (P : Nat → Prop) (E : Multiset Entry) (a : Alloc) : Turns P E a E a :=
  ⟨fun _ => id, [], by simp, nofun⟩

theorem trans (h : Turns P E a E' a') (h' : Turns P E' a' E'' a'') : Turns P E a E'' a'' := by
  refine ⟨fun R hR => h'.holds R (h.holds R hR), ?_⟩
  obtain ⟨calls, hlog, hcalls⟩ := h.passed
  obtain ⟨calls', hlog', hcalls'⟩ := h'.passed
  refine ⟨calls ++ calls', by rw [hlog', hlog, List.append_assoc], fun call hcall => ?_⟩
  rcases List.mem_append.mp hcall with hcall | hcall
  · exact hcalls call hcall
  · exact hcalls' call hcall

/-- The blocks `E` are all there are. -/
theorem apply (h : Turns P E a E' a') (hE : Holds a.log E) : Holds a'.log E' := by
  have hholds := h.holds 0
  rw [Multiset.add_zero, Multiset.add_zero] at hholds
  exact hholds hE

/-- **Frame rule.** Blocks that are not touched may be added. -/
theorem frame (h : Turns P E a E' a') (F : Multiset Entry) : Turns P (E + F) a (E' + F) a' := by
  refine ⟨fun R hR => ?_, h.passed⟩
  rw [Multiset.add_assoc] at hR ⊢
  exact h.holds (F + R) hR

/-- New blocks next to others. -/
theorem beside (h : Turns P 0 a E a') (F : Multiset Entry) : Turns P F a (F + E) a' := by
  have hframe := h.frame F
  rwa [Multiset.zero_add, Multiset.add_comm] at hframe

/-- Blocks that are given up, next to others. -/
theorem release (h : Turns P E a 0 a') (F : Multiset Entry) : Turns P (F + E) a F a' := by
  have hframe := h.frame F
  rwa [Multiset.zero_add, Multiset.add_comm] at hframe

theorem mono (h : Turns P E a E' a') (hPQ : ∀ n, P n → Q n) : Turns Q E a E' a' := by
  obtain ⟨calls, hlog, hcalls⟩ := h.passed
  exact ⟨h.holds, calls, hlog, fun call hcall n hn => hPQ n (hcalls call hcall n hn)⟩

/-- One call. -/
theorem call {call : AllocCall} (hlog : a'.log = a.log ++ [call])
    (hfair : ∀ e ∈ names call, e ∈ E) (hafter : ∀ R, after (E + R) call = E' + R)
    (hsizes : ∀ n ∈ sizes call, P n) : Turns P E a E' a' := by
  refine ⟨fun R hR => ?_, [call], hlog, by simpa using hsizes⟩
  rw [hlog, ← hafter R]
  exact hR.call fun e he => Multiset.mem_add.mpr (.inl (hfair e he))

/-- An allocation adds its block, or nothing. -/
theorem allocate {res : Option Block} (hcall : a.allocate size align = (res, a')) (hsize : P size) :
    Turns P 0 a (match res with
      | none   => 0
      | some b => {(b, size, align)}) a' := by
  unfold Alloc.allocate at hcall
  split at hcall <;> cases hcall
  · exact .call rfl (by simp [names]) (fun R => rfl) (by simpa [sizes] using hsize)
  · exact .call rfl (by simp [names]) (fun R => by simp [after, Multiset.singleton_add])
      (by simpa [sizes] using hsize)

theorem deallocate {b : Block} (hsize : P size) :
    Turns P {(b, size, align)} a 0 (a.deallocate b size align) :=
  .call rfl (by simp [names]) (fun R => by simp [after, Multiset.singleton_add])
    (by simpa [sizes] using hsize)

/-- **`growBlock`** keeps the old block, or replaces it. -/
theorem growBlock {data : Option Block} {bytes : List UInt8} {oldBytes newBytes : Nat}
    {res : Option (Block × List UInt8)}
    (hgrow : growBlock data bytes oldBytes newBytes align a = (res, a')) (hold : P oldBytes)
    (hnew : P newBytes) :
    Turns P (entry data oldBytes align) a (match res with
      | none        => entry data oldBytes align
      | some (p, _) => entry (some p) newBytes align) a' := by
  have hlog := growBlock_log data bytes oldBytes newBytes align a
  rw [hgrow] at hlog
  refine .call hlog ?_ (fun R => ?_) ?_
  · cases data <;> cases res <;> simp [names, growCall, entry]
  · cases data <;> rcases res with _ | ⟨p, grown⟩ <;>
      simp [after, growCall, entry, Multiset.singleton_add]
  · cases data <;> cases res <;> simp [sizes, growCall, hold, hnew]

end Turns

/-- **Run rule.** A machine whose steps keep the ledger keeps it over a run. -/
theorem run_holds {σ α : Type*} {step : σ → α → Option σ} {alloc : σ → Alloc} {I : σ → Prop}
    (owned : σ → Multiset Entry) (hstep : ∀ s x s', I s → step s x = some s' →
      I s' ∧ ∃ P, Turns P (owned s) (alloc s) (owned s') (alloc s'))
    {s t : σ} {xs : List α} (hI : I s) (hs : Holds (alloc s).log (owned s))
    (hrun : Machine.run step s xs = some t) : I t ∧ Holds (alloc t).log (owned t) := by
  refine Machine.run_invariant (I := fun s => I s ∧ Holds (alloc s).log (owned s)) ?_ ⟨hI, hs⟩ hrun
  intro s x s' ⟨hI, hs⟩ hx
  obtain ⟨hI', P, hturns⟩ := hstep s x s' hI hx
  exact ⟨hI', hturns.apply hs⟩

/-- What the protocol says of a container `c` between two calls. `owned` are the blocks that its
    pointers refer to, `counts` the byte counts that a call computes, and `freed` those of `free`. -/
structure Follows {C Op Ret : Type} (exec : C → Alloc → Op → Option (Ret × C × Alloc))
    (free : C → Alloc → C × Alloc) (owned : C → Multiset Entry) (counts : C → Op → Nat → Prop)
    (freed : C → Nat → Prop) (c : C) (a : Alloc) : Prop where
  /-- Every call was fair, and the container's blocks are what is live. -/
  holds : Holds a.log (owned c)
  /-- The next call turns them into the blocks that the container has then. -/
  calls : ∀ op r c' a', exec c a op = some (r, c', a') →
    Turns (counts c op) (owned c) a (owned c') a'
  frees : Turns (freed c) (owned c) a 0 (free c a).2
  /-- After `free` nothing is live. -/
  empty : Holds (free c a).2.log 0

end CustLib.Ledger
