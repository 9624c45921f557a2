import CustLib.Lib.History
import CustLib.Lib.Machine
import Mathlib.Algebra.Group.Nat.Defs

/-!
# `std::rc` and `std::arc`: reference counts

The counter of an object, and the references to it that its owners hold. `std_arc_put` is two atomic
steps and a call, between which other owners act; `std_rc_put` is one step. An owner takes a reference
only while it holds one, and gives up only what it holds.

The counter is a `u32` that nothing checks. It counts the references modulo `2 ^ 32`, so a put at one
more than a multiple of `2 ^ 32` references takes its own for the last one (`rcPut_early`). In runs
without such a put, `release` is called once, by the put that gives up the last reference, and exactly
this put returns true (`released_at_last`).
-/

namespace CustLib.Refcount

open CustLib.History
open CustLib.Machine (run RunIn)

variable {O : Type} [DecidableEq O]

/-! ## Histories

What is right is said about the history, not about the counter: `Rightly` gives for every event the
condition on what came before. A put of an `std_arc` has three moments, its decrement, its call of
`release` if it makes one, and its return.
-/

/-- What happens to the references of an object: `gave` is the decrement of a put, `returned` its
    return. -/
inductive Event (O : Type) where
  | got (o : O)
  | gave (o : O)
  | released (o : O)
  | returned (o : O) (last : Bool)
  deriving DecidableEq, Repr

/-- The number of references to the object, of which there is one at first. -/
def outstanding (log : List (Event O)) : Nat :=
  log.foldl (fun n e => match e with
    | .got _ => n + 1
    | .gave _ => n - 1
    | _ => n) 1

/-- One event, for `inPut`: the number of references, and how many the put of `o` has left. -/
def putStep (o : O) : Nat × Option Nat → Event O → Nat × Option Nat
  | (n, left), .got _        => (n + 1, left)
  | (n, left), .gave p       => (n - 1, if p = o then some (n - 1) else left)
  | (n, left), .released _   => (n, left)
  | (n, left), .returned p _ => (n, if p = o then none else left)

/-- How many references the put that `o` is executing has left. -/
def inPut (o : O) (log : List (Event O)) : Option Nat := (log.foldl (putStep o) (1, none)).2

/-- What has to come before an event: `release` is called by the put that has left no reference, and not
    before; this put returns true, and every other put false. -/
def Rightly (pre : List (Event O)) : Event O → Prop
  | .got _ | .gave _ => True
  | .released o => inPut o pre = some 0 ∧ outstanding pre = 0 ∧ ∀ p, .released p ∉ pre
  | .returned o true => inPut o pre = some 0 ∧ .released o ∈ pre
  | .returned o false => ∃ n, inPut o pre = some (n + 1)

section Logs

variable (log : List (Event O)) (o p : O)

omit [DecidableEq O] in
@[simp] theorem outstanding_got : outstanding (log ++ [.got o]) = outstanding log + 1 := by
  simp [outstanding]

omit [DecidableEq O] in
@[simp] theorem outstanding_gave : outstanding (log ++ [.gave o]) = outstanding log - 1 := by
  simp [outstanding]

omit [DecidableEq O] in
@[simp] theorem outstanding_released : outstanding (log ++ [.released o]) = outstanding log := by
  simp [outstanding]

omit [DecidableEq O] in
@[simp] theorem outstanding_returned (b : Bool) :
    outstanding (log ++ [.returned o b]) = outstanding log := by
  simp [outstanding]

theorem putStep_fst : (log.foldl (putStep o) (1, none)).1 = outstanding log := by
  induction log using List.reverseRecOn with
  | nil => rfl
  | append_singleton log e ih =>
      rw [List.foldl_append, List.foldl_cons, List.foldl_nil]
      cases e <;> simp [putStep, ih]

@[simp] theorem inPut_got : inPut o (log ++ [.got p]) = inPut o log := by
  simp [inPut, putStep]

@[simp] theorem inPut_gave :
    inPut o (log ++ [.gave p]) = if p = o then some (outstanding log - 1) else inPut o log := by
  simp [inPut, putStep, putStep_fst]

@[simp] theorem inPut_released : inPut o (log ++ [.released p]) = inPut o log := by
  simp [inPut, putStep]

@[simp] theorem inPut_returned (b : Bool) :
    inPut o (log ++ [.returned p b]) = if p = o then none else inPut o log := by
  simp [inPut, putStep]

/-- A return ends no other put. -/
theorem inPut_of_returned {log : List (Event O)} {o p : O} {b : Bool} {n : Nat}
    (h : inPut p (log ++ [.returned o b]) = some n) : inPut p log = some n := by
  rw [inPut_returned] at h
  split at h
  · exact absurd h nofun
  · exact h

end Logs

/-! ## `std::arc`

The counter, and the owners around it. `arcStep` is one atomic operation of one owner; between two of
them any other owner may act. A reference may be handed to another owner, since nothing in the source
ties it to a thread.
-/

/-- `struct std_arc`; the atomic operations on it are steps of `arcStep`. -/
structure Arc where
  count : UInt32
  deriving DecidableEq, Repr

def stdArcInit : Arc := ⟨1⟩

def stdArcGet (a : Arc) : Arc := ⟨a.count + 1⟩

/-- The first step of `std_arc_put`, `atomic_fetch_sub`, with the old count. -/
def fetchSub (a : Arc) : UInt32 × Arc := (a.count, ⟨a.count - 1⟩)

/-- Where an owner is in `std_arc_put`: not in it; about to test the old count; behind the fence, about
    to call `release`; about to return true. -/
inductive Pc where
  | outside
  | fetched (old : UInt32)
  | fenced
  | released
  deriving DecidableEq, Repr

structure ArcSys (O : Type) where
  arc  : Arc
  held : List O
  pc   : O → Pc
  log  : List (Event O)

def ArcSys.init (o : O) : ArcSys O := ⟨stdArcInit, [o], fun _ => .outside, []⟩

/-- What an owner does next: take a reference, hand one to another owner, enter `std_arc_put`, or take
    the next step in it. -/
inductive Act (O : Type) where
  | get (o : O)
  | hand (o p : O)
  | put (o : O)
  | next (o : O)
  deriving DecidableEq, Repr

def arcStep (s : ArcSys O) : Act O → Option (ArcSys O)
  | .get o =>
    if o ∈ s.held ∧ s.pc o = .outside then
      some { s with arc := stdArcGet s.arc, held := o :: s.held, log := s.log ++ [.got o] }
    else none
  | .hand o p =>
    if o ∈ s.held ∧ s.pc o = .outside then some { s with held := p :: s.held.erase o } else none
  | .put o =>
    if o ∈ s.held ∧ s.pc o = .outside then
      let (old, arc) := fetchSub s.arc
      some { arc, held := s.held.erase o, pc := Function.update s.pc o (.fetched old),
             log := s.log ++ [.gave o] }
    else none
  | .next o =>
    match s.pc o with
    | .outside => none
    | .fetched old =>
      if old = 1 then some { s with pc := Function.update s.pc o .fenced }
      else some { s with pc := Function.update s.pc o .outside,
                         log := s.log ++ [.returned o false] }
    | .fenced =>
      some { s with pc := Function.update s.pc o .released, log := s.log ++ [.released o] }
    | .released =>
      some { s with pc := Function.update s.pc o .outside, log := s.log ++ [.returned o true] }

/-- No reference is given up at one more than a positive multiple of `2 ^ 32` references. -/
def NoWrap (s : ArcSys O) : Act O → Prop
  | .put _ => s.held.length % 2 ^ 32 = 1 → s.held.length = 1
  | _ => True

/-- What holds at every moment: the history is right, and if there is no reference left, then `release`
    has been called or is going to be. -/
structure Proper (s : ArcSys O) : Prop where
  rightly : Each Rightly s.log
  invoked : outstanding s.log = 0 →
    (∃ o, .released o ∈ s.log) ∨ ∃ o, s.pc o = .fetched 1 ∨ s.pc o = .fenced

/-! ## The invariant of an `std_arc`

The counter is the number of references, up to a wrap. While there is a reference, no put has been the
last one and nothing was released; afterwards exactly one put is on its way through fence and `release`.
`PcOk` says what the history knows of an owner in the middle of its put, and each atomic step has a
lemma of its own.
-/

/-- What the position of an owner says about the history. -/
def PcOk (log : List (Event O)) (o : O) : Pc → Prop
  | .outside => True
  | .fetched old => ∃ n, inPut o log = some n ∧ (old = 1 ↔ n = 0) ∧ (n = 0 → ∀ p, .released p ∉ log)
  | .fenced => inPut o log = some 0 ∧ ∀ p, .released p ∉ log
  | .released => inPut o log = some 0 ∧ .released o ∈ log

/-- Events that are not about the put of an owner. -/
theorem PcOk.congr {log log' : List (Event O)} {o : O} {c : Pc} (h : PcOk log o c)
    (hput : inPut o log' = inPut o log)
    (hrel : ∀ p, .released p ∈ log' ↔ .released p ∈ log) : PcOk log' o c := by
  cases c with
  | outside => trivial
  | fetched old =>
      obtain ⟨n, hn, hold, hnone⟩ := h
      exact ⟨n, hput.trans hn, hold, fun hzero p => mt (hrel p).mp (hnone hzero p)⟩
  | fenced => exact ⟨hput.trans h.1, fun p => mt (hrel p).mp (h.2 p)⟩
  | released => exact ⟨hput.trans h.1, (hrel o).mpr h.2⟩

structure Inv (s : ArcSys O) : Prop where
  held     : s.held.length = outstanding s.log
  count    : s.arc.count.toNat = s.held.length % 2 ^ 32
  last     : ∀ o, inPut o s.log = some 0 → outstanding s.log = 0
  unique   : ∀ o p, inPut o s.log = some 0 → inPut p s.log = some 0 → o = p
  released : ∀ o, .released o ∈ s.log → outstanding s.log = 0
  pc       : ∀ o, PcOk s.log o (s.pc o)
  proper   : Proper s

section Invariant

variable {s : ArcSys O} {o : O}

/-- Nothing is final while a reference is held. -/
theorem Inv.not_last (h : Inv s) (ho : o ∈ s.held) :
    0 < outstanding s.log ∧ (∀ p, inPut p s.log ≠ some 0) ∧ ∀ p, .released p ∉ s.log := by
  have hpos : 0 < outstanding s.log := h.held ▸ List.length_pos_of_mem ho
  exact ⟨hpos, fun p hp => absurd (h.last p hp) (Nat.ne_of_gt hpos),
    fun p hp => absurd (h.released p hp) (Nat.ne_of_gt hpos)⟩

theorem Inv.init (o : O) : Inv (ArcSys.init o) where
  held     := rfl
  count    := rfl
  last     := nofun
  unique   := nofun
  released := nofun
  pc       := fun _ => trivial
  proper   := ⟨each_nil, nofun⟩

/-- A new reference is counted. -/
theorem Inv.get (h : Inv s) (ho : o ∈ s.held) :
    Inv { s with arc := stdArcGet s.arc, held := o :: s.held, log := s.log ++ [.got o] } := by
  obtain ⟨hpos, hput, hrel⟩ := h.not_last ho
  constructor
  case held => simp [h.held]
  case count =>
    have hcount := h.count
    simp only [stdArcGet, UInt32.toNat_add, List.length_cons, UInt32.reduceToNat]
    omega
  case last => exact fun p hp => absurd (by simpa using hp) (hput p)
  case unique => exact fun p q hp => absurd (by simpa using hp) (hput p)
  case released => exact fun p hp => absurd (by simpa using hp) (hrel p)
  case pc => exact fun p => (h.pc p).congr (by simp) (by simp)
  case proper =>
    refine ⟨each_concat.mpr ⟨h.proper.rightly, trivial⟩, fun hzero => ?_⟩
    simp at hzero

/-- A reference changes its owner. -/
theorem Inv.hand (h : Inv s) (ho : o ∈ s.held) (p : O) :
    Inv { s with held := p :: s.held.erase o } := by
  have hlength : (p :: s.held.erase o).length = s.held.length := by
    rw [List.length_cons, List.length_erase_add_one ho]
  exact { h with held := hlength.trans h.held, count := hlength ▸ h.count,
                 proper := ⟨h.proper.rightly, h.proper.invoked⟩ }

/-- The old count is 1 iff the reference is the last one. -/
theorem Inv.old_eq_one (h : Inv s) (hwrap : NoWrap s (.put o)) :
    s.arc.count = 1 ↔ s.held.length = 1 := by
  have hcount := h.count
  have hone : s.arc.count = 1 ↔ s.arc.count.toNat = 1 := UInt32.toNat_inj.symm
  rw [hone, hcount]
  exact ⟨hwrap, fun hlen => by omega⟩

/-- The decrement takes a reference back; it is the last one iff it reads 1. -/
theorem Inv.put (h : Inv s) (ho : o ∈ s.held) (hwrap : NoWrap s (.put o)) :
    Inv { arc := (fetchSub s.arc).2, held := s.held.erase o,
          pc := Function.update s.pc o (.fetched (fetchSub s.arc).1), log := s.log ++ [.gave o] } := by
  obtain ⟨hpos, hput, hrel⟩ := h.not_last ho
  have hold := h.old_eq_one hwrap
  have hlength := List.length_erase_add_one ho
  have hheld := h.held
  -- only the put that is starting can have left no reference
  have hlast : ∀ p, inPut p (s.log ++ [.gave o]) = some 0 → p = o ∧ outstanding s.log = 1 := by
    intro p hp
    rw [inPut_gave] at hp
    split at hp
    next heq =>
      have hzero : outstanding s.log - 1 = 0 := Option.some.inj hp
      exact ⟨heq.symm, by omega⟩
    · exact absurd hp (hput p)
  constructor
  case held =>
    rw [outstanding_gave]
    show (s.held.erase o).length = _
    omega
  case count =>
    have hcount := h.count
    simp only [fetchSub, UInt32.toNat_sub, UInt32.reduceToNat]
    omega
  case last =>
    intro p hp
    obtain ⟨-, hone⟩ := hlast p hp
    simp [hone]
  case unique => exact fun p q hp hq => (hlast p hp).1.trans (hlast q hq).1.symm
  case released => exact fun p hp => absurd (by simpa using hp) (hrel p)
  case pc =>
    refine (Function.forall_update_iff s.pc (fun p => PcOk _ p)).mpr ⟨?_, fun p hp => ?_⟩
    · refine ⟨outstanding s.log - 1, by simp, ?_, by simpa using fun _ => hrel⟩
      show s.arc.count = 1 ↔ _
      rw [hold]
      omega
    · exact (h.pc p).congr (by simp [Ne.symm hp]) (by simp)
  case proper =>
    refine ⟨each_concat.mpr ⟨h.proper.rightly, trivial⟩, fun hzero => .inr ⟨o, .inl ?_⟩⟩
    rw [outstanding_gave] at hzero
    have hone : s.arc.count = 1 := hold.mpr (by omega)
    show Function.update s.pc o _ o = _
    rw [Function.update_self, fetchSub, hone]

/-- The test of the old count: the last put goes on to the fence, any other returns false. -/
theorem Inv.tests {old : UInt32} (h : Inv s) (hpc : s.pc o = .fetched old) :
    Inv (if old = 1 then { s with pc := Function.update s.pc o .fenced }
      else { s with pc := Function.update s.pc o .outside, log := s.log ++ [.returned o false] }) := by
  have hself := h.pc o
  rw [hpc] at hself
  obtain ⟨n, hput, hold, hrel⟩ := hself
  by_cases hone : old = 1
  · -- it was the last reference, and stays so until `release`
    rw [if_pos hone]
    have hzero : n = 0 := hold.mp hone
    subst hzero
    refine { h with pc := ?_, proper := ⟨h.proper.rightly, fun hout => ?_⟩ }
    · refine (Function.forall_update_iff s.pc (fun p => PcOk _ p)).mpr ⟨⟨hput, hrel rfl⟩, ?_⟩
      exact fun p _ => h.pc p
    · exact .inr ⟨o, .inr (Function.update_self _ _ _)⟩
  · rw [if_neg hone]
    have hpos : n ≠ 0 := fun hzero => hone (hold.mpr hzero)
    constructor
    case held => simpa using h.held
    case count => exact h.count
    case last => exact fun p hp => by simpa using h.last p (inPut_of_returned hp)
    case unique => exact fun p q hp hq => h.unique p q (inPut_of_returned hp) (inPut_of_returned hq)
    case released => exact fun p hp => by simpa using h.released p (by simpa using hp)
    case pc =>
      refine (Function.forall_update_iff s.pc (fun p => PcOk _ p)).mpr ⟨trivial, fun p hp => ?_⟩
      exact (h.pc p).congr (by simp [Ne.symm hp]) (by simp)
    case proper =>
      refine ⟨each_concat.mpr ⟨h.proper.rightly, n - 1, ?_⟩, fun hzero => ?_⟩
      · rw [hput, Nat.sub_add_cancel (Nat.pos_of_ne_zero hpos)]
      · rcases h.proper.invoked (by simpa using hzero) with ⟨p, hp⟩ | ⟨p, hp⟩
        · exact .inl ⟨p, List.mem_append_left _ hp⟩
        · have hne : p ≠ o := by
            rintro rfl
            rw [hpc] at hp
            rcases hp with hp | hp
            · exact hone (Pc.fetched.inj hp)
            · exact absurd hp nofun
          refine .inr ⟨p, ?_⟩
          show Function.update s.pc o _ p = _ ∨ Function.update s.pc o _ p = _
          rwa [Function.update_of_ne hne]

/-- The call of `release`. -/
theorem Inv.releases (h : Inv s) (hpc : s.pc o = .fenced) :
    Inv { s with pc := Function.update s.pc o .released, log := s.log ++ [.released o] } := by
  have hself := h.pc o
  rw [hpc] at hself
  obtain ⟨hput, hrel⟩ := hself
  have hzero := h.last o hput
  constructor
  case held => simpa using h.held
  case count => exact h.count
  case last => exact fun p hp => by simpa using h.last p (by simpa using hp)
  case unique => exact fun p q hp hq => h.unique p q (by simpa using hp) (by simpa using hq)
  case released => exact fun p _ => by simpa using hzero
  case pc =>
    refine (Function.forall_update_iff s.pc (fun p => PcOk _ p)).mpr ⟨by simpa [PcOk], ?_⟩
    intro p hp
    have hpc := h.pc p
    -- no other put can have left no reference
    have hne : inPut p s.log ≠ some 0 := fun hpz => hp (h.unique p o hpz hput)
    cases hcase : s.pc p with
    | outside => trivial
    | fetched old =>
        rw [hcase] at hpc
        obtain ⟨n, hn, hold, -⟩ := hpc
        refine ⟨n, by simpa using hn, hold, fun hnz => ?_⟩
        rw [hnz] at hn
        exact absurd hn hne
    | fenced =>
        rw [hcase] at hpc
        exact absurd hpc.1 hne
    | released =>
        rw [hcase] at hpc
        exact absurd hpc.1 hne
  case proper =>
    refine ⟨each_concat.mpr ⟨h.proper.rightly, hput, hzero, hrel⟩, fun _ => .inl ⟨o, ?_⟩⟩
    exact List.mem_append_right _ List.mem_cons_self

/-- The put that called `release` returns. -/
theorem Inv.returns (h : Inv s) (hpc : s.pc o = .released) :
    Inv { s with pc := Function.update s.pc o .outside, log := s.log ++ [.returned o true] } := by
  have hself := h.pc o
  rw [hpc] at hself
  obtain ⟨hput, hrel⟩ := hself
  constructor
  case held => simpa using h.held
  case count => exact h.count
  case last => exact fun p hp => by simpa using h.last p (inPut_of_returned hp)
  case unique => exact fun p q hp hq => h.unique p q (inPut_of_returned hp) (inPut_of_returned hq)
  case released => exact fun p hp => by simpa using h.released p (by simpa using hp)
  case pc =>
    refine (Function.forall_update_iff s.pc (fun p => PcOk _ p)).mpr ⟨trivial, fun p hp => ?_⟩
    exact (h.pc p).congr (by simp [Ne.symm hp]) (by simp)
  case proper =>
    refine ⟨each_concat.mpr ⟨h.proper.rightly, hput, hrel⟩, fun _ => .inl ⟨o, ?_⟩⟩
    exact List.mem_append_left _ hrel

theorem Inv.step {a : Act O} {s' : ArcSys O} (h : Inv s) (hwrap : NoWrap s a)
    (hs : arcStep s a = some s') : Inv s' := by
  cases a with
  | get o =>
      obtain ⟨⟨ho, -⟩, hs⟩ := Option.ite_none_right_eq_some.mp hs
      cases hs
      exact h.get ho
  | hand o p =>
      obtain ⟨⟨ho, -⟩, hs⟩ := Option.ite_none_right_eq_some.mp hs
      cases hs
      exact h.hand ho p
  | put o =>
      obtain ⟨⟨ho, -⟩, hs⟩ := Option.ite_none_right_eq_some.mp hs
      cases hs
      exact h.put ho hwrap
  | next o =>
      cases hpc : s.pc o with
      | outside => simp [arcStep, hpc] at hs
      | fetched old =>
          have htests := h.tests hpc
          simp only [arcStep, hpc] at hs
          split at hs <;> grind
      | fenced =>
          simp only [arcStep, hpc, Option.some.injEq] at hs
          exact hs ▸ h.releases hpc
      | released =>
          simp only [arcStep, hpc, Option.some.injEq] at hs
          exact hs ▸ h.returns hpc

/-- The invariant holds of every run. -/
theorem arc_inv {o : O} {as : List (Act O)} (h : RunIn arcStep NoWrap (ArcSys.init o) as s) :
    Inv s :=
  h.invariant (fun _ _ _ hinv hwrap hs => hinv.step hwrap hs) (Inv.init o)

end Invariant

/-! ## `std::rc`

The same counter without atomics. A put runs through in one step, so a run of an `std_rc` is a run of an
`std_arc` in which no owner acts during the put of another, and the theorem about the one gives the
theorem about the other.
-/

structure Rc where
  count : UInt32
  deriving DecidableEq, Repr

def stdRcInit : Rc := ⟨1⟩

def stdRcGet (r : Rc) : Rc := ⟨r.count + 1⟩

/-- `std_rc_put`: whether it has called `release`, which is what it returns. -/
def stdRcPut (r : Rc) : Bool × Rc :=
  let count := r.count - 1
  (count == 0, ⟨count⟩)

structure RcSys (O : Type) where
  rc   : Rc
  held : List O
  log  : List (Event O)

def RcSys.init (o : O) : RcSys O := ⟨stdRcInit, [o], []⟩

inductive RcAct (O : Type) where
  | get (o : O)
  | hand (o p : O)
  | put (o : O)
  deriving DecidableEq, Repr

def rcStep (s : RcSys O) : RcAct O → Option (RcSys O)
  | .get o =>
    if o ∈ s.held then
      some { s with rc := stdRcGet s.rc, held := o :: s.held, log := s.log ++ [.got o] }
    else none
  | .hand o p => if o ∈ s.held then some { s with held := p :: s.held.erase o } else none
  | .put o =>
    if o ∈ s.held then
      let (last, rc) := stdRcPut s.rc
      some { rc, held := s.held.erase o,
             log := s.log ++ .gave o :: (if last then [.released o] else []) ++
               [.returned o last] }
    else none

/-- The condition of `NoWrap` on the calls of an `std_rc`. -/
def RcNoWrap (s : RcSys O) : RcAct O → Prop
  | .put _ => s.held.length % 2 ^ 32 = 1 → s.held.length = 1
  | _ => True

/-- The steps of an `std_arc` that a call on an `std_rc` amounts to. -/
def RcAct.acts (last : Bool) : RcAct O → List (Act O)
  | .get o => [.get o]
  | .hand o p => [.hand o p]
  | .put o => if last then [.put o, .next o, .next o, .next o] else [.put o, .next o]

/-- An `std_rc` is an `std_arc` whose owners do not act during a put. -/
def RcSys.arc (s : RcSys O) : ArcSys O := ⟨⟨s.rc.count⟩, s.held, fun _ => .outside, s.log⟩

section Rc

variable {s s' : RcSys O} {o : O}

theorem stdRcPut_last (r : Rc) : (stdRcPut r).1 = true ↔ r.count = 1 := by
  rw [stdRcPut, beq_iff_eq, UInt32.sub_eq_iff_eq_add, UInt32.zero_add]

/-- A call on an `std_rc` is a run of the `std_arc`. -/
theorem rcStep_runs {a : RcAct O} (hwrap : RcNoWrap s a) (h : rcStep s a = some s') :
    RunIn arcStep NoWrap s.arc (a.acts (stdRcPut s.rc).1) s'.arc := by
  cases a with
  | get o =>
      obtain ⟨ho, h⟩ := Option.ite_none_right_eq_some.mp h
      cases h
      refine .cons trivial ?_ .nil
      exact if_pos ⟨ho, rfl⟩
  | hand o p =>
      obtain ⟨ho, h⟩ := Option.ite_none_right_eq_some.mp h
      cases h
      refine .cons trivial ?_ .nil
      exact if_pos ⟨ho, rfl⟩
  | put o =>
      obtain ⟨ho, h⟩ := Option.ite_none_right_eq_some.mp h
      cases h
      by_cases hone : s.rc.count = 1
      · have hlast : (s.rc.count - 1 == 0) = true := (stdRcPut_last s.rc).mpr hone
        simp only [stdRcPut, hlast]
        refine .cons hwrap (if_pos ⟨ho, rfl⟩) (.of_forall (by simp [NoWrap]) ?_)
        -- the test of the old count, the call of `release`, the return
        simp [arcStep, RcSys.arc, hone]
      · have hlast : (s.rc.count - 1 == 0) = false :=
          Bool.eq_false_iff.mpr fun hlast => hone ((stdRcPut_last s.rc).mp hlast)
        simp only [stdRcPut, hlast]
        refine .cons hwrap (if_pos ⟨ho, rfl⟩) (.of_forall (by simp [NoWrap]) ?_)
        simp [arcStep, RcSys.arc, hone]

end Rc

/-! ## The condition is sharp

From one owner `2 ^ 32` gets bring the counter back to where it was. The put that follows reads 1 and
takes its reference for the last one, in both modules: it calls `release`, and returns true, while all
the other references are held.
-/

section Sharp

variable (o : O) (k : Nat)

/-- After `k` gets the counter is `k + 1` modulo `2 ^ 32`. -/
theorem rc_gets : run rcStep (RcSys.init o) (List.replicate k (.get o)) =
    some ⟨⟨UInt32.ofNat (k + 1)⟩, List.replicate (k + 1) o, List.replicate k (.got o)⟩ := by
  induction k with
  | zero => rfl
  | succ k ih =>
      rw [List.replicate_succ', Machine.run_concat_iff]
      refine ⟨_, ih, (if_pos (List.mem_replicate.mpr ⟨k.succ_ne_zero, rfl⟩)).trans ?_⟩
      rw [stdRcGet, UInt32.ofNat_add (k + 1) 1, ← List.replicate_succ']
      rfl

/-- The same of an `std_arc`. -/
theorem arc_gets : run arcStep (ArcSys.init o) (List.replicate k (.get o)) =
    some ⟨⟨UInt32.ofNat (k + 1)⟩, List.replicate (k + 1) o, fun _ => .outside,
      List.replicate k (.got o)⟩ := by
  induction k with
  | zero => rfl
  | succ k ih =>
      rw [List.replicate_succ', Machine.run_concat_iff]
      refine ⟨_, ih, (if_pos ⟨List.mem_replicate.mpr ⟨k.succ_ne_zero, rfl⟩, rfl⟩).trans ?_⟩
      rw [stdArcGet, UInt32.ofNat_add (k + 1) 1, ← List.replicate_succ']
      rfl

omit [DecidableEq O] in
theorem outstanding_gets : outstanding (List.replicate k (.got o)) = k + 1 := by
  induction k with
  | zero => rfl
  | succ k ih => rw [List.replicate_succ', outstanding_got, ih]

/-- A release at the decrement that follows `k` gets is wrong. -/
theorem not_rightly_gets (hk : 0 < k) {rest : List (Event O)} :
    ¬ Each Rightly (List.replicate k (.got o) ++ .gave o :: .released o :: rest) := by
  intro heach
  obtain ⟨-, hzero, -⟩ := heach (List.replicate k (.got o) ++ [.gave o]) (.released o) rest (by simp)
  rw [outstanding_gave, outstanding_gets] at hzero
  omega

theorem count_wrapped {k : Nat} (hwrap : (k + 1) % 2 ^ 32 = 1) : UInt32.ofNat (k + 1) = 1 := by
  apply UInt32.toNat_inj.mp
  rw [UInt32.toNat_ofNat']
  exact hwrap

/-- A put at one more than a multiple of `2 ^ 32` references calls `release`, with all the other
    references still held. -/
theorem rcPut_early (hwrap : (k + 1) % 2 ^ 32 = 1) (hk : 0 < k) :
    ∃ s, run rcStep (RcSys.init o) (List.replicate k (.get o) ++ [.put o]) = some s ∧
      s.held.length = k ∧ .released o ∈ s.log ∧ ¬ Each Rightly s.log := by
  have hheld : o ∈ List.replicate (k + 1) o := List.mem_replicate.mpr ⟨k.succ_ne_zero, rfl⟩
  refine ⟨_, Machine.run_concat_iff.mpr ⟨_, rc_gets o k, if_pos hheld⟩, ?_, ?_, ?_⟩
  · exact (List.length_erase_of_mem hheld).trans (by simp)
  · simp [count_wrapped hwrap]
  · simpa [count_wrapped hwrap] using not_rightly_gets o k hk

/-- A put of an `std_arc` that reads 1, and that nobody disturbs. -/
theorem arc_put_alone {s : ArcSys O} (ho : o ∈ s.held) (hpc : s.pc = fun _ => .outside)
    (hone : s.arc.count = 1) :
    run arcStep s [.put o, .next o, .next o, .next o] = some
      { arc := ⟨0⟩, held := s.held.erase o, pc := fun _ => .outside,
        log := s.log ++ [.gave o, .released o, .returned o true] } := by
  -- the decrement, the test of the old count, the call of `release`, the return
  simp [arcStep, fetchSub, ho, hpc, hone]

/-- The same of the put of an `std_arc`, up to its return. -/
theorem arcPut_early (hwrap : (k + 1) % 2 ^ 32 = 1) (hk : 0 < k) :
    ∃ s, run arcStep (ArcSys.init o)
        (List.replicate k (.get o) ++ [.put o, .next o, .next o, .next o]) = some s ∧
      s.held.length = k ∧ .released o ∈ s.log ∧ .returned o true ∈ s.log ∧
      ¬ Each Rightly s.log := by
  have hheld : o ∈ List.replicate (k + 1) o := List.mem_replicate.mpr ⟨k.succ_ne_zero, rfl⟩
  rw [Machine.run_append, arc_gets]
  refine ⟨_, arc_put_alone o hheld rfl (count_wrapped hwrap), ?_, ?_, ?_, ?_⟩
  · exact (List.length_erase_of_mem hheld).trans (by simp)
  · simp
  · simp
  · exact not_rightly_gets o k hk

end Sharp

/-! ## Every run

The invariant goes through all interleavings of an `std_arc`, and a run of an `std_rc` is one of them
(`rcStep_runs`).
-/

/-- **Release at the last reference, once.** In every run without a put at one more than a positive
    multiple of `2 ^ 32` references, for `std_rc` and for `std_arc` under every interleaving. At such a
    put it fails: `rcPut_early`, `arcPut_early`. -/
theorem released_at_last {o : O} :
    (∀ {as : List (RcAct O)} {s : RcSys O}, RunIn rcStep RcNoWrap (RcSys.init o) as s →
      s.held.length = outstanding s.log ∧ Each Rightly s.log ∧
      (outstanding s.log = 0 → ∃ p, .released p ∈ s.log)) ∧
    ∀ {as : List (Act O)} {s : ArcSys O}, RunIn arcStep NoWrap (ArcSys.init o) as s →
      s.held.length = outstanding s.log ∧ Proper s := by
  constructor
  · intro as s h
    obtain ⟨bs, harc⟩ : ∃ bs, RunIn arcStep NoWrap (RcSys.init o).arc bs s.arc :=
      h.simulate fun _ _ _ hwrap hs => ⟨_, rcStep_runs hwrap hs⟩
    have hinv := arc_inv harc
    refine ⟨hinv.held, hinv.proper.rightly, fun hzero => ?_⟩
    -- no put is in progress between two calls
    rcases hinv.proper.invoked hzero with hrel | ⟨p, hpc | hpc⟩
    · exact hrel
    · exact absurd hpc nofun
    · exact absurd hpc nofun
  · intro as s h
    exact ⟨(arc_inv h).held, (arc_inv h).proper⟩

/-- Two references, given up by two owners whose puts overlap. -/
theorem released_at_last_two :
    (∃ s, RunIn rcStep RcNoWrap (RcSys.init 0) [.get 0, .hand 0 1, .put 0, .put 1] s ∧
      .released 1 ∈ s.log ∧ Each Rightly s.log) ∧
    ∃ s, RunIn arcStep NoWrap (ArcSys.init 0)
        [.get 0, .hand 0 1, .put 0, .put 1, .next 1, .next 0, .next 1, .next 1] s ∧
      .returned 1 true ∈ s.log ∧ Proper s := by
  have hrc : RunIn rcStep RcNoWrap (RcSys.init 0) [.get 0, .hand 0 1, .put 0, .put 1] _ :=
    .cons trivial rfl <| .cons trivial rfl <| .cons nofun rfl <| .cons (fun _ => rfl) rfl .nil
  have harc : RunIn arcStep NoWrap (ArcSys.init 0)
      [.get 0, .hand 0 1, .put 0, .put 1, .next 1, .next 0, .next 1, .next 1] _ :=
    .cons trivial rfl <| .cons trivial rfl <| .cons nofun rfl <| .cons (fun _ => rfl) rfl <|
      .cons trivial rfl <| .cons trivial rfl <| .cons trivial rfl <| .cons trivial rfl .nil
  exact ⟨⟨_, hrc, by decide, (released_at_last.1 hrc).2.1⟩,
    ⟨_, harc, by decide, (released_at_last.2 harc).2⟩⟩

/-- After `2 ^ 32` gets the next put calls `release` while `2 ^ 32` references are held. -/
theorem released_early : ∃ s : RcSys Unit,
    run rcStep (RcSys.init ()) (List.replicate (2 ^ 32) (.get ()) ++ [.put ()]) = some s ∧
      s.held.length = 2 ^ 32 ∧ .released () ∈ s.log ∧ ¬ Each Rightly s.log :=
  rcPut_early () (2 ^ 32) rfl (by decide)

end CustLib.Refcount
