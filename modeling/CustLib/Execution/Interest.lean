import Mathlib.Algebra.BigOperators.Group.List.Basic
import Mathlib.Algebra.Order.Group.Multiset
import CustLib.Lib.Custody
import CustLib.Lib.Machine
import CustLib.Execution.Io

/-!
# `cust_execution::io`: descriptors and their interest futures

The calls around the park of `CustLib.Execution.Io`: `cexec_io_add`, `cexec_io_remove`, the close of
the driver, and the polls and drops of `readable` and `writable` futures. A future arms one slot of
its descriptor and leaves a clone of its waker there.

Clones are numbered in the order they are made, and a waker is the number of its clone. What became
of them is recorded in a history, which nothing in the model reads. `slot_accounting` says what
holds in every run: the counter, the table and the kernel's masks agree, every clone sits in an
armed slot or was consumed once, and no slot fires for another.
-/

namespace CustLib.Exec

open CustLib.Custody (Owns Token)

/-! ## Slots of a descriptor

Each descriptor has a slot to read and a slot to write; `want_write` picks one of them.
-/

def IoSched.armedAt (s : IoSched) (wantWrite : Bool) : Bool :=
  if wantWrite then s.writeArmed else s.readArmed

def IoSched.wakerAt (s : IoSched) (wantWrite : Bool) : TaskId :=
  if wantWrite then s.writeWaker else s.readWaker

def IoSched.arm (s : IoSched) (wantWrite : Bool) (waker : TaskId) : IoSched :=
  if wantWrite then { s with writeWaker := waker, writeArmed := true }
  else { s with readWaker := waker, readArmed := true }

def IoSched.disarm (s : IoSched) (wantWrite : Bool) : IoSched :=
  if wantWrite then { s with writeArmed := false } else { s with readArmed := false }

/-! ## The functions of the source

`find_sched`, `cexec_io_add`, `sched_free`, `cexec_io_remove`, `cexec_io_driver_close`, and the future
of `readable` and `writable` with `interest_new`, `interest_poll` and `interest_drop`. A function that
drops or wakes wakers returns them, so that their custody can be followed.
-/

def findSched (d : IoDriver) (fd : Int) : Option IoSched := d.fds.find? fun s => s.fd = fd

/-- What is done through the pointer that `find_sched` returns. -/
def updateSched (fd : Int) (f : IoSched → IoSched) : List IoSched → List IoSched
  | []        => []
  | s :: rest => if s.fd = fd then f s :: rest else s :: updateSched fd f rest

/-- `cexec_io_add`, with the answers of the allocator and of `EPOLL_CTL_ADD`. -/
def cexecIoAdd (d : IoDriver) (fd : Int) (alloc ctl : Bool) : Bool × IoDriver :=
  match findSched d fd with
  | some _ => (true, d)
  | none   =>
    if alloc && ctl then (true, { d with fds := d.fds ++ [⟨fd, 0, 0, false, false, 0⟩] })
    else (false, d)

/-- `sched_free`: the driver without `s`, and the wakers that it drops. -/
def schedFree (d : IoDriver) (s : IoSched) : IoDriver × List TaskId :=
  ({ d with fds := d.fds.erase s, armed := d.armed - s.readArmed.toNat - s.writeArmed.toNat },
    (if s.readArmed then [s.readWaker] else []) ++ (if s.writeArmed then [s.writeWaker] else []))

def cexecIoRemove (d : IoDriver) (fd : Int) : IoDriver × List TaskId :=
  match findSched d fd with
  | some s => schedFree d s
  | none   => (d, [])

/-- The loop of `cexec_io_driver_close`: each round frees the first descriptor of the table. -/
def freeSched (st : IoDriver × List TaskId) (s : IoSched) : IoDriver × List TaskId :=
  ((schedFree st.1 s).1, st.2 ++ (schedFree st.1 s).2)

def cexecIoDriverClose (d : IoDriver) : IoDriver × List TaskId := d.fds.foldl freeSched (d, [])

structure InterestBox where
  fd        : Int
  wantWrite : Bool
  armed     : Bool
  deriving DecidableEq, Repr

def InterestBox.source (b : InterestBox) : Int × Bool := (b.fd, b.wantWrite)

/-- `interest_new`, once the allocator has answered. -/
def interestNew (fd : Int) (wantWrite : Bool) : InterestBox := ⟨fd, wantWrite, false⟩

/-- `interest_poll`, with the clone that it makes of the waker if it arms the slot. -/
def interestPoll (d : IoDriver) (b : InterestBox) (clone : TaskId) :
    Bool × IoDriver × InterestBox :=
  match findSched d b.fd with
  | none   => (true, d, b)
  | some s =>
    if !b.armed then
      let arm := fun s : IoSched => schedUpdateInterest (s.arm b.wantWrite clone)
      (false, { d with fds := updateSched b.fd arm d.fds, armed := d.armed + 1 },
        { b with armed := true })
    else
      -- the park clears the flag of the slot when it fires it
      (!s.armedAt b.wantWrite, d, b)

def interestDrop (d : IoDriver) (b : InterestBox) : IoDriver × List TaskId :=
  match findSched d b.fd with
  | none   => (d, [])
  | some s =>
    if b.armed && s.armedAt b.wantWrite then
      let disarm := fun s : IoSched => schedUpdateInterest (s.disarm b.wantWrite)
      ({ d with fds := updateSched b.fd disarm d.fds, armed := d.armed - 1 },
        [s.wakerAt b.wantWrite])
    else (d, [])

/-! ## Programs around a driver

Futures are built, polled and dropped, descriptors come and go, and the park fires slots. Two futures
that wait for one direction of one descriptor would take the slot from each other; `Rival` names such
futures, and a run without them is the claim's proviso.
-/

/-- What becomes of the wakers. -/
inductive SlotEvent where
  /-- A future clones its waker into its slot. -/
  | cloned (waker : TaskId) (box : FutId)
  /-- The park fires the slot. -/
  | woken (waker : TaskId)
  /-- The future is dropped before its slot fired. -/
  | dropped (waker : TaskId)
  /-- The descriptor is removed, or the driver closed. -/
  | freed (waker : TaskId)
  deriving DecidableEq, Repr

/-- A driver, the interest futures that were built and not dropped, which of them have been polled,
    the numbers of the next future and the next clone, and the history of the wakers. -/
structure IoSys where
  d      : IoDriver
  boxes  : FutId → Option InterestBox
  polled : FutId → Bool
  next   : FutId
  clones : TaskId
  log    : List SlotEvent

def IoSys.init : IoSys where
  d      := ⟨[], [], 0⟩
  boxes  := fun _ => none
  polled := fun _ => false
  next   := 0
  clones := 0
  log    := []

inductive IoAct where
  | add (fd : Int) (alloc ctl : Bool)
  | remove (fd : Int)
  | new (fd : Int) (wantWrite : Bool)
  | poll (b : FutId)
  | drop (b : FutId)
  | park (now : Nat) (wait : Int → List EpollEvent) (now' : Nat)
  | timers (pending : List Timer)
  | close

/-- The slots that a park fires. -/
def parkWakes (d : IoDriver) (now : Nat) (wait : Int → List EpollEvent) : List TaskId :=
  if earliest d.pending = none ∧ d.armed = 0 then []
  else ((wait (waitTimeout (earliest d.pending) now)).foldl handleEvent (false, d, [])).2.2

def IoSys.poll (s : IoSys) (i : FutId) : Option IoSys := do
  let b ← s.boxes i
  let (_, d, b') := interestPoll s.d b s.clones
  let cloned := !b.armed && b'.armed
  return { s with d, boxes := Function.update s.boxes i (some b'),
                  polled := Function.update s.polled i true,
                  clones := s.clones + cloned.toNat,
                  log := s.log ++ if cloned then [.cloned s.clones i] else [] }

def IoSys.drop (s : IoSys) (i : FutId) : Option IoSys := do
  let b ← s.boxes i
  let (d, dropped) := interestDrop s.d b
  return { s with d, boxes := Function.update s.boxes i none, log := s.log ++ dropped.map .dropped }

def IoSys.step (s : IoSys) : IoAct → Option IoSys
  | .add fd alloc ctl => some { s with d := (cexecIoAdd s.d fd alloc ctl).2 }
  | .remove fd =>
    let (d, freed) := cexecIoRemove s.d fd
    some { s with d, log := s.log ++ freed.map .freed }
  | .new fd wantWrite =>
    some { s with boxes := Function.update s.boxes s.next (some (interestNew fd wantWrite)),
                  polled := Function.update s.polled s.next false, next := s.next + 1 }
  | .poll i => s.poll i
  | .drop i => s.drop i
  | .park now wait now' =>
    some { s with d := (ioDriverPark s.d now wait now').2.1,
                  log := s.log ++ (parkWakes s.d now wait).map .woken }
  | .timers pending => some { s with d := { s.d with pending } }
  | .close =>
    let (d, freed) := cexecIoDriverClose s.d
    some { s with d, log := s.log ++ freed.map .freed }

/-- `j` is another live future that has been polled, for the descriptor and direction of `i`. -/
def IoSys.Rival (s : IoSys) (i j : FutId) : Prop :=
  j ≠ i ∧ s.polled j = true ∧ (s.boxes j).isSome = true ∧
    (s.boxes i).map InterestBox.source = (s.boxes j).map InterestBox.source

instance (s : IoSys) (i j : FutId) : Decidable (s.Rival i j) := inferInstanceAs (Decidable (_ ∧ _))

/-- No future is first polled while it has a rival. -/
def IoSys.Alone (s : IoSys) : IoAct → Prop
  | .poll i => s.polled i = false → ∀ j < s.next, ¬ s.Rival i j
  | _ => True

instance (s : IoSys) : ∀ a, Decidable (s.Alone a)
  | .poll i => inferInstanceAs (Decidable (s.polled i = false → ∀ j < s.next, ¬ s.Rival i j))
  | .add .. | .remove _ | .new .. | .drop _ | .park .. | .timers _ | .close =>
    inferInstanceAs (Decidable True)

/-! ## The armed slots

The slots of a driver as a multiset: of one descriptor, of a table, of the driver.
-/

/-- An armed slot: its descriptor, its direction, and the waker in it. -/
structure Slot where
  fd        : Int
  wantWrite : Bool
  waker     : TaskId
  deriving DecidableEq, Repr

def IoSched.slotAt (s : IoSched) (wantWrite : Bool) : Multiset Slot :=
  if s.armedAt wantWrite then {⟨s.fd, wantWrite, s.wakerAt wantWrite⟩} else 0

def IoSched.slots (s : IoSched) : Multiset Slot := s.slotAt false + s.slotAt true

def slotsOf (fds : List IoSched) : Multiset Slot := (fds.map IoSched.slots).sum

def IoDriver.slots (d : IoDriver) : Multiset Slot := slotsOf d.fds

theorem card_slots (s : IoSched) :
    Multiset.card s.slots = s.readArmed.toNat + s.writeArmed.toNat := by
  cases hr : s.readArmed <;> cases hw : s.writeArmed <;>
    simp [IoSched.slots, IoSched.slotAt, IoSched.armedAt, hr, hw]

theorem card_slotsOf (d : IoDriver) : Multiset.card d.slots = d.armedSlots := by
  rw [IoDriver.slots, slotsOf, IoDriver.armedSlots]
  induction d.fds with
  | nil => rfl
  | cons s rest ih => simp [card_slots, ih]

/-- The slots of one descriptor, and of all others. -/
theorem slotsOf_split (l₁ l₂ : List IoSched) (s : IoSched) :
    slotsOf (l₁ ++ s :: l₂) = s.slots + slotsOf (l₁ ++ l₂) := by
  simp [slotsOf, add_left_comm]

theorem mem_slotAt {s : IoSched} {wantWrite : Bool} {x : Slot} : x ∈ s.slotAt wantWrite ↔
    s.armedAt wantWrite = true ∧ x = ⟨s.fd, wantWrite, s.wakerAt wantWrite⟩ := by
  unfold IoSched.slotAt
  split <;> simp [*]

theorem mem_sched_slots {s : IoSched} {x : Slot} : x ∈ s.slots ↔
    s.armedAt x.wantWrite = true ∧ x = ⟨s.fd, x.wantWrite, s.wakerAt x.wantWrite⟩ := by
  rw [IoSched.slots, Multiset.mem_add, mem_slotAt, mem_slotAt]
  constructor
  · intro h
    rcases h with ⟨harmed, rfl⟩ | ⟨harmed, rfl⟩ <;> exact ⟨harmed, rfl⟩
  · intro h
    cases hdir : x.wantWrite <;> rw [hdir] at h
    · exact .inl h
    · exact .inr h

theorem mem_slots {d : IoDriver} {x : Slot} : x ∈ d.slots ↔ ∃ s ∈ d.fds, x ∈ s.slots := by
  rw [IoDriver.slots, slotsOf]
  induction d.fds with
  | nil => simp
  | cons s rest ih => simp [ih]

/-! ## The descriptor that is found

`find_sched` finds the one registered descriptor with this number.
-/

theorem findSched_none {d : IoDriver} {fd : Int} (h : findSched d fd = none) :
    ∀ s ∈ d.fds, s.fd ≠ fd := by
  rw [findSched, List.find?_eq_none] at h
  exact fun s hs => by simpa using h s hs

/-- The table around the descriptor that is found. -/
theorem findSched_split {d : IoDriver} {fd : Int} {s : IoSched} (h : findSched d fd = some s) :
    s.fd = fd ∧ ∃ l₁ l₂, d.fds = l₁ ++ s :: l₂ ∧
      ∀ f, updateSched fd f d.fds = l₁ ++ f s :: l₂ := by
  rw [findSched, List.find?_eq_some_iff_append] at h
  obtain ⟨hfd, l₁, l₂, hfds, hbefore⟩ := h
  have hfd : s.fd = fd := by simpa using hfd
  refine ⟨hfd, l₁, l₂, hfds, ?_⟩
  intro f
  rw [hfds]
  clear hfds
  induction l₁ with
  | nil => simp [updateSched, hfd]
  | cons x l₁ ih =>
      have hx : x.fd ≠ fd := by simpa using hbefore x List.mem_cons_self
      rw [List.cons_append, updateSched, if_neg hx, ih fun y hy => hbefore y (by simp [hy])]
      rfl

/-- The slots of a descriptor are those with its number. -/
theorem mem_slots_fd {d : IoDriver} (hd : d.Wf) {s : IoSched} (hs : s ∈ d.fds) {x : Slot}
    (hx : x.fd = s.fd) : x ∈ d.slots ↔ x ∈ s.slots := by
  rw [mem_slots]
  constructor
  · intro h
    obtain ⟨t, ht, hxt⟩ := h
    have hfd : t.fd = s.fd := by rw [← hx, (mem_sched_slots.mp hxt).2]
    rwa [List.inj_on_of_nodup_map hd.nodup ht hs hfd] at hxt
  · exact fun h => ⟨s, hs, h⟩

/-- There is one slot for a descriptor and direction. -/
theorem slot_unique {d : IoDriver} (hd : d.Wf) {x y : Slot} (hx : x ∈ d.slots) (hy : y ∈ d.slots)
    (hfd : x.fd = y.fd) (hdir : x.wantWrite = y.wantWrite) : x = y := by
  obtain ⟨s, hs, hxs⟩ := mem_slots.mp hx
  obtain ⟨-, hxeq⟩ := mem_sched_slots.mp hxs
  have hfd' : y.fd = s.fd := by rw [← hfd, hxeq]
  have hys := (mem_slots_fd hd hs hfd').mp hy
  rw [hxeq, (mem_sched_slots.mp hys).2, hdir]

/-- The slot at the pointer is armed iff it is one of the armed slots. -/
theorem slot_at_iff {d : IoDriver} (hd : d.Wf) {fd : Int} {s : IoSched}
    (h : findSched d fd = some s) {wantWrite : Bool} :
    s.armedAt wantWrite = true ↔ ∃ w, ⟨fd, wantWrite, w⟩ ∈ d.slots := by
  obtain ⟨hfd, l₁, l₂, hfds, -⟩ := findSched_split h
  have hs : s ∈ d.fds := by simp [hfds]
  constructor
  · intro harmed
    refine ⟨s.wakerAt wantWrite, (mem_slots_fd hd hs hfd.symm).mpr ?_⟩
    exact mem_sched_slots.mpr ⟨harmed, by rw [hfd]⟩
  · intro hw
    obtain ⟨w, hw⟩ := hw
    exact (mem_sched_slots.mp ((mem_slots_fd hd hs hfd.symm).mp hw)).1

/-- A descriptor with an armed slot is registered. -/
theorem findSched_of_slot {d : IoDriver} {x : Slot} (hx : x ∈ d.slots) :
    findSched d x.fd ≠ none := by
  intro hnone
  obtain ⟨s, hs, hxs⟩ := mem_slots.mp hx
  apply findSched_none hnone s hs
  rw [(mem_sched_slots.mp hxs).2]

/-! ## What an operation does to the driver

Each function keeps the driver well formed. `GivenUp` says for those that end waits which slots are gone
and that their wakers are what the function returns.
-/

/-- One descriptor's slots are changed. -/
theorem wf_replace {d : IoDriver} (hd : d.Wf) {l₁ l₂ : List IoSched} {s s' : IoSched} {armed : Nat}
    (hfds : d.fds = l₁ ++ s :: l₂) (hfd : s'.fd = s.fd) (hmask : s'.interest = s'.mask)
    (harmed : armed + Multiset.card s.slots = d.armed + Multiset.card s'.slots) :
    IoDriver.Wf { d with fds := l₁ ++ s' :: l₂, armed := armed } := by
  have hold := hd.armed
  rw [← card_slotsOf, IoDriver.slots, hfds, slotsOf_split, Multiset.card_add] at hold
  constructor
  case nodup =>
    have hnodup := hd.nodup
    rw [hfds] at hnodup
    simpa [hfd] using hnodup
  case interest =>
    intro x hx
    have hx : x ∈ l₁ ∨ x = s' ∨ x ∈ l₂ := by simpa using hx
    rcases hx with hx | rfl | hx
    · exact hd.interest x (by simp [hfds, hx])
    · exact hmask
    · exact hd.interest x (by simp [hfds, hx])
  case armed =>
    rw [← card_slotsOf]
    show armed = Multiset.card (slotsOf (l₁ ++ s' :: l₂))
    rw [slotsOf_split, Multiset.card_add]
    omega

structure GivenUp (d d' : IoDriver) (wakers : List TaskId) (gone : Multiset Slot) : Prop where
  wf     : d'.Wf
  slots  : d.slots = gone + d'.slots
  wakers : (wakers : Multiset TaskId) = gone.map Slot.waker

theorem GivenUp.refl {d : IoDriver} (hd : d.Wf) : GivenUp d d [] 0 := ⟨hd, by simp, by simp⟩

theorem GivenUp.trans {d d' d'' : IoDriver} {ws ws' : List TaskId} {gone gone' : Multiset Slot}
    (h : GivenUp d d' ws gone) (h' : GivenUp d' d'' ws' gone') :
    GivenUp d d'' (ws ++ ws') (gone + gone') where
  wf     := h'.wf
  slots  := by rw [h.slots, h'.slots, add_assoc]
  wakers := by rw [← Multiset.coe_add, h.wakers, h'.wakers, Multiset.map_add]

theorem GivenUp.held {d d' : IoDriver} {ws : List TaskId} {gone : Multiset Slot}
    (h : GivenUp d d' ws gone) {x : Slot} (hx : x ∈ gone) : x ∈ d.slots := by
  rw [h.slots]
  exact Multiset.mem_add.mpr (.inl hx)

theorem GivenUp.kept {d d' : IoDriver} {ws : List TaskId} {gone : Multiset Slot}
    (h : GivenUp d d' ws gone) {x : Slot} (hx : x ∈ d'.slots) : x ∈ d.slots := by
  rw [h.slots]
  exact Multiset.mem_add.mpr (.inr hx)

@[simp] theorem fd_arm (s : IoSched) (wantWrite : Bool) (w : TaskId) :
    (s.arm wantWrite w).fd = s.fd := by
  cases wantWrite <;> rfl

@[simp] theorem fd_disarm (s : IoSched) (wantWrite : Bool) : (s.disarm wantWrite).fd = s.fd := by
  cases wantWrite <;> rfl

@[simp] theorem slots_update (s : IoSched) : (schedUpdateInterest s).slots = s.slots := rfl

theorem slots_arm {s : IoSched} {wantWrite : Bool} (h : s.armedAt wantWrite = false) (w : TaskId) :
    (s.arm wantWrite w).slots = ⟨s.fd, wantWrite, w⟩ ::ₘ s.slots := by
  cases wantWrite with
  | false =>
      have h : s.readArmed = false := h
      simp [IoSched.slots, IoSched.slotAt, IoSched.arm, IoSched.armedAt, IoSched.wakerAt, h]
  | true =>
      have h : s.writeArmed = false := h
      simp [IoSched.slots, IoSched.slotAt, IoSched.arm, IoSched.armedAt, IoSched.wakerAt, h,
        ← Multiset.singleton_add, add_comm]

theorem slots_disarm {s : IoSched} {wantWrite : Bool} (h : s.armedAt wantWrite = true) :
    s.slots = ⟨s.fd, wantWrite, s.wakerAt wantWrite⟩ ::ₘ (s.disarm wantWrite).slots := by
  cases wantWrite with
  | false =>
      have h : s.readArmed = true := h
      simp [IoSched.slots, IoSched.slotAt, IoSched.disarm, IoSched.armedAt, IoSched.wakerAt, h]
  | true =>
      have h : s.writeArmed = true := h
      simp [IoSched.slots, IoSched.slotAt, IoSched.disarm, IoSched.armedAt, IoSched.wakerAt, h,
        ← Multiset.singleton_add, add_comm]

/-- A new descriptor has no armed slots. -/
theorem cexecIoAdd_spec {d : IoDriver} (hd : d.Wf) (fd : Int) (alloc ctl : Bool) :
    (cexecIoAdd d fd alloc ctl).2.Wf ∧ (cexecIoAdd d fd alloc ctl).2.slots = d.slots := by
  unfold cexecIoAdd
  split
  · exact ⟨hd, rfl⟩
  next hnone =>
  split
  · have hslots : slotsOf (d.fds ++ [⟨fd, 0, 0, false, false, 0⟩]) = slotsOf d.fds := by
      simp [slotsOf, IoSched.slots, IoSched.slotAt, IoSched.armedAt]
    refine ⟨⟨?_, ?_, ?_⟩, hslots⟩
    · have hnew : ∀ s ∈ d.fds, s.fd ≠ fd := findSched_none hnone
      simpa [List.nodup_append, hd.nodup] using hnew
    · intro s hs
      rcases List.mem_append.mp hs with hs | hs
      · exact hd.interest s hs
      · rw [List.mem_singleton.mp hs]
        exact (show (0 : UInt32) = 0 ||| 0 by decide)
    · rw [← card_slotsOf]
      show d.armed = Multiset.card (slotsOf _)
      rw [hslots, hd.armed]
      exact (card_slotsOf d).symm
  · exact ⟨hd, rfl⟩

/-- A future arms a slot that was not. -/
theorem arm_spec {d : IoDriver} (hd : d.Wf) {fd : Int} {s : IoSched} (hs : findSched d fd = some s)
    {wantWrite : Bool} (harmed : s.armedAt wantWrite = false) (w : TaskId) {d' : IoDriver}
    (hd' : d' = { d with
      fds := updateSched fd (fun s => schedUpdateInterest (s.arm wantWrite w)) d.fds,
      armed := d.armed + 1 }) :
    d'.Wf ∧ d'.slots = ⟨fd, wantWrite, w⟩ ::ₘ d.slots := by
  obtain ⟨hfd, l₁, l₂, hfds, hupdate⟩ := findSched_split hs
  have hslots := slots_arm harmed w
  subst hd'
  rw [hupdate]
  constructor
  · refine wf_replace hd hfds (fd_arm s wantWrite w) rfl ?_
    rw [slots_update, hslots, Multiset.card_cons]
    omega
  · show slotsOf _ = _ ::ₘ slotsOf d.fds
    rw [hfds, slotsOf_split, slotsOf_split, slots_update, hslots, hfd, Multiset.cons_add]

/-- A future cancels its slot. -/
theorem disarm_spec {d : IoDriver} (hd : d.Wf) {fd : Int} {s : IoSched}
    (hs : findSched d fd = some s) {wantWrite : Bool} (harmed : s.armedAt wantWrite = true)
    {d' : IoDriver}
    (hd' : d' = { d with
      fds := updateSched fd (fun s => schedUpdateInterest (s.disarm wantWrite)) d.fds,
      armed := d.armed - 1 }) :
    GivenUp d d' [s.wakerAt wantWrite] {⟨fd, wantWrite, s.wakerAt wantWrite⟩} := by
  obtain ⟨hfd, l₁, l₂, hfds, hupdate⟩ := findSched_split hs
  have hslots := slots_disarm harmed
  have hcard := hd.armed
  rw [← card_slotsOf, IoDriver.slots, hfds, slotsOf_split, Multiset.card_add, hslots,
    Multiset.card_cons] at hcard
  subst hd'
  rw [hupdate]
  refine ⟨?_, ?_, rfl⟩
  · refine wf_replace hd hfds (fd_disarm s wantWrite) rfl ?_
    rw [slots_update, hslots, Multiset.card_cons]
    omega
  · show slotsOf d.fds = _ + slotsOf _
    rw [hfds, slotsOf_split, slotsOf_split, slots_update, hslots, hfd, Multiset.singleton_add,
      Multiset.cons_add]

/-- The wakers of the slots of both directions. -/
theorem wakers_pair (r w : Bool) (x y : Slot) :
    (((if r then [x.waker] else []) ++ (if w then [y.waker] else []) : List TaskId) :
        Multiset TaskId) =
      ((if r then {x} else 0) + (if w then {y} else 0) : Multiset Slot).map Slot.waker := by
  cases r <;> cases w <;> rfl

/-- The slots of the descriptor are given up. -/
theorem schedFree_spec {d : IoDriver} (hd : d.Wf) {s : IoSched} (hs : s ∈ d.fds) :
    GivenUp d (schedFree d s).1 (schedFree d s).2 s.slots := by
  obtain ⟨l₁, l₂, hnot, hfds, herase⟩ := List.exists_erase_eq hs
  have hcard := hd.armed
  rw [← card_slotsOf, IoDriver.slots, hfds, slotsOf_split, Multiset.card_add, card_slots] at hcard
  refine ⟨⟨?_, ?_, ?_⟩, ?_,
    wakers_pair s.readArmed s.writeArmed ⟨s.fd, false, s.readWaker⟩ ⟨s.fd, true, s.writeWaker⟩⟩
  · exact hd.nodup.sublist (List.erase_sublist.map IoSched.fd)
  · exact fun x hx => hd.interest x (List.mem_of_mem_erase hx)
  · rw [← card_slotsOf]
    show d.armed - s.readArmed.toNat - s.writeArmed.toNat = Multiset.card (slotsOf (d.fds.erase s))
    rw [herase]
    omega
  · show slotsOf d.fds = s.slots + slotsOf (d.fds.erase s)
    rw [herase, hfds, slotsOf_split]

/-- So are those of a descriptor that is removed. -/
theorem cexecIoRemove_spec {d : IoDriver} (hd : d.Wf) (fd : Int) :
    ∃ gone, GivenUp d (cexecIoRemove d fd).1 (cexecIoRemove d fd).2 gone := by
  unfold cexecIoRemove
  split
  next s hs =>
    obtain ⟨-, l₁, l₂, hfds, -⟩ := findSched_split hs
    exact ⟨_, schedFree_spec hd (by simp [hfds])⟩
  next => exact ⟨0, .refl hd⟩

/-- The close frees the descriptors one by one. -/
theorem foldl_freeSched {d₀ : IoDriver} {l : List IoSched} {st : IoDriver × List TaskId}
    (hl : st.1.fds = l) {gone : Multiset Slot} (h : GivenUp d₀ st.1 st.2 gone) :
    ∃ gone', GivenUp d₀ (l.foldl freeSched st).1 (l.foldl freeSched st).2 gone' := by
  induction l generalizing st gone with
  | nil => exact ⟨gone, h⟩
  | cons s rest ih =>
      have hfree := schedFree_spec h.wf (show s ∈ st.1.fds by simp [hl])
      refine ih ?_ (h.trans hfree)
      show st.1.fds.erase s = rest
      rw [hl, List.erase_cons_head]

/-- And those of all of them, when the driver is closed. -/
theorem cexecIoDriverClose_spec {d : IoDriver} (hd : d.Wf) :
    ∃ gone, GivenUp d (cexecIoDriverClose d).1 (cexecIoDriverClose d).2 gone :=
  foldl_freeSched rfl (.refl hd)

/-! ## The park

An event fires slots of its descriptor only, and the wakers of the slots that are gone after the loop
are those that it has called.
-/

/-- The event has the bit of the direction, or is an error or a hang-up. -/
def EpollEvent.touches (ev : EpollEvent) (wantWrite : Bool) : Bool :=
  ev.events &&& (if wantWrite then EPOLLOUT else EPOLLIN) ≠ 0 || isErr ev.events

def IoSched.fired (s : IoSched) (e : UInt32) : Multiset Slot :=
  (if s.firesRead e then {⟨s.fd, false, s.readWaker⟩} else 0) +
    (if s.firesWrite e then {⟨s.fd, true, s.writeWaker⟩} else 0)

theorem slots_fire (s : IoSched) (e : UInt32) : s.slots = s.fired e + (s.fire e).slots := by
  have hread : s.slotAt false = (if s.firesRead e then {⟨s.fd, false, s.readWaker⟩} else 0) +
      (s.fire e).slotAt false := by
    cases hr : s.readArmed with
    | false =>
        have hf : s.firesRead e = false := by simp [IoSched.firesRead, hr]
        simp [IoSched.slotAt, IoSched.armedAt, IoSched.fire, schedUpdateInterest, hr, hf]
    | true =>
        cases hf : s.firesRead e <;>
          simp [IoSched.slotAt, IoSched.armedAt, IoSched.wakerAt, IoSched.fire, schedUpdateInterest,
            hr, hf]
  have hwrite : s.slotAt true = (if s.firesWrite e then {⟨s.fd, true, s.writeWaker⟩} else 0) +
      (s.fire e).slotAt true := by
    cases hw : s.writeArmed with
    | false =>
        have hf : s.firesWrite e = false := by simp [IoSched.firesWrite, hw]
        simp [IoSched.slotAt, IoSched.armedAt, IoSched.fire, schedUpdateInterest, hw, hf]
    | true =>
        cases hf : s.firesWrite e <;>
          simp [IoSched.slotAt, IoSched.armedAt, IoSched.wakerAt, IoSched.fire, schedUpdateInterest,
            hw, hf]
  rw [IoSched.slots, hread, hwrite, IoSched.slots, IoSched.fired, add_add_add_comm]

/-- What an event fires is its descriptor's, in a direction that it touches. -/
theorem mem_fired {s : IoSched} {ev : EpollEvent} {x : Slot} (hx : x ∈ s.fired ev.events) :
    x.fd = s.fd ∧ ev.touches x.wantWrite = true := by
  rw [IoSched.fired, Multiset.mem_add] at hx
  rcases hx with hx | hx
  · split at hx
    next hfire =>
      rw [Multiset.mem_singleton.mp hx]
      exact ⟨rfl, (Bool.and_eq_true_iff.mp hfire).2⟩
    next => exact absurd hx (Multiset.notMem_zero x)
  · split at hx
    next hfire =>
      rw [Multiset.mem_singleton.mp hx]
      exact ⟨rfl, (Bool.and_eq_true_iff.mp hfire).2⟩
    next => exact absurd hx (Multiset.notMem_zero x)

theorem card_fired (s : IoSched) (e : UInt32) :
    Multiset.card (s.fired e) = (s.firesRead e).toNat + (s.firesWrite e).toNat := by
  unfold IoSched.fired
  cases s.firesRead e <;> cases s.firesWrite e <;> simp

/-- The events of a batch fire slots of their descriptors only, in directions that they touch. -/
def Touched (evs : List EpollEvent) (gone : Multiset Slot) : Prop :=
  ∀ x ∈ gone, ∃ ev ∈ evs, ev.fd = x.fd ∧ ev.touches x.wantWrite = true

/-- One event. -/
theorem handleEvent_gone {d : IoDriver} (hd : d.Wf) (p : Bool) (woken : List TaskId)
    (ev : EpollEvent) : ∃ p' d' ws gone, handleEvent (p, d, woken) ev = (p', d', woken ++ ws) ∧
      GivenUp d d' ws gone ∧ Touched [ev] gone := by
  cases hfind : d.fds.find? (fun s => s.fd = ev.fd) with
  | none =>
      refine ⟨p, d, [], 0, by simp [handleEvent, hfind], .refl hd, ?_⟩
      exact fun x hx => absurd hx (Multiset.notMem_zero x)
  | some s =>
      obtain ⟨hfd, l₁, l₂, hfds, -⟩ := findSched_split (show findSched d ev.fd = some s from hfind)
      -- no other descriptor has this number, so only this one is changed
      have hmap : d.fds.map (fun x => if x.fd = ev.fd then x.fire ev.events else x) =
          l₁ ++ s.fire ev.events :: l₂ := by
        have hnodup := hd.nodup
        rw [hfds, List.map_append, List.map_cons, List.nodup_append, List.nodup_cons] at hnodup
        obtain ⟨-, ⟨hafter, -⟩, hbefore⟩ := hnodup
        have hkeep : ∀ l : List IoSched, (∀ x ∈ l, x.fd ≠ ev.fd) →
            l.map (fun x => if x.fd = ev.fd then x.fire ev.events else x) = l := by
          intro l hl
          exact (List.map_congr_left fun x hx => if_neg (hl x hx)).trans (List.map_id l)
        rw [hfds, List.map_append, List.map_cons, if_pos hfd, hkeep l₁, hkeep l₂]
        · intro x hx heq
          exact hafter (List.mem_map.mpr ⟨x, hx, heq.trans hfd.symm⟩)
        · intro x hx heq
          exact hbefore _ (List.mem_map_of_mem hx) _ List.mem_cons_self (heq.trans hfd.symm)
      have hslots := slots_fire s ev.events
      have hcard := hd.armed
      rw [← card_slotsOf, IoDriver.slots, hfds, slotsOf_split, Multiset.card_add, hslots,
        Multiset.card_add, card_fired] at hcard
      refine ⟨_, _, _, s.fired ev.events, by simp only [handleEvent, hfind, List.append_assoc]; rfl,
        ⟨?_, ?_, wakers_pair _ _ ⟨s.fd, false, _⟩ ⟨s.fd, true, _⟩⟩, ?_⟩
      · rw [hmap]
        refine wf_replace hd hfds rfl rfl ?_
        rw [hslots, Multiset.card_add, card_fired]
        omega
      · show slotsOf d.fds = _ + slotsOf _
        rw [hmap, hfds, slotsOf_split, slotsOf_split, ← add_assoc, ← hslots]
      · intro x hx
        obtain ⟨hxfd, htouch⟩ := mem_fired hx
        exact ⟨ev, List.mem_singleton_self ev, by rw [hxfd, hfd], htouch⟩

/-- The event loop. -/
theorem foldl_handleEvent_gone (evs : List EpollEvent) {d : IoDriver} (hd : d.Wf) (p : Bool)
    (woken : List TaskId) : ∃ p' d' ws gone,
      evs.foldl handleEvent (p, d, woken) = (p', d', woken ++ ws) ∧ GivenUp d d' ws gone ∧
        Touched evs gone := by
  induction evs generalizing d p woken with
  | nil =>
      refine ⟨p, d, [], 0, by simp, .refl hd, ?_⟩
      exact fun x hx => absurd hx (Multiset.notMem_zero x)
  | cons ev evs ih =>
      obtain ⟨p₁, d₁, ws₁, gone₁, hhead, hgone₁, htouch₁⟩ := handleEvent_gone hd p woken ev
      obtain ⟨p₂, d₂, ws₂, gone₂, htail, hgone₂, htouch₂⟩ := ih hgone₁.wf p₁ (woken ++ ws₁)
      refine ⟨p₂, d₂, ws₁ ++ ws₂, gone₁ + gone₂, ?_, hgone₁.trans hgone₂, ?_⟩
      · rw [List.foldl_cons, hhead, htail, List.append_assoc]
      · intro x hx
        rcases Multiset.mem_add.mp hx with hx | hx
        · obtain ⟨ev', hev', hfd, htouch⟩ := htouch₁ x hx
          exact ⟨ev', by simp [List.mem_singleton.mp hev'], hfd, htouch⟩
        · obtain ⟨ev', hev', hfd, htouch⟩ := htouch₂ x hx
          exact ⟨ev', List.mem_cons_of_mem ev hev', hfd, htouch⟩

/-- **The park** takes away the slots that it fires, and no event fires a slot that it does not
    touch. -/
theorem ioDriverPark_gone {d : IoDriver} (hd : d.Wf) (now : Nat) (wait : Int → List EpollEvent)
    (now' : Nat) : ∃ gone, GivenUp d (ioDriverPark d now wait now').2.1 (parkWakes d now wait) gone ∧
      Touched (wait (waitTimeout (earliest d.pending) now)) gone := by
  unfold ioDriverPark parkWakes
  split
  · refine ⟨0, .refl hd, ?_⟩
    exact fun x hx => absurd hx (Multiset.notMem_zero x)
  · obtain ⟨p, d', ws, gone, hloop, hgone, htouch⟩ :=
      foldl_handleEvent_gone (wait (waitTimeout (earliest d.pending) now)) hd false []
    refine ⟨gone, ?_, htouch⟩
    dsimp only
    rw [hloop]
    dsimp only
    rw [List.nil_append]
    split
    · exact hgone
    · -- the timers are fired after the events, and hold no slot
      exact ⟨⟨hgone.wf.nodup, hgone.wf.interest, hgone.wf.armed⟩, hgone.slots, hgone.wakers⟩

/-! ## The custody of the clones

A clone is made when a slot is armed and consumed when it is woken or dropped (`CustLib.Lib.Custody`).
The tokens of live clones are those in the armed slots.
-/

/-- A clone is born when it is made, and released when it is woken or dropped. -/
def SlotEvent.custody : SlotEvent → Custody.Event
  | .cloned w _                      => .born w
  | .woken w | .dropped w | .freed w => .released w

/-- How often a clone was consumed. -/
def consumed (log : List SlotEvent) (w : TaskId) : Nat :=
  log.count (.woken w) + log.count (.dropped w) + log.count (.freed w)

theorem count_released (log : List SlotEvent) (w : TaskId) :
    (log.map SlotEvent.custody).count (.released w) = consumed log w := by
  induction log with
  | nil => rfl
  | cons e log ih =>
      rw [List.map_cons, List.count_cons, ih]
      unfold consumed
      cases e <;> simp [SlotEvent.custody, List.count_cons] <;> omega

def slotTokens (slots : Multiset Slot) : Multiset Token := slots.map fun x => .active x.waker

theorem slotTokens_ids (slots : Multiset Slot) :
    (slotTokens slots).map Token.id = slots.map Slot.waker := by
  rw [slotTokens, Multiset.map_map]
  rfl

/-- Clones are consumed one after the other. -/
theorem owns_consumed {log : List Custody.Event} {n : Nat} {ws : List TaskId} {s : Multiset Token}
    (h : Owns log n ((ws : Multiset TaskId).map .active + s)) :
    Owns (log ++ ws.map .released) n s := by
  induction ws generalizing log with
  | nil => simpa using h
  | cons w ws ih =>
      rw [← Multiset.cons_coe, Multiset.map_cons, Multiset.cons_add] at h
      have := ih (Owns.released h)
      simpa using this

/-! ## The invariant

Driver, futures and clones of one moment: every armed slot belongs to one live future that has noted it,
and holds a clone of its waker.
-/

/-- What holds of the driver, the futures and the clones. -/
structure IoSys.Inv (s : IoSys) : Prop where
  wf     : s.d.Wf
  owns   : Owns (s.log.map SlotEvent.custody) s.clones (slotTokens s.d.slots)
  ids    : ∀ i b, s.boxes i = some b → i < s.next
  /-- One polled future for a descriptor and direction. -/
  alone  : ∀ i j b c, s.boxes i = some b → s.boxes j = some c → s.polled i = true →
    s.polled j = true → b.fd = c.fd → b.wantWrite = c.wantWrite → i = j
  polled : ∀ i b, s.boxes i = some b → b.armed = true → s.polled i = true
  /-- An armed slot is that of a live future, which has armed it. -/
  owner  : ∀ x ∈ s.d.slots, ∃ i b, s.boxes i = some b ∧ b.armed = true ∧ b.fd = x.fd ∧
    b.wantWrite = x.wantWrite
  /-- The slot that a future has armed is armed still, or was fired, or was removed. -/
  armed  : ∀ i b, s.boxes i = some b → b.armed = true → ∃ w, .cloned w i ∈ s.log ∧
    (⟨b.fd, b.wantWrite, w⟩ ∈ s.d.slots ∨ .woken w ∈ s.log ∨ .freed w ∈ s.log)

theorem inv_init : IoSys.init.Inv where
  wf     := ⟨List.nodup_nil, nofun, rfl⟩
  owns   := .nil
  ids    := nofun
  alone  := nofun
  polled := nofun
  owner  := fun _ hx => absurd hx (Multiset.notMem_zero _)
  armed  := nofun

variable {s : IoSys}

/-- The armed slots hold different clones. -/
theorem IoSys.Inv.wakers_nodup (h : s.Inv) : (s.d.slots.map Slot.waker).Nodup := by
  have hnodup := h.owns.nodup
  rwa [slotTokens_ids] at hnodup

theorem IoSys.Inv.slot_of_waker (h : s.Inv) {x y : Slot} (hx : x ∈ s.d.slots) (hy : y ∈ s.d.slots)
    (hw : x.waker = y.waker) : x = y :=
  Multiset.inj_on_of_nodup_map h.wakers_nodup x hx y hy hw

/-- Nothing but the timers is changed. -/
theorem IoSys.Inv.frame (h : s.Inv) {d : IoDriver} (hwf : d.Wf) (hslots : d.slots = s.d.slots) :
    IoSys.Inv { s with d } where
  wf     := hwf
  owns   := by
    show Owns _ _ (slotTokens d.slots)
    rw [hslots]
    exact h.owns
  ids    := h.ids
  alone  := h.alone
  polled := h.polled
  owner  := fun x hx => h.owner x (hslots ▸ hx)
  armed  := fun i b hb harmed => by
    obtain ⟨w, hw, hwhere⟩ := h.armed i b hb harmed
    refine ⟨w, hw, ?_⟩
    show _ ∈ d.slots ∨ _
    rwa [hslots]

/-- The clones of the slots that are gone are consumed. -/
theorem IoSys.Inv.owns_gone (h : s.Inv) {d : IoDriver} {ws : List TaskId} {gone : Multiset Slot}
    (hgone : GivenUp s.d d ws gone) {ev : TaskId → SlotEvent}
    (hev : ∀ w, (ev w).custody = .released w) :
    Owns ((s.log ++ ws.map ev).map SlotEvent.custody) s.clones (slotTokens d.slots) := by
  have howns := h.owns
  have hws : gone.map (fun x => Token.active x.waker) = (ws : Multiset TaskId).map .active := by
    rw [hgone.wakers, Multiset.map_map]
    rfl
  rw [hgone.slots, slotTokens, Multiset.map_add, hws] at howns
  have hlog : (ws.map ev).map SlotEvent.custody = ws.map .released := by
    rw [List.map_map]
    exact List.map_congr_left fun w _ => hev w
  rw [List.map_append, hlog]
  exact owns_consumed howns

/-- **Slots are given up** by the park, by a removal and by the close: their clones are consumed,
    and the history says so to the futures that armed them. -/
theorem IoSys.Inv.consume (h : s.Inv) {d : IoDriver} {ws : List TaskId} {gone : Multiset Slot}
    (hgone : GivenUp s.d d ws gone) {ev : TaskId → SlotEvent}
    (hev : ev = SlotEvent.woken ∨ ev = SlotEvent.freed) :
    IoSys.Inv { s with d, log := s.log ++ ws.map ev } where
  wf     := hgone.wf
  owns   := by
    apply h.owns_gone hgone
    intro w
    rcases hev with rfl | rfl <;> rfl
  ids    := h.ids
  alone  := h.alone
  polled := h.polled
  owner  := fun x hx => h.owner x (hgone.kept hx)
  armed  := fun i b hb harmed => by
    obtain ⟨w, hw, hwhere⟩ := h.armed i b hb harmed
    refine ⟨w, List.mem_append_left _ hw, ?_⟩
    rcases hwhere with hslot | hpast
    · rw [hgone.slots] at hslot
      rcases Multiset.mem_add.mp hslot with hslot | hslot
      · -- the slot is among those that are gone, so its clone is in the history now
        have hmem : w ∈ (ws : Multiset TaskId) := by
          rw [hgone.wakers]
          exact Multiset.mem_map.mpr ⟨_, hslot, rfl⟩
        have hlog : ev w ∈ s.log ++ ws.map ev :=
          List.mem_append_right _ (List.mem_map_of_mem (Multiset.mem_coe.mp hmem))
        rcases hev with rfl | rfl
        · exact .inr (.inl hlog)
        · exact .inr (.inr hlog)
      · exact .inl hslot
    · exact .inr (hpast.imp (List.mem_append_left _) (List.mem_append_left _))

/-! ## Steps

One lemma for each action. Only a poll arms, and only a drop, a removal or the park gives up; the rest
is the frame.
-/

theorem inv_new (h : s.Inv) (fd : Int) (wantWrite : Bool) :
    IoSys.Inv { s with boxes := Function.update s.boxes s.next (some (interestNew fd wantWrite)),
                       polled := Function.update s.polled s.next false, next := s.next + 1 } := by
  -- the new future is neither polled nor armed, and the others are where they were
  have hold : ∀ {i b}, Function.update s.boxes s.next (some (interestNew fd wantWrite)) i = some b →
      (i = s.next ∧ b.armed = false) ∨ (i ≠ s.next ∧ s.boxes i = some b) := by
    intro i b hb
    by_cases hi : i = s.next
    · subst hi
      rw [Function.update_self, Option.some.injEq] at hb
      exact .inl ⟨rfl, hb ▸ rfl⟩
    · rw [Function.update_of_ne hi] at hb
      exact .inr ⟨hi, hb⟩
  have hpolled : ∀ {i}, Function.update s.polled s.next false i = true →
      i ≠ s.next ∧ s.polled i = true := by
    intro i hi
    have hne : i ≠ s.next := by
      intro heq
      rw [heq, Function.update_self] at hi
      cases hi
    rw [Function.update_of_ne hne] at hi
    exact ⟨hne, hi⟩
  refine ⟨h.wf, h.owns, ?_, ?_, ?_, ?_, ?_⟩
  · intro i b hb
    rcases hold hb with ⟨rfl, -⟩ | ⟨-, hb⟩
    · exact Nat.lt_succ_self s.next
    · exact Nat.lt_succ_of_lt (h.ids i b hb)
  · intro i j b c hb hc hi hj hfd hdir
    obtain ⟨hine, hi⟩ := hpolled hi
    obtain ⟨hjne, hj⟩ := hpolled hj
    rcases hold hb with ⟨heq, -⟩ | ⟨-, hb⟩
    · exact absurd heq hine
    rcases hold hc with ⟨heq, -⟩ | ⟨-, hc⟩
    · exact absurd heq hjne
    exact h.alone i j b c hb hc hi hj hfd hdir
  · intro i b hb harmed
    rcases hold hb with ⟨-, hun⟩ | ⟨hne, hb⟩
    · exact absurd harmed (by simp [hun])
    · show Function.update s.polled s.next false i = true
      rw [Function.update_of_ne hne]
      exact h.polled i b hb harmed
  · intro x hx
    obtain ⟨i, b, hb, hrest⟩ := h.owner x hx
    refine ⟨i, b, ?_, hrest⟩
    show Function.update s.boxes s.next (some (interestNew fd wantWrite)) i = some b
    rw [Function.update_of_ne (Nat.ne_of_lt (h.ids i b hb)), hb]
  · intro i b hb harmed
    rcases hold hb with ⟨-, hun⟩ | ⟨-, hb⟩
    · exact absurd harmed (by simp [hun])
    · exact h.armed i b hb harmed

/-- The future `i` has been polled. -/
theorem inv_mark (h : s.Inv) {i : FutId} {b : InterestBox} (hb : s.boxes i = some b)
    (halone : ∀ j c, j ≠ i → s.boxes j = some c → s.polled j = true → b.fd = c.fd →
      b.wantWrite = c.wantWrite → False) :
    IoSys.Inv { s with polled := Function.update s.polled i true } := by
  have hpolled : ∀ {j}, Function.update s.polled i true j = true → j = i ∨ s.polled j = true := by
    intro j hj
    by_cases hji : j = i
    · exact .inl hji
    · rw [Function.update_of_ne hji] at hj
      exact .inr hj
  refine ⟨h.wf, h.owns, h.ids, ?_, ?_, h.owner, h.armed⟩
  · intro j k c e hc he hj hk hfd hdir
    by_contra hne
    -- a rival of `i` would be one that `halone` excludes, from either side
    by_cases hji : j = i
    · subst hji
      have hce : b = c := Option.some.inj (hb.symm.trans hc)
      have hkj := (hpolled hk).resolve_left (Ne.symm hne)
      exact halone k e (Ne.symm hne) he hkj (hce ▸ hfd) (hce ▸ hdir)
    · have hold := (hpolled hj).resolve_left hji
      by_cases hki : k = i
      · subst hki
        have hbe : b = e := Option.some.inj (hb.symm.trans he)
        exact halone j c hji hc hold (hbe ▸ hfd.symm) (hbe ▸ hdir.symm)
      · exact hne (h.alone j k c e hc he hold ((hpolled hk).resolve_left hki) hfd hdir)
  · intro j c hc harmed
    have hj := h.polled j c hc harmed
    show Function.update s.polled i true j = true
    by_cases hji : j = i
    · rw [hji, Function.update_self]
    · rw [Function.update_of_ne hji, hj]

/-- A future that was polled before, or is polled alone, arms its slot. -/
theorem inv_arm (h : s.Inv) {i : FutId} {b : InterestBox} (hb : s.boxes i = some b)
    (hpolled : s.polled i = true) {d : IoDriver} (hwf : d.Wf)
    (hslots : d.slots = ⟨b.fd, b.wantWrite, s.clones⟩ ::ₘ s.d.slots) :
    IoSys.Inv { s with d, boxes := Function.update s.boxes i (some { b with armed := true }),
                       clones := s.clones + 1, log := s.log ++ [.cloned s.clones i] } := by
  have hold : ∀ {j c}, Function.update s.boxes i (some { b with armed := true }) j = some c →
      (j = i ∧ c = { b with armed := true }) ∨ (j ≠ i ∧ s.boxes j = some c) := by
    intro j c hc
    by_cases hji : j = i
    · subst hji
      rw [Function.update_self, Option.some.injEq] at hc
      exact .inl ⟨rfl, hc.symm⟩
    · rw [Function.update_of_ne hji] at hc
      exact .inr ⟨hji, hc⟩
  -- the descriptor and the direction of a future do not change
  have hkey : ∀ {j c}, Function.update s.boxes i (some { b with armed := true }) j = some c →
      ∃ c', s.boxes j = some c' ∧ c'.fd = c.fd ∧ c'.wantWrite = c.wantWrite := by
    intro j c hc
    rcases hold hc with ⟨rfl, rfl⟩ | ⟨-, hc⟩
    · exact ⟨b, hb, rfl, rfl⟩
    · exact ⟨c, hc, rfl, rfl⟩
  refine ⟨hwf, ?_, ?_, ?_, ?_, ?_, ?_⟩
  · show Owns ((s.log ++ [SlotEvent.cloned s.clones i]).map SlotEvent.custody) (s.clones + 1) _
    rw [hslots, slotTokens, Multiset.map_cons, List.map_append]
    exact Owns.born h.owns
  · intro j c hc
    obtain ⟨c', hc', -⟩ := hkey hc
    exact h.ids j c' hc'
  · intro j k c e hc he hj hk hfd hdir
    obtain ⟨c', hc', hcfd, hcdir⟩ := hkey hc
    obtain ⟨e', he', hefd, hedir⟩ := hkey he
    apply h.alone j k c' e' hc' he' hj hk
    · rw [hcfd, hfd, hefd]
    · rw [hcdir, hdir, hedir]
  · intro j c hc harmed
    rcases hold hc with ⟨rfl, -⟩ | ⟨-, hc⟩
    · exact hpolled
    · exact h.polled j c hc harmed
  · intro x hx
    have hx : x ∈ d.slots := hx
    rw [hslots, Multiset.mem_cons] at hx
    rcases hx with rfl | hx
    · exact ⟨i, _, Function.update_self .., rfl, rfl, rfl⟩
    · obtain ⟨j, c, hc, harmed, hfd, hdir⟩ := h.owner x hx
      by_cases hji : j = i
      · subst hji
        have hcb : c = b := Option.some.inj (hc.symm.trans hb)
        exact ⟨j, _, Function.update_self .., rfl, hcb ▸ hfd, hcb ▸ hdir⟩
      · refine ⟨j, c, ?_, harmed, hfd, hdir⟩
        show Function.update s.boxes i _ j = some c
        rw [Function.update_of_ne hji, hc]
  · intro j c hc harmed
    rcases hold hc with ⟨rfl, rfl⟩ | ⟨-, hc⟩
    · refine ⟨s.clones, List.mem_append_right _ (List.mem_singleton_self _), .inl ?_⟩
      show _ ∈ d.slots
      rw [hslots]
      exact Multiset.mem_cons_self _ _
    · obtain ⟨w, hw, hwhere⟩ := h.armed j c hc harmed
      refine ⟨w, List.mem_append_left _ hw, ?_⟩
      rcases hwhere with hslot | hpast
      · refine .inl ?_
        show _ ∈ d.slots
        rw [hslots]
        exact Multiset.mem_cons_of_mem hslot
      · exact .inr (hpast.imp (List.mem_append_left _) (List.mem_append_left _))

/-- **A poll** of a future keeps the invariant: when it arms a slot, nobody else has armed it. -/
theorem inv_poll (h : s.Inv) {i : FutId} (halone : s.Alone (.poll i)) {s' : IoSys}
    (hs : s.poll i = some s') : s'.Inv := by
  obtain ⟨b, hb, hs⟩ := Option.bind_eq_some_iff.mp hs
  have hmark := inv_mark h hb ?others
  case others =>
    intro j c hji hc hj hfd hdir
    by_cases hi : s.polled i = true
    · exact hji (h.alone j i c b hc hb hj hi hfd.symm hdir.symm)
    · refine halone (by simpa using hi) j (h.ids j c hc) ⟨hji, hj, by rw [hc]; rfl, ?_⟩
      rw [hb, hc, Option.map_some, Option.map_some, InterestBox.source, InterestBox.source, hfd,
        hdir]
  -- a poll that arms no slot leaves all as it was
  have hsame : IoSys.Inv { s with boxes := Function.update s.boxes i (some b),
                                  polled := Function.update s.polled i true,
                                  clones := s.clones + 0, log := s.log ++ [] } := by
    rw [← hb, Function.update_eq_self, List.append_nil]
    exact hmark
  cases hfind : findSched s.d b.fd with
  | none =>
      simp only [interestPoll, hfind, Bool.not_and_self] at hs
      cases hs
      exact hsame
  | some x =>
      cases hun : b.armed with
      | true =>
          simp only [interestPoll, hfind, hun] at hs
          cases hs
          exact hsame
      | false =>
          have hfree : x.armedAt b.wantWrite = false := by
            by_contra hslot
            obtain ⟨w, hw⟩ := (slot_at_iff h.wf hfind).mp (Bool.not_eq_false _ ▸ hslot)
            obtain ⟨j, c, hc, harmed, hfd, hdir⟩ := h.owner _ hw
            have hji := hmark.alone j i c b hc hb (hmark.polled j c hc harmed)
              (Function.update_self ..) hfd hdir
            subst hji
            rw [Option.some.inj (hc.symm.trans hb), hun] at harmed
            cases harmed
          obtain ⟨hwf, hslots⟩ := arm_spec h.wf hfind hfree s.clones rfl
          simp only [interestPoll, hfind, hun] at hs
          cases hs
          exact inv_arm hmark hb (Function.update_self ..) hwf hslots

/-- A future leaves with the slot that it holds, if it holds one. -/
theorem inv_leave (h : s.Inv) {i : FutId} {b : InterestBox} (hb : s.boxes i = some b)
    {d : IoDriver} {ws : List TaskId} {gone : Multiset Slot} (hgone : GivenUp s.d d ws gone)
    (hown : ∀ x ∈ gone, b.armed = true ∧ b.fd = x.fd ∧ b.wantWrite = x.wantWrite)
    (hrest : ∀ x ∈ d.slots, b.armed = true → b.fd = x.fd → b.wantWrite = x.wantWrite → False) :
    IoSys.Inv { s with d, boxes := Function.update s.boxes i none,
                       log := s.log ++ ws.map .dropped } := by
  have hold : ∀ {j c}, Function.update s.boxes i none j = some c → j ≠ i ∧ s.boxes j = some c := by
    intro j c hc
    have hji : j ≠ i := by
      intro heq
      rw [heq, Function.update_self] at hc
      cases hc
    rw [Function.update_of_ne hji] at hc
    exact ⟨hji, hc⟩
  refine ⟨hgone.wf, h.owns_gone hgone fun _ => rfl, ?_, ?_, ?_, ?_, ?_⟩
  · exact fun j c hc => h.ids j c (hold hc).2
  · intro j k c e hc he
    exact h.alone j k c e (hold hc).2 (hold he).2
  · exact fun j c hc => h.polled j c (hold hc).2
  · intro x hx
    obtain ⟨j, c, hc, harmed, hfd, hdir⟩ := h.owner x (hgone.kept hx)
    have hji : j ≠ i := by
      intro heq
      subst heq
      have hcb : c = b := Option.some.inj (hc.symm.trans hb)
      subst hcb
      exact hrest x hx harmed hfd hdir
    refine ⟨j, c, ?_, harmed, hfd, hdir⟩
    show Function.update s.boxes i none j = some c
    rw [Function.update_of_ne hji, hc]
  · intro j c hc harmed
    obtain ⟨hji, hc⟩ := hold hc
    obtain ⟨w, hw, hwhere⟩ := h.armed j c hc harmed
    refine ⟨w, List.mem_append_left _ hw, ?_⟩
    rcases hwhere with hslot | hpast
    · rw [hgone.slots] at hslot
      rcases Multiset.mem_add.mp hslot with hslot | hslot
      · -- two futures that have been polled do not share a slot
        obtain ⟨hbarmed, hfd, hdir⟩ := hown _ hslot
        exact absurd (h.alone j i c b hc hb (h.polled j c hc harmed) (h.polled i b hb hbarmed)
          hfd.symm hdir.symm) hji
      · exact .inl hslot
    · exact .inr (hpast.imp (List.mem_append_left _) (List.mem_append_left _))

/-- **A drop** of a future takes the clone in its slot with it. -/
theorem inv_drop (h : s.Inv) {i : FutId} {s' : IoSys} (hs : s.drop i = some s') : s'.Inv := by
  obtain ⟨b, hb, hs⟩ := Option.bind_eq_some_iff.mp hs
  have hsame : ∀ (hrest : ∀ x ∈ s.d.slots, b.armed = true → b.fd = x.fd →
      b.wantWrite = x.wantWrite → False), _ :=
    inv_leave h hb (GivenUp.refl h.wf) fun x hx => absurd hx (Multiset.notMem_zero x)
  cases hfind : findSched s.d b.fd with
  | none =>
      simp only [interestDrop, hfind] at hs
      cases hs
      apply hsame
      intro x hx _ hfd _
      exact findSched_of_slot hx (hfd ▸ hfind)
  | some y =>
      by_cases hcancel : b.armed = true ∧ y.armedAt b.wantWrite = true
      · obtain ⟨hbarmed, hyarmed⟩ := hcancel
        have hgone := disarm_spec h.wf hfind hyarmed rfl
        simp only [interestDrop, hfind, hbarmed, hyarmed, Bool.and_self] at hs
        cases hs
        refine inv_leave h hb hgone ?_ ?_
        · intro x hx
          rw [Multiset.mem_singleton.mp hx]
          exact ⟨hbarmed, rfl, rfl⟩
        · -- the slot that was cancelled was the only one of its direction
          intro x hx _ hfd hdir
          have hnodup := h.wakers_nodup
          rw [hgone.slots, Multiset.singleton_add, Multiset.map_cons, Multiset.nodup_cons] at hnodup
          refine hnodup.1 (Multiset.mem_map.mpr ⟨x, hx, ?_⟩)
          rw [slot_unique h.wf (hgone.kept hx) (hgone.held (Multiset.mem_singleton_self _))
            hfd.symm hdir.symm]
      · have hkeep : (b.armed && y.armedAt b.wantWrite) = false := by
          rwa [← Bool.not_eq_true, Bool.and_eq_true]
        simp only [interestDrop, hfind, hkeep] at hs
        cases hs
        apply hsame
        intro x hx hbarmed hfd hdir
        refine hcancel ⟨hbarmed, (slot_at_iff h.wf hfind).mpr ⟨x.waker, ?_⟩⟩
        rw [hfd, hdir]
        exact hx

/-- One step. -/
theorem inv_step (h : s.Inv) {a : IoAct} (halone : s.Alone a) {s' : IoSys}
    (hs : s.step a = some s') : s'.Inv := by
  cases a with
  | add fd alloc ctl =>
      cases hs
      obtain ⟨hwf, hslots⟩ := cexecIoAdd_spec h.wf fd alloc ctl
      exact h.frame hwf hslots
  | remove fd =>
      cases hs
      obtain ⟨gone, hgone⟩ := cexecIoRemove_spec h.wf fd
      exact h.consume hgone (.inr rfl)
  | new fd wantWrite =>
      cases hs
      exact inv_new h fd wantWrite
  | poll i => exact inv_poll h halone hs
  | drop i => exact inv_drop h hs
  | park now wait now' =>
      cases hs
      obtain ⟨gone, hgone, -⟩ := ioDriverPark_gone h.wf now wait now'
      exact h.consume hgone (.inl rfl)
  | timers pending =>
      cases hs
      exact h.frame ⟨h.wf.nodup, h.wf.interest, h.wf.armed⟩ rfl
  | close =>
      cases hs
      obtain ⟨gone, hgone⟩ := cexecIoDriverClose_spec h.wf
      exact h.consume hgone (.inr rfl)

/-! ## Every run

The accounts in terms of the history: how many slots are armed, with whose waker, and how often each
clone was consumed.
-/

structure IoSys.Accounted (s : IoSys) : Prop where
  /-- A descriptor is registered once, its mask is that of its armed slots, and `armed` is the
      number of all of them. -/
  wf     : s.d.Wf
  /-- A clone is in an armed slot, or was consumed once. -/
  clones : ∀ w i, .cloned w i ∈ s.log →
    (s.d.slots.map Slot.waker).count w + consumed s.log w = 1
  /-- The park does not touch a slot for which there is neither an event of its direction nor an
      error or a hang-up. -/
  apart  : ∀ now wait now', ∀ x ∈ s.d.slots,
    (∀ ev ∈ wait (waitTimeout (earliest s.d.pending) now), ev.fd = x.fd →
      ev.touches x.wantWrite = false) →
    x ∈ (ioDriverPark s.d now wait now').2.1.slots ∧ x.waker ∉ parkWakes s.d now wait
  /-- A future that has armed its slot is `Ready` only when the park has fired it, or the descriptor
      was removed. -/
  ready  : ∀ i b clone, s.boxes i = some b → b.armed = true →
    (interestPoll s.d b clone).1 = true →
    ∃ w, .cloned w i ∈ s.log ∧ (.woken w ∈ s.log ∨ .freed w ∈ s.log)

/-- A clone is in one armed slot, or was consumed once. -/
theorem IoSys.Inv.clones_once (h : s.Inv) {w : TaskId} {i : FutId} (hw : .cloned w i ∈ s.log) :
    (s.d.slots.map Slot.waker).count w + consumed s.log w = 1 := by
  have hborn : Custody.Event.born w ∈ s.log.map SlotEvent.custody :=
    List.mem_map_of_mem (f := SlotEvent.custody) hw
  have hcount := h.owns.facts.count w
  rw [if_pos ((h.owns.facts.born w).mp hborn), count_released, slotTokens_ids] at hcount
  omega

/-- A park leaves a slot alone that no event touches. -/
theorem IoSys.Inv.park_apart (h : s.Inv) {now now' : Nat} {wait : Int → List EpollEvent} {x : Slot}
    (hx : x ∈ s.d.slots) (hno : ∀ ev ∈ wait (waitTimeout (earliest s.d.pending) now),
      ev.fd = x.fd → ev.touches x.wantWrite = false) :
    x ∈ (ioDriverPark s.d now wait now').2.1.slots ∧ x.waker ∉ parkWakes s.d now wait := by
  obtain ⟨gone, hgone, htouched⟩ := ioDriverPark_gone h.wf now wait now'
  have hnot : x ∉ gone := by
    intro hmem
    obtain ⟨ev, hev, hfd, htouch⟩ := htouched x hmem
    rw [hno ev hev hfd] at htouch
    cases htouch
  constructor
  · rw [hgone.slots] at hx
    exact (Multiset.mem_add.mp hx).resolve_left hnot
  · intro hwoken
    rw [← Multiset.mem_coe, hgone.wakers] at hwoken
    obtain ⟨y, hy, hw⟩ := Multiset.mem_map.mp hwoken
    rw [h.slot_of_waker (hgone.held hy) hx hw] at hy
    exact hnot hy

/-- A future that has armed its slot is `Ready` only when its clone is gone. -/
theorem IoSys.Inv.ready_fired (h : s.Inv) {i : FutId} {b : InterestBox} {clone : TaskId}
    (hb : s.boxes i = some b) (harmed : b.armed = true)
    (hready : (interestPoll s.d b clone).1 = true) :
    ∃ w, .cloned w i ∈ s.log ∧ (.woken w ∈ s.log ∨ .freed w ∈ s.log) := by
  obtain ⟨w, hw, hwhere⟩ := h.armed i b hb harmed
  refine ⟨w, hw, hwhere.resolve_left ?_⟩
  intro hslot
  cases hfind : findSched s.d b.fd with
  | none => exact findSched_of_slot hslot hfind
  | some x =>
      have hx := (slot_at_iff h.wf hfind).mpr ⟨w, hslot⟩
      simp [interestPoll, hfind, harmed, hx] at hready

theorem IoSys.Inv.accounted (h : s.Inv) : s.Accounted where
  wf     := h.wf
  clones := fun _ _ => h.clones_once
  apart  := fun _ _ _ _ => h.park_apart
  ready  := fun _ _ _ => h.ready_fired

/-- **Slot accounting**: in every run in which no future is first polled while it has a rival, the
    accounts of the driver are in order. -/
theorem slot_accounting {as : List IoAct}
    (h : Machine.RunIn IoSys.step IoSys.Alone IoSys.init as s) : s.Accounted :=
  (h.invariant (fun _ _ _ hinv halone hs => inv_step hinv halone hs) inv_init).accounted

/-- A descriptor is registered, and one reader waits on it until it is readable. -/
def oneReader : List IoAct :=
  [.add 3 true true, .new 3 false, .poll 0, .park 0 (fun _ => [⟨3, EPOLLIN⟩]) 0, .poll 0, .drop 0]

theorem slot_accounting_reader :
    ∃ s, Machine.run IoSys.step IoSys.init oneReader = some s ∧ s.Accounted := by
  obtain ⟨s, hs⟩ : ∃ s, Machine.run (Machine.guarded IoSys.step IoSys.Alone) IoSys.init oneReader =
      some s := Option.isSome_iff_exists.mp (by decide)
  exact ⟨s, (Machine.RunIn.of_guarded hs).run, slot_accounting (.of_guarded hs)⟩

end CustLib.Exec
