import CustLib.Std.Types
import CustLib.Execution.Reactor

/-!
# `cust_execution::io`: the unified park

`ioDriverPark` is one call of the epoll driver's park hook, from what the kernel and the clock answer:
the readings before and after the wait, and the events that `epoll_wait` reports (after the retries
on `EINTR`). `executor_drive` takes its `false` for a stall. It is one exactly when nothing was left
to wait for, or an event was for a waiting descriptor, or the earliest deadline was reached
(`park_reports_stall_iff`); `hup_on_idle_fd` is a `false` that is none of these.
-/

namespace CustLib.Exec

/-! ## The constants

The event bits of `epoll`, as Linux has them.
-/

def EPOLLIN : UInt32 := 0x001

def EPOLLOUT : UInt32 := 0x004

def EPOLLERR : UInt32 := 0x008

def EPOLLHUP : UInt32 := 0x010

/-! ## The driver

`struct io_sched` and `struct cexec_io_driver`, less their links: the registered descriptors are a list.
A slot of a descriptor is armed when a future waits for its direction, and holds the task to be woken.
-/

/-- `struct io_sched`. `interest` is the mask that the kernel was last given for the descriptor. -/
structure IoSched where
  fd         : Int
  readWaker  : TaskId
  writeWaker : TaskId
  readArmed  : Bool
  writeArmed : Bool
  interest   : UInt32
  deriving DecidableEq, Repr

structure IoDriver where
  fds     : List IoSched
  pending : List Timer
  armed   : Nat
  deriving DecidableEq, Repr

structure EpollEvent where
  fd     : Int
  events : UInt32
  deriving DecidableEq, Repr

/-! ## The park

`sched_update_interest`, the loop over the events, and `io_driver_park`. What the kernel and the clock
answer is an argument, so one call of the park is a function.
-/

def IoSched.mask (s : IoSched) : UInt32 :=
  (if s.readArmed then EPOLLIN else 0) ||| (if s.writeArmed then EPOLLOUT else 0)

def schedUpdateInterest (s : IoSched) : IoSched := { s with interest := s.mask }

/-- The timeout of `epoll_wait` in milliseconds; `-1` is no timeout. -/
def waitTimeout (deadline : Option Nat) (now : Nat) : Int :=
  match deadline with
  | none => -1
  | some deadline =>
    if deadline ≤ now then 0
    else
      let ms := wadd (deadline - now) 999999 / 1000000
      if ms > 2147483647 then 2147483647 else ms

/-- An error or a hang-up. -/
def isErr (e : UInt32) : Bool := e &&& (EPOLLERR ||| EPOLLHUP) ≠ 0

def IoSched.firesRead (s : IoSched) (e : UInt32) : Bool :=
  s.readArmed && (e &&& EPOLLIN ≠ 0 || isErr e)

/-- An event with the bits `e` fires the write slot. -/
def IoSched.firesWrite (s : IoSched) (e : UInt32) : Bool :=
  s.writeArmed && (e &&& EPOLLOUT ≠ 0 || isErr e)

/-- What an event with the bits `e` leaves of a descriptor's slots. -/
def IoSched.fire (s : IoSched) (e : UInt32) : IoSched :=
  schedUpdateInterest { s with readArmed := s.readArmed && !s.firesRead e,
                               writeArmed := s.writeArmed && !s.firesWrite e }

/-- The loop body of `io_driver_park`: one event. The tasks that are woken are recorded in order. -/
def handleEvent (st : Bool × IoDriver × List TaskId) (ev : EpollEvent) :
    Bool × IoDriver × List TaskId :=
  let (progressed, d, woken) := st
  match d.fds.find? (fun s => s.fd = ev.fd) with
  | none   => st
  | some s =>
    let r := s.firesRead ev.events
    let w := s.firesWrite ev.events
    (progressed || r || w,
      { d with fds := d.fds.map fun x => if x.fd = ev.fd then x.fire ev.events else x,
               armed := d.armed - r.toNat - w.toNat },
      woken ++ (if r then [s.readWaker] else []) ++ (if w then [s.writeWaker] else []))

/-- `io_driver_park`: the clock reads `now` before the wait and `now'` after it; `wait` is what
    `epoll_wait` reports for a timeout. It returns whether it made progress, and which tasks it has
    woken. -/
def ioDriverPark (d : IoDriver) (now : Nat) (wait : Int → List EpollEvent) (now' : Nat) :
    Bool × IoDriver × List TaskId :=
  if earliest d.pending = none ∧ d.armed = 0 then
    (false, d, [])
  else
    let evs := wait (waitTimeout (earliest d.pending) now)
    let (progressed, d, woken) := evs.foldl handleEvent (false, d, [])
    if earliest d.pending = none then
      (progressed, d, woken)
    else
      let (fired, stay) := fireDue now' d.pending
      (progressed || !fired.isEmpty, { d with pending := stay }, woken ++ fired.map Timer.waker)

/-! ## Driver states and kernel answers

What the theorems may assume: the invariant of a driver, which every run keeps
(`CustLib.Execution.Interest`), and what `epoll_wait` may report according to its manual. `EPOLLERR` and
`EPOLLHUP` are reported for every registered descriptor, whatever its mask.
-/

def IoSched.Armed (s : IoSched) : Prop := s.readArmed = true ∨ s.writeArmed = true

def IoDriver.armedSlots (d : IoDriver) : Nat :=
  (d.fds.map fun s => s.readArmed.toNat + s.writeArmed.toNat).sum

/-- A driver state: each descriptor is registered once, the kernel watches for what the armed slots
    wait for, and `armed` counts them. -/
structure IoDriver.Wf (d : IoDriver) : Prop where
  nodup    : (d.fds.map IoSched.fd).Nodup
  interest : ∀ s ∈ d.fds, s.interest = s.mask
  armed    : d.armed = d.armedSlots

/-- What `epoll_wait` may report: at most 32 events, each for a registered descriptor, with bits of
    its interest mask, errors and hang-ups; and no event only after the timeout. -/
structure WaitOk (d : IoDriver) (now : Nat) (evs : List EpollEvent) (now' : Nat) : Prop where
  size       : evs.length ≤ 32
  registered : ∀ ev ∈ evs, ∃ s ∈ d.fds, s.fd = ev.fd ∧ ev.events ≠ 0 ∧
    ev.events &&& ~~~(s.interest ||| EPOLLERR ||| EPOLLHUP) = 0
  timeout    : evs = [] → 0 ≤ waitTimeout (earliest d.pending) now ∧
    (now : Int) + waitTimeout (earliest d.pending) now * 1000000 ≤ now'

def IoDriver.Waiting (d : IoDriver) : Prop := (∃ s ∈ d.fds, s.Armed) ∨ d.pending ≠ []

/-! ## Event bits

An event that the kernel may report for a descriptor with an armed slot fires a slot of it. For a
descriptor without one it fires nothing.
-/

theorem and_or (e x y : UInt32) : e &&& (x ||| y) = (e &&& x) ||| (e &&& y) :=
  UInt32.toBitVec_inj.mp BitVec.and_or_distrib_left

/-- Bits of a mask that meet none of its bits. -/
theorem eq_zero_of_mask {e m : UInt32} (hmask : e &&& ~~~m = 0) (h : e &&& m = 0) : e = 0 := by
  have hall : e &&& (m ||| ~~~m) = 0 := by rw [and_or, h, hmask, UInt32.or_self]
  simpa using hall

theorem isErr_eq_false {e : UInt32} : isErr e = false ↔ e &&& (EPOLLERR ||| EPOLLHUP) = 0 := by
  simp [isErr]

theorem firesRead_eq_false {s : IoSched} {e : UInt32} : s.firesRead e = false ↔
    s.readArmed = true → e &&& EPOLLIN = 0 ∧ isErr e = false := by
  cases hs : s.readArmed <;> simp [IoSched.firesRead, hs]

theorem firesWrite_eq_false {s : IoSched} {e : UInt32} : s.firesWrite e = false ↔
    s.writeArmed = true → e &&& EPOLLOUT = 0 ∧ isErr e = false := by
  cases hs : s.writeArmed <;> simp [IoSched.firesWrite, hs]

/-- An event that fires no slot of a descriptor with an armed slot has no bits. -/
theorem fires_of_armed {s : IoSched} {e : UInt32} (hs : s.Armed) (he : e ≠ 0)
    (hmask : e &&& ~~~(s.mask ||| EPOLLERR ||| EPOLLHUP) = 0) :
    s.firesRead e = true ∨ s.firesWrite e = true := by
  by_contra hno
  rw [not_or, Bool.not_eq_true, Bool.not_eq_true, firesRead_eq_false, firesWrite_eq_false] at hno
  obtain ⟨hread, hwrite⟩ := hno
  have herr : e &&& (EPOLLERR ||| EPOLLHUP) = 0 := by
    rw [← isErr_eq_false]
    rcases hs with hs | hs
    · exact (hread hs).2
    · exact (hwrite hs).2
  have hin : e &&& (if s.readArmed then EPOLLIN else 0) = 0 := by
    split
    · next h => exact (hread h).1
    · exact UInt32.and_zero
  have hout : e &&& (if s.writeArmed then EPOLLOUT else 0) = 0 := by
    split
    · next h => exact (hwrite h).1
    · exact UInt32.and_zero
  refine he (eq_zero_of_mask hmask ?_)
  rw [UInt32.or_assoc, and_or, herr, IoSched.mask, and_or, hin, hout, UInt32.or_self,
    UInt32.or_self]

/-- An event that fires nothing changes nothing. -/
theorem fire_eq_self {s : IoSched} {e : UInt32} (hs : s.interest = s.mask)
    (hread : s.firesRead e = false) (hwrite : s.firesWrite e = false) : s.fire e = s := by
  have hfire : s.fire e = schedUpdateInterest s := by
    simp only [IoSched.fire, hread, hwrite, Bool.not_false, Bool.and_true]
  rw [hfire, schedUpdateInterest, ← hs]

/-- A slot that is not armed is not fired. -/
theorem armed_of_fires {s : IoSched} {e : UInt32}
    (h : s.firesRead e = true ∨ s.firesWrite e = true) : s.Armed := by
  rcases h with h | h
  · exact .inl (Bool.and_eq_true_iff.mp h).1
  · exact .inr (Bool.and_eq_true_iff.mp h).1

/-! ## The event loop

What the loop has woken, as an induction over the events: something, if one of them was for a descriptor
with an armed slot.
-/

/-- The events are for registered descriptors, and those for a descriptor with an armed slot fire
    one. -/
def Delivered (d : IoDriver) (evs : List EpollEvent) : Prop :=
  ∀ ev ∈ evs, ∀ s ∈ d.fds, s.fd = ev.fd → s.Armed →
    s.firesRead ev.events = true ∨ s.firesWrite ev.events = true

theorem WaitOk.delivered {d : IoDriver} (hd : d.Wf) {now now' : Nat} {evs : List EpollEvent}
    (h : WaitOk d now evs now') : Delivered d evs := by
  intro ev hev s hs hfd harmed
  obtain ⟨s', hs', hfd', he, hmask⟩ := h.registered ev hev
  obtain rfl : s' = s := List.inj_on_of_nodup_map hd.nodup hs' hs (hfd'.trans hfd.symm)
  exact fires_of_armed harmed he (hd.interest s' hs' ▸ hmask)

/-- One event: either it fires a slot of an armed descriptor, or it leaves the driver as it was. -/
theorem handleEvent_spec {d : IoDriver} (hd : d.Wf) (p : Bool) (woken : List TaskId)
    (ev : EpollEvent) :
    (∃ s ∈ d.fds, s.fd = ev.fd ∧ s.Armed ∧ (handleEvent (p, d, woken) ev).1 = true) ∨
      (handleEvent (p, d, woken) ev = (p, d, woken) ∧
        ∀ s ∈ d.fds, s.fd = ev.fd →
          s.firesRead ev.events = false ∧ s.firesWrite ev.events = false) := by
  cases hfind : d.fds.find? (fun s => s.fd = ev.fd) with
  | none =>
      right
      rw [List.find?_eq_none] at hfind
      refine ⟨by simp [handleEvent, List.find?_eq_none.mpr hfind], ?_⟩
      intro s hs hfd
      exact absurd (by simpa using hfd) (hfind s hs)
  | some s =>
      have hs := List.mem_of_find?_eq_some hfind
      have hfd : s.fd = ev.fd := by simpa using List.find?_some hfind
      by_cases hfire : s.firesRead ev.events = true ∨ s.firesWrite ev.events = true
      · left
        refine ⟨s, hs, hfd, armed_of_fires hfire, ?_⟩
        rcases hfire with h | h <;> simp [handleEvent, hfind, h]
      · right
        rw [not_or, Bool.not_eq_true, Bool.not_eq_true] at hfire
        obtain ⟨hread, hwrite⟩ := hfire
        -- a descriptor is registered once
        have honly : ∀ x ∈ d.fds, x.fd = ev.fd → x = s := fun x hx hxfd =>
          List.inj_on_of_nodup_map hd.nodup hx hs (hxfd.trans hfd.symm)
        have hfds : d.fds.map (fun x => if x.fd = ev.fd then x.fire ev.events else x) = d.fds := by
          refine (List.map_congr_left fun x hx => ?_).trans (List.map_id d.fds)
          split
          · next hxfd =>
            rw [honly x hx hxfd]
            exact fire_eq_self (hd.interest s hs) hread hwrite
          · rfl
        refine ⟨by simp [handleEvent, hfind, hread, hwrite, hfds], ?_⟩
        intro x hx hxfd
        rw [honly x hx hxfd]
        exact ⟨hread, hwrite⟩

/-- Progress, once made, stays. -/
theorem foldl_handleEvent_true (evs : List EpollEvent) (d : IoDriver) (woken : List TaskId) :
    (evs.foldl handleEvent (true, d, woken)).1 = true := by
  induction evs generalizing d woken with
  | nil => rfl
  | cons ev evs ih =>
      obtain ⟨d', woken', hhead⟩ :
          ∃ d' woken', handleEvent (true, d, woken) ev = (true, d', woken') := by
        unfold handleEvent
        dsimp only
        split
        · exact ⟨_, _, rfl⟩
        · simp only [Bool.true_or]
          exact ⟨_, _, rfl⟩
      rw [List.foldl_cons, hhead]
      exact ih d' woken'

/-- The event loop makes progress iff an event is for a descriptor with an armed slot; otherwise it
    leaves the driver as it was. -/
theorem foldl_handleEvent_spec {d : IoDriver} (hd : d.Wf) {evs : List EpollEvent}
    (hev : Delivered d evs) (woken : List TaskId) :
    ((∃ ev ∈ evs, ∃ s ∈ d.fds, s.fd = ev.fd ∧ s.Armed) ∧
        (evs.foldl handleEvent (false, d, woken)).1 = true) ∨
      ((¬ ∃ ev ∈ evs, ∃ s ∈ d.fds, s.fd = ev.fd ∧ s.Armed) ∧
        evs.foldl handleEvent (false, d, woken) = (false, d, woken)) := by
  induction evs with
  | nil => exact .inr ⟨by simp, rfl⟩
  | cons ev evs ih =>
      rw [List.foldl_cons]
      rcases handleEvent_spec hd false woken ev with ⟨s, hs, hfd, harmed, htrue⟩ | ⟨heq, hnone⟩
      · left
        refine ⟨⟨ev, List.mem_cons_self, s, hs, hfd, harmed⟩, ?_⟩
        have hhead : handleEvent (false, d, woken) ev =
            (true, (handleEvent (false, d, woken) ev).2) := Prod.ext htrue rfl
        rw [hhead]
        exact foldl_handleEvent_true evs _ _
      -- an event for an armed slot would have fired it
      · have hidle : ¬ ∃ s ∈ d.fds, s.fd = ev.fd ∧ s.Armed := by
          rintro ⟨s, hs, hfd, harmed⟩
          obtain ⟨hread, hwrite⟩ := hnone s hs hfd
          rcases hev ev List.mem_cons_self s hs hfd harmed with h | h
          · rw [hread] at h
            exact nomatch h
          · rw [hwrite] at h
            exact nomatch h
        rw [heq]
        rcases ih fun ev' hev' => hev ev' (List.mem_cons_of_mem ev hev') with
          ⟨⟨ev', hmem, hrest⟩, htrue⟩ | ⟨hno, hsame⟩
        · exact .inl ⟨⟨ev', List.mem_cons_of_mem ev hmem, hrest⟩, htrue⟩
        · refine .inr ⟨?_, hsame⟩
          rintro ⟨ev', hmem, hrest⟩
          rcases List.mem_cons.mp hmem with rfl | hmem
          · exact hidle hrest
          · exact hno ⟨ev', hmem, hrest⟩

/-! ## The park

When the park answers `false`, and when it should: nothing armed and no timer. The two differ for an
event on a descriptor that nobody waits on, and for a timeout that comes before the deadline.
-/

theorem earliest_eq_none_iff {pending : List Timer} : earliest pending = none ↔ pending = [] := by
  cases pending <;> simp [earliest]

theorem armedSlots_eq_zero_iff {d : IoDriver} : d.armedSlots = 0 ↔ ¬ ∃ s ∈ d.fds, s.Armed := by
  have hslot : ∀ s : IoSched, s.readArmed.toNat + s.writeArmed.toNat = 0 ↔ ¬ s.Armed := by
    intro s
    simp [IoSched.Armed]
  rw [IoDriver.armedSlots, List.sum_eq_zero_iff_forall_eq_nat]
  simp only [List.forall_mem_map, hslot, not_exists, not_and]

/-- The test for "nothing can wake us". -/
theorem IoDriver.Wf.waiting_iff {d : IoDriver} (hd : d.Wf) :
    d.Waiting ↔ ¬ (earliest d.pending = none ∧ d.armed = 0) := by
  rw [earliest_eq_none_iff, hd.armed, armedSlots_eq_zero_iff, IoDriver.Waiting]
  by_cases hpending : d.pending = [] <;> simp [hpending]

/-- The earliest deadline is reached. -/
def IoDriver.Due (d : IoDriver) (now' : Nat) : Prop :=
  ∃ deadline, earliest d.pending = some deadline ∧ deadline ≤ now'

theorem fireDue_isEmpty_iff {d : IoDriver} {now' : Nat} :
    (fireDue now' d.pending).1 = [] ↔ ¬ d.Due now' := by
  rw [fireDue_eq_nil_iff, IoDriver.Due, earliest]
  cases d.pending with
  | nil => simp
  | cons t rest => simp

/-- A park with nothing to wait for reports a stall. -/
theorem ioDriverPark_idle {d : IoDriver} (hd : d.Wf) (h : ¬ d.Waiting) (now : Nat)
    (wait : Int → List EpollEvent) (now' : Nat) :
    ioDriverPark d now wait now' = (false, d, []) := by
  rw [hd.waiting_iff, not_not] at h
  rw [ioDriverPark, if_pos h]

/-- A park that waits makes progress iff an event is for a waiting descriptor or the earliest
    deadline is reached; otherwise it leaves the driver as it was. -/
theorem ioDriverPark_waiting {d : IoDriver} (hd : d.Wf) (h : d.Waiting) {now now' : Nat}
    {wait : Int → List EpollEvent}
    (hwait : WaitOk d now (wait (waitTimeout (earliest d.pending) now)) now') :
    (((∃ ev ∈ wait (waitTimeout (earliest d.pending) now), ∃ s ∈ d.fds, s.fd = ev.fd ∧ s.Armed) ∨
        d.Due now') ∧ (ioDriverPark d now wait now').1 = true) ∨
      (¬ ((∃ ev ∈ wait (waitTimeout (earliest d.pending) now), ∃ s ∈ d.fds,
          s.fd = ev.fd ∧ s.Armed) ∨ d.Due now') ∧
        ioDriverPark d now wait now' = (false, d, [])) := by
  rw [hd.waiting_iff] at h
  rw [ioDriverPark, if_neg h]
  dsimp only
  -- events leave the timers alone
  have hpending : ∀ st, (List.foldl handleEvent st
      (wait (waitTimeout (earliest d.pending) now))).2.1.pending = st.2.1.pending := by
    intro st
    induction wait (waitTimeout (earliest d.pending) now) generalizing st with
    | nil => rfl
    | cons ev evs ih =>
        rw [List.foldl_cons, ih]
        unfold handleEvent
        dsimp only
        split <;> rfl
  have hkeep := hpending (false, d, [])
  rcases foldl_handleEvent_spec hd (hwait.delivered hd) [] with ⟨hevent, htrue⟩ | ⟨hnone, hsame⟩
  · left
    refine ⟨.inl hevent, ?_⟩
    split
    · exact htrue
    · show (_ || _) = true
      rw [htrue, Bool.true_or]
  · rw [hsame]
    dsimp only
    by_cases hdue : d.Due now'
    · left
      refine ⟨.inr hdue, ?_⟩
      obtain ⟨deadline, hdeadline, -⟩ := id hdue
      rw [if_neg (by rw [hdeadline]; exact nofun)]
      have hfired : (fireDue now' d.pending).1 ≠ [] := fun hnil => fireDue_isEmpty_iff.mp hnil hdue
      simpa using hfired
    · right
      refine ⟨not_or.mpr ⟨hnone, hdue⟩, ?_⟩
      have hnil := fireDue_isEmpty_iff.mpr hdue
      split
      · rfl
      · simp [hnil, fireDue_stay hnil]

/-- **When a reported stall is one**: `io_driver_park` returns `false` only with no slot armed and no
    timer pending iff nothing was waiting in the first place, or `epoll_wait` reported an event for
    a descriptor with an armed slot, or the earliest deadline is reached after it. -/
theorem park_reports_stall_iff {d : IoDriver} (hd : d.Wf) {now now' : Nat}
    {wait : Int → List EpollEvent}
    (hwait : d.Waiting → WaitOk d now (wait (waitTimeout (earliest d.pending) now)) now') :
    ((ioDriverPark d now wait now').1 = false → ¬ (ioDriverPark d now wait now').2.1.Waiting) ↔
      (¬ d.Waiting ∨
        (∃ ev ∈ wait (waitTimeout (earliest d.pending) now), ∃ s ∈ d.fds,
          s.fd = ev.fd ∧ s.Armed) ∨
        d.Due now') := by
  by_cases h : d.Waiting
  · rcases ioDriverPark_waiting hd h (hwait h) with ⟨hprogress, htrue⟩ | ⟨hno, hpark⟩
    · exact iff_of_true (fun hfalse => absurd (htrue.symm.trans hfalse) nofun) (.inr hprogress)
    · refine iff_of_false ?_ (by rw [not_or, not_not]; exact ⟨h, hno⟩)
      rw [hpark]
      exact fun hstall => hstall rfl h
  · refine iff_of_true ?_ (.inl h)
    rw [ioDriverPark_idle hd h]
    exact fun _ => h

/-- A descriptor with no waiter, and one with a reader. -/
def idleAndReader : IoDriver where
  fds     := [⟨3, 0, 0, false, false, 0⟩, ⟨4, 1, 0, true, false, EPOLLIN⟩]
  pending := []
  armed   := 1

theorem idleAndReader_wf : idleAndReader.Wf := ⟨by decide, by decide, by decide⟩

theorem park_reports_stall_iff_readable :
    ((ioDriverPark idleAndReader 0 (fun _ => [⟨4, EPOLLIN⟩]) 0).1 = false →
        ¬ (ioDriverPark idleAndReader 0 (fun _ => [⟨4, EPOLLIN⟩]) 0).2.1.Waiting) ↔
      (¬ idleAndReader.Waiting ∨
        (∃ ev ∈ [EpollEvent.mk 4 EPOLLIN], ∃ s ∈ idleAndReader.fds, s.fd = ev.fd ∧ s.Armed) ∨
        idleAndReader.Due 0) :=
  park_reports_stall_iff idleAndReader_wf fun _ => ⟨by decide, by decide, nofun⟩

/-- A hang-up of the descriptor that nobody waits for is taken for a stall, and the reader of the
    other one is given up. -/
theorem hup_on_idle_fd :
    idleAndReader.Wf ∧ WaitOk idleAndReader 0 [⟨3, EPOLLHUP⟩] 0 ∧
      (ioDriverPark idleAndReader 0 (fun _ => [⟨3, EPOLLHUP⟩]) 0).1 = false ∧
      (ioDriverPark idleAndReader 0 (fun _ => [⟨3, EPOLLHUP⟩]) 0).2.1.Waiting :=
  ⟨idleAndReader_wf, ⟨by decide, by decide, nofun⟩, by decide,
    .inl ⟨⟨4, 1, 0, true, false, EPOLLIN⟩, by decide, .inl rfl⟩⟩

/-! ## The kinds of false stalls

Either way of getting there is excluded by the condition of the theorem; here both are shown to be the
only ones.
-/

/-- A wait that times out has reached every deadline that `epoll_wait` can wait for. -/
theorem due_of_timeout {d : IoDriver} {now now' deadline : Nat}
    (hdeadline : earliest d.pending = some deadline)
    (hnear : deadline - now ≤ 2147483647 * 1000000) (hok : WaitOk d now [] now') :
    deadline ≤ now' := by
  obtain ⟨-, hafter⟩ := hok.timeout rfl
  have hms : wadd (deadline - now) 999999 = deadline - now + 999999 := wadd_eq (by omega)
  rw [hdeadline, waitTimeout] at hafter
  dsimp only at hafter
  rw [hms] at hafter
  split at hafter
  · omega
  · split at hafter <;> omega

/-- What is behind a park that reports a stall while something waits: the events were errors and
    hang-ups of descriptors with no waiter, or there was none and the earliest deadline lies
    further ahead than the longest timeout. -/
theorem false_stall_kinds {d : IoDriver} (hd : d.Wf) {now now' : Nat} {evs : List EpollEvent}
    (hok : WaitOk d now evs now')
    (hno : ¬ ((∃ ev ∈ evs, ∃ s ∈ d.fds, s.fd = ev.fd ∧ s.Armed) ∨ d.Due now')) :
    (evs ≠ [] ∧ ∀ ev ∈ evs, ev.events &&& ~~~(EPOLLERR ||| EPOLLHUP) = 0) ∨
      (evs = [] ∧ ∃ deadline, earliest d.pending = some deadline ∧
        2147483647 * 1000000 < deadline - now) := by
  rw [not_or] at hno
  obtain ⟨hidle, hdue⟩ := hno
  cases evs with
  | nil =>
      right
      refine ⟨rfl, ?_⟩
      cases hdeadline : earliest d.pending with
      | none =>
          obtain ⟨hpos, -⟩ := hok.timeout rfl
          rw [hdeadline] at hpos
          exact absurd hpos (Int.not_le.mpr (Int.negSucc_lt_zero 0))
      | some deadline =>
          refine ⟨deadline, rfl, ?_⟩
          by_contra hnear
          rw [not_lt] at hnear
          exact hdue ⟨deadline, hdeadline, due_of_timeout hdeadline hnear hok⟩
  | cons first rest =>
      left
      refine ⟨List.cons_ne_nil _ _, ?_⟩
      intro ev hev
      obtain ⟨s, hs, hfd, -, hbits⟩ := hok.registered ev hev
      have hunarmed : ¬ s.Armed := fun harmed => hidle ⟨ev, hev, s, hs, hfd, harmed⟩
      rw [IoSched.Armed, not_or, Bool.not_eq_true, Bool.not_eq_true] at hunarmed
      rw [hd.interest s hs, IoSched.mask, hunarmed.1, hunarmed.2] at hbits
      simpa using hbits

end CustLib.Exec
