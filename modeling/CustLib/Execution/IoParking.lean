import Mathlib.Algebra.Order.BigOperators.Group.List
import CustLib.Execution.IoRuntime
import CustLib.Execution.Parking

/-!
# No wake is lost in the driver's park

When `io_driver_park` returns, every armed slot that an event touches and every timer that is due has
left the driver, with its task in the ready queue and the executor in its drive loop; every other slot
and timer is still there (`park_wakes`). This holds after every run, and needs two invariants of the
driver's memory. No armed slot is uncounted: a second future for one slot counts it again, so that
`armed` may be too large, but a driver that takes itself for idle has no armed slot. And the timers are
in the order of their deadlines.
-/

namespace CustLib.Exec

variable {F K γ : Type}

/-! ## The count of armed slots

`armed` in the driver must not be less than the number of armed slots, or the park would not wait for
them. It may be more: a slot that is armed over another one is counted twice.
-/

/-- No armed slot is uncounted. -/
def IoDriver.Counted (d : IoDriver) : Prop := d.armedSlots ≤ d.armed

def IoSched.armedCount (s : IoSched) : Nat := s.readArmed.toNat + s.writeArmed.toNat

/-- The count of a table with one descriptor singled out. -/
theorem armedSlots_split {d : IoDriver} {l₁ l₂ : List IoSched} {s : IoSched}
    (h : d.fds = l₁ ++ s :: l₂) :
    d.armedSlots = s.armedCount + ((l₁ ++ l₂).map IoSched.armedCount).sum := by
  change (d.fds.map IoSched.armedCount).sum = _
  rw [h]
  simp [Nat.add_left_comm]

theorem armedCount_arm_le (s : IoSched) (wantWrite : Bool) (w : TaskId) :
    (s.arm wantWrite w).armedCount ≤ s.armedCount + 1 := by
  obtain ⟨fd, rw, ww, r, w, interest⟩ := s
  cases wantWrite <;> cases r <;> cases w <;> simp [IoSched.armedCount, IoSched.arm]

theorem armedCount_disarm {s : IoSched} {wantWrite : Bool} (h : s.armedAt wantWrite = true) :
    (s.disarm wantWrite).armedCount + 1 = s.armedCount := by
  obtain ⟨fd, rw, ww, r, w, interest⟩ := s
  cases wantWrite <;> cases h
  · simp [IoSched.armedCount, IoSched.disarm, Nat.add_comm]
  · simp [IoSched.armedCount, IoSched.disarm]

theorem armedCount_fire (s : IoSched) (e : UInt32) :
    (s.fire e).armedCount + (s.firesRead e).toNat + (s.firesWrite e).toNat = s.armedCount := by
  -- what fires was armed
  have hread : s.firesRead e = true → s.readArmed = true := fun h => (Bool.and_eq_true_iff.mp h).1
  have hwrite : s.firesWrite e = true → s.writeArmed = true := fun h => (Bool.and_eq_true_iff.mp h).1
  rw [IoSched.armedCount, IoSched.armedCount, IoSched.fire, schedUpdateInterest]
  cases hr : s.firesRead e <;> cases hw : s.firesWrite e <;>
    simp_all [Nat.add_comm]

namespace IoDriver.Counted

variable {d : IoDriver}

/-- One descriptor is changed, and the count with it. -/
theorem replace {l₁ l₂ : List IoSched} {s s' : IoSched} {pending : List Timer} {armed : Nat}
    (h : d.Counted) (hfds : d.fds = l₁ ++ s :: l₂)
    (hle : s'.armedCount + d.armed ≤ s.armedCount + armed) :
    Counted ⟨l₁ ++ s' :: l₂, pending, armed⟩ := by
  rw [Counted, armedSlots_split hfds] at h
  rw [Counted, armedSlots_split rfl]
  show _ ≤ armed
  omega

theorem add (h : d.Counted) (fd : Int) (alloc ctl : Bool) : (cexecIoAdd d fd alloc ctl).2.Counted := by
  unfold cexecIoAdd
  split
  · exact h
  · split
    · simpa [Counted, armedSlots] using h
    · exact h

theorem remove (h : d.Counted) (fd : Int) : (cexecIoRemove d fd).1.Counted := by
  unfold cexecIoRemove
  split
  next s hs =>
    obtain ⟨l₁, l₂, -, hfds, herase⟩ := List.exists_erase_eq (List.mem_of_find?_eq_some hs)
    rw [Counted, armedSlots_split hfds, IoSched.armedCount] at h
    show ((d.fds.erase s).map IoSched.armedCount).sum ≤ d.armed - _ - _
    rw [herase]
    omega
  · exact h

theorem poll (h : d.Counted) (b : InterestBox) (w : TaskId) : (interestPoll d b w).2.1.Counted := by
  unfold interestPoll
  split
  · exact h
  next s hs =>
    obtain ⟨-, l₁, l₂, hfds, hupdate⟩ := findSched_split hs
    split
    · -- a slot that was armed is counted twice from here on
      have hle := armedCount_arm_le s b.wantWrite w
      dsimp only
      rw [hupdate]
      refine h.replace hfds ?_
      change (s.arm b.wantWrite w).armedCount + d.armed ≤ _
      omega
    · exact h

theorem drop (h : d.Counted) (b : InterestBox) : (interestDrop d b).1.Counted := by
  unfold interestDrop
  split
  · exact h
  next s hs =>
    obtain ⟨-, l₁, l₂, hfds, hupdate⟩ := findSched_split hs
    split
    next harmed =>
      have hcount := armedCount_disarm (Bool.and_eq_true_iff.mp harmed).2
      dsimp only
      rw [hupdate]
      refine h.replace hfds ?_
      change (s.disarm b.wantWrite).armedCount + d.armed ≤ _
      omega
    · exact h

theorem handleEvent {st : Bool × IoDriver × List TaskId} (h : st.2.1.Counted) (ev : EpollEvent) :
    (Exec.handleEvent st ev).2.1.Counted := by
  obtain ⟨progressed, d, woken⟩ := st
  unfold Exec.handleEvent
  dsimp only
  split
  · exact h
  next s hs =>
    obtain ⟨l₁, l₂, hfds⟩ := List.append_of_mem (List.mem_of_find?_eq_some hs)
    have hfd : s.fd = ev.fd := by simpa using List.find?_some hs
    have hfire := armedCount_fire s ev.events
    -- no other descriptor gets more armed slots
    have hrest : (((l₁ ++ l₂).map fun x => if x.fd = ev.fd then x.fire ev.events else x).map
        IoSched.armedCount).sum ≤ ((l₁ ++ l₂).map IoSched.armedCount).sum := by
      rw [List.map_map]
      apply List.sum_le_sum
      intro x _
      have hx := armedCount_fire x ev.events
      simp only [Function.comp_apply]
      split <;> omega
    rw [Counted, armedSlots_split hfds] at h
    rw [List.map_append] at hrest
    have hfds' : d.fds.map (fun x => if x.fd = ev.fd then x.fire ev.events else x) =
        l₁.map (fun x => if x.fd = ev.fd then x.fire ev.events else x) ++ s.fire ev.events ::
          l₂.map fun x => if x.fd = ev.fd then x.fire ev.events else x := by
      simp [hfds, hfd]
    rw [Counted, armedSlots_split hfds']
    dsimp only at h ⊢
    omega

theorem handleEvents (evs : List EpollEvent) (st : Bool × IoDriver × List TaskId)
    (h : st.2.1.Counted) : (evs.foldl Exec.handleEvent st).2.1.Counted := by
  induction evs generalizing st with
  | nil => exact h
  | cons ev evs ih => exact ih _ (h.handleEvent ev)

end IoDriver.Counted

/-! ## The invariant of the memory

The count, and the order of the timers, are kept by whatever runs on the memory.
-/

def Reactor.Sorted (m : Reactor) : Prop := m.pending.Pairwise fun s t => s.deadline ≤ t.deadline

namespace Reactor.Sorted

variable {m : TimerMem γ}

theorem poll (h : m.reactor.Sorted) (self : Nat) (l : RtLeaf) (w : TaskId) :
    (timedPoll self l w m).2.reactor.Sorted := by
  change (rtLeafPoll self l w m.reactor).2.Sorted
  unfold rtLeafPoll
  split
  case h_4 dur armed deadline waker =>
    unfold sleepPoll
    split
    · dsimp only
      split
      · exact h
      · exact reactorInsert_sorted h
    · exact h
  all_goals exact h

theorem drop (h : m.reactor.Sorted) (self : Nat) (l : RtLeaf) :
    (timedDrop self l m).reactor.Sorted := by
  change (rtLeafDrop self l m.reactor).Sorted
  unfold rtLeafDrop
  split
  case h_3 dur armed deadline waker =>
    unfold sleepDrop
    split
    · exact h.sublist List.erase_sublist
    · exact h
  all_goals exact h

theorem fireDue (h : m.reactor.Sorted) (now : Nat) : (cexecFireDue now m).2.reactor.Sorted := by
  have hsub := List.sublist_append_right (Exec.fireDue now m.reactor.pending).1
    (Exec.fireDue now m.reactor.pending).2
  rw [fireDue_append] at hsub
  exact h.sublist hsub

end Reactor.Sorted

structure IoMem.Sound (m : IoMem γ) : Prop where
  counted : m.driver.Counted
  sorted  : m.timers.reactor.Sorted

namespace IoMem.Sound

variable {m : IoMem γ}

theorem call (h : m.Sound) (r : IoCall γ) : (r.run m).Sound := by
  cases r with
  | work f => exact ⟨h.counted, h.sorted⟩
  | time reading => exact ⟨h.counted, h.sorted⟩
  | add fd alloc ctl => exact ⟨h.counted.add fd alloc ctl, h.sorted⟩
  | remove fd => exact ⟨h.counted.remove fd, h.sorted⟩
  | kernel wait now' => exact ⟨h.counted, h.sorted⟩

theorem calls (h : m.Sound) (rs : List (IoCall γ)) : (rs.foldl IoCall.run m).Sound := by
  induction rs generalizing m with
  | nil => exact h
  | cons r rs ih => exact ih (h.call r)

theorem park (h : m.Sound) : (ioPark m).2.Sound := by
  unfold ioPark
  dsimp only
  split
  · exact h
  · have hcounted := IoDriver.Counted.handleEvents m.events (false, m.driver, []) h.counted
    split
    · exact ⟨hcounted, h.sorted⟩
    · exact ⟨hcounted, Reactor.Sorted.fireDue (m := ⟨_, _, _⟩) h.sorted m.now'⟩

end IoMem.Sound

theorem sound_init (start : Nat) (ctx : γ) : (IoMem.init start ctx).Sound :=
  ⟨Nat.le_refl 0, List.Pairwise.nil⟩

theorem sound_keeps (p : IoProgram F K γ) : p.site.Keeps IoMem.Sound where
  leafPoll id l w _ m h := by
    cases l with
    | timed l => exact ⟨h.counted, h.sorted.poll id l w⟩
    | interest b => exact ⟨h.counted.poll b w, h.sorted⟩
  leafDrop id l m h     := by
    cases l with
    | timed l => exact ⟨h.counted, h.sorted.drop id l⟩
    | interest b => exact ⟨h.counted.drop b, h.sorted⟩
  mapFn _ _ _ h         := h.calls _
  stateFn _ _ h         := h.calls _
  call r _ h            := h.call r
  hook _ h              := h.park
  wakes _ h             := ⟨h.counted, h.sorted⟩
  trap _ h              := h

/-! ## What the park fires

Slots that an event touches and timers that are due leave the driver, and nothing else does. Every task
that loses a slot or timer in this way is woken, and a wake that was delivered is in the queue.
-/

/-- One of the events is for the slot. -/
def Slot.TouchedBy (evs : List EpollEvent) (x : Slot) : Prop :=
  ∃ ev ∈ evs, ev.fd = x.fd ∧ ev.touches x.wantWrite = true

theorem armedAt_fire_eq (s : IoSched) (ev : EpollEvent) (dir : Bool) :
    (s.fire ev.events).armedAt dir = (s.armedAt dir && !ev.touches dir) := by
  cases dir <;>
    simp [IoSched.fire, schedUpdateInterest, IoSched.armedAt, IoSched.firesRead, IoSched.firesWrite,
      EpollEvent.touches] <;> grind

/-- What is left of a descriptor's slots. -/
theorem mem_slots_fire {s : IoSched} {ev : EpollEvent} {x : Slot} :
    x ∈ (if s.fd = ev.fd then s.fire ev.events else s).slots ↔
      x ∈ s.slots ∧ ¬ (ev.fd = x.fd ∧ ev.touches x.wantWrite = true) := by
  have hfd : x ∈ s.slots → x.fd = s.fd := fun hx => by rw [(mem_sched_slots.mp hx).2]
  by_cases heq : s.fd = ev.fd
  · have hsame : (s.fire ev.events).fd = s.fd := rfl
    rw [if_pos heq, mem_sched_slots, armedAt_fire_eq, wakerAt_fire, hsame, Bool.and_eq_true,
      Bool.not_eq_true', and_assoc, and_comm (a := _ = false), ← and_assoc, ← mem_sched_slots]
    refine and_congr_right fun hx => ?_
    simp [hfd hx, heq]
  · rw [if_neg heq]
    exact ⟨fun hx => ⟨hx, fun ht => heq (ht.1.trans (hfd hx)).symm⟩, And.left⟩

/-- An event takes away the slots that it touches. -/
theorem mem_slots_handleEvent {st : Bool × IoDriver × List TaskId} {ev : EpollEvent} {x : Slot} :
    x ∈ (handleEvent st ev).2.1.slots ↔
      x ∈ st.2.1.slots ∧ ¬ (ev.fd = x.fd ∧ ev.touches x.wantWrite = true) := by
  obtain ⟨progressed, d, woken⟩ := st
  unfold handleEvent
  dsimp only
  split
  next hnone =>
    refine ⟨fun hx => ⟨hx, fun ht => ?_⟩, And.left⟩
    obtain ⟨s, hs, hx⟩ := mem_slots.mp hx
    refine findSched_none hnone s hs ?_
    rw [ht.1, (mem_sched_slots.mp hx).2]
  next s hs =>
    simp only [mem_slots, List.mem_map, exists_exists_and_eq_and, mem_slots_fire]
    grind

/-- What has been woken stays so. -/
theorem handleEvent_mono (st : Bool × IoDriver × List TaskId) (ev : EpollEvent) :
    (st.1 = true → (handleEvent st ev).1 = true) ∧ st.2.2 ⊆ (handleEvent st ev).2.2 := by
  obtain ⟨progressed, d, woken⟩ := st
  unfold handleEvent
  dsimp only
  split
  · exact ⟨id, fun _ => id⟩
  · refine ⟨fun h => by simp [h], fun t ht => ?_⟩
    simp [ht]

/-- A slot that is touched is fired. -/
theorem handleEvent_wakes {st : Bool × IoDriver × List TaskId} {ev : EpollEvent} {x : Slot}
    (hnodup : (st.2.1.fds.map IoSched.fd).Nodup) (hx : x ∈ st.2.1.slots)
    (ht : ev.fd = x.fd ∧ ev.touches x.wantWrite = true) :
    (handleEvent st ev).1 = true ∧ x.waker ∈ (handleEvent st ev).2.2 := by
  obtain ⟨progressed, d, woken⟩ := st
  obtain ⟨s, hs, hxs⟩ := mem_slots.mp hx
  obtain ⟨harmed, hslot⟩ := mem_sched_slots.mp hxs
  have hfd : s.fd = ev.fd := by rw [ht.1, hslot]
  -- a descriptor is registered once
  have hfind : d.fds.find? (fun s => s.fd = ev.fd) = some s := by
    cases hfind : d.fds.find? (fun s => s.fd = ev.fd) with
    | none => exact absurd hfd (findSched_none hfind s hs)
    | some s' =>
        have hfd' : s'.fd = ev.fd := by simpa using List.find?_some hfind
        rw [List.inj_on_of_nodup_map hnodup (List.mem_of_find?_eq_some hfind) hs
          (hfd'.trans hfd.symm)]
  have htouch := ht.2
  simp only [handleEvent, hfind]
  rw [hslot]
  cases hdir : x.wantWrite with
  | false =>
      rw [hdir] at harmed htouch
      have hfires : s.firesRead ev.events = true := Bool.and_eq_true_iff.mpr ⟨harmed, htouch⟩
      simp [hfires, IoSched.wakerAt]
  | true =>
      rw [hdir] at harmed htouch
      have hfires : s.firesWrite ev.events = true := Bool.and_eq_true_iff.mpr ⟨harmed, htouch⟩
      simp [hfires, IoSched.wakerAt]

/-- The event loop. -/
theorem mem_slots_handleEvents {evs : List EpollEvent} {st : Bool × IoDriver × List TaskId}
    {x : Slot} : x ∈ (evs.foldl handleEvent st).2.1.slots ↔ x ∈ st.2.1.slots ∧ ¬ x.TouchedBy evs := by
  induction evs generalizing st with
  | nil => simp [Slot.TouchedBy]
  | cons ev evs ih =>
      rw [List.foldl_cons, ih, mem_slots_handleEvent, and_assoc, ← not_or]
      simp [Slot.TouchedBy]

theorem handleEvents_mono (evs : List EpollEvent) (st : Bool × IoDriver × List TaskId) :
    (st.1 = true → (evs.foldl handleEvent st).1 = true) ∧
      st.2.2 ⊆ (evs.foldl handleEvent st).2.2 := by
  induction evs generalizing st with
  | nil => exact ⟨id, fun _ => id⟩
  | cons ev evs ih =>
      obtain ⟨hprogress, hwoken⟩ := handleEvent_mono st ev
      obtain ⟨hprogress', hwoken'⟩ := ih (handleEvent st ev)
      exact ⟨fun h => hprogress' (hprogress h), fun t ht => hwoken' (hwoken ht)⟩

theorem handleEvents_wakes (evs : List EpollEvent) (st : Bool × IoDriver × List TaskId) {x : Slot}
    (hnodup : (st.2.1.fds.map IoSched.fd).Nodup) (hx : x ∈ st.2.1.slots) (ht : x.TouchedBy evs) :
    (evs.foldl handleEvent st).1 = true ∧ x.waker ∈ (evs.foldl handleEvent st).2.2 := by
  induction evs generalizing st with
  | nil =>
      obtain ⟨ev, hev, -⟩ := ht
      cases hev
  | cons ev evs ih =>
      by_cases hfirst : ev.fd = x.fd ∧ ev.touches x.wantWrite = true
      · obtain ⟨hprogress, hwoken⟩ := handleEvent_wakes hnodup hx hfirst
        obtain ⟨hprogress', hwoken'⟩ := handleEvents_mono evs (handleEvent st ev)
        exact ⟨hprogress' hprogress, hwoken' hwoken⟩
      · -- it is left for a later event
        apply ih
        · rw [handleEvent_fds]
          exact hnodup
        · exact mem_slots_handleEvent.mpr ⟨hx, hfirst⟩
        · obtain ⟨ev', hev', ht⟩ := ht
          rcases List.mem_cons.mp hev' with rfl | hev'
          · exact absurd ht hfirst
          · exact ⟨ev', hev', ht⟩

/-- From `m` to `m'`, what waits for an event that is reported or for a deadline that is reached has
    left the driver and is woken, and nothing else has. -/
structure IoParked (m m' : IoMem γ) (Woken : TaskId → Prop) : Prop where
  slots   : ∀ x, x ∈ m'.driver.slots ↔ x ∈ m.driver.slots ∧ ¬ x.TouchedBy m.events
  timers  : ∀ s, s ∈ m'.timers.reactor.pending ↔
    s ∈ m.timers.reactor.pending ∧ m.now' < s.deadline
  touched : ∀ x ∈ m.driver.slots, x.TouchedBy m.events → Woken x.waker
  due     : ∀ s ∈ m.timers.reactor.pending, s.deadline ≤ m.now' → Woken s.waker

/-- What one call of `io_driver_park` does to slots, timers and tasks. -/
theorem ioPark_parked {m : IoMem γ} (hm : m.Sound) (hnodup : (m.fds.map IoSched.fd).Nodup) :
    IoParked m (ioPark m).2 fun t =>
      (ioPark m).1 = true ∧ t ∈ (ioPark m).2.timers.reactor.woken := by
  have hslots : ∀ x, x ∈ (m.events.foldl handleEvent (false, m.driver, [])).2.1.slots ↔
      x ∈ m.driver.slots ∧ ¬ x.TouchedBy m.events := fun x => mem_slots_handleEvents
  have hwakes : ∀ x ∈ m.driver.slots, x.TouchedBy m.events → _ := fun _ =>
    handleEvents_wakes m.events (false, m.driver, []) hnodup
  unfold ioPark
  dsimp only
  split
  next hidle =>
    -- nothing is armed, and no timer is pending
    have hnone : m.driver.slots = 0 := by
      rw [← Multiset.card_eq_zero, card_slotsOf]
      exact Nat.le_zero.mp (hidle.2 ▸ hm.counted)
    have hpending : m.timers.reactor.pending = [] := earliest_eq_none_iff.mp hidle.1
    constructor <;> simp [hnone, hpending]
  next =>
    generalize m.events.foldl handleEvent (false, m.driver, []) = st at hslots hwakes
    obtain ⟨progressed, d, woken⟩ := st
    split
    next hnone =>
      have hpending : m.timers.reactor.pending = [] := earliest_eq_none_iff.mp hnone
      refine ⟨hslots, by simp [hpending, IoMem.table], fun x hx ht => ?_, by simp [hpending]⟩
      obtain ⟨hprogress, hwoken⟩ := hwakes x hx ht
      exact ⟨hprogress, List.mem_append_right _ hwoken⟩
    next =>
      have hdue : ∀ s, s ∈ (fireDue m.now' m.timers.reactor.pending).1 ↔ _ :=
        mem_fireDue hm.sorted
      refine ⟨hslots, fun s => ?_, fun x hx ht => ?_, fun s hs hle => ?_⟩
      · change s ∈ (fireDue m.now' m.timers.reactor.pending).2 ↔ _
        rw [fireDue_stay_eq hm.sorted, List.mem_filter, decide_eq_true_eq]
      · obtain ⟨hprogress, hwoken⟩ := hwakes x hx ht
        refine ⟨?_, ?_⟩
        · exact Bool.or_eq_true_iff.mpr (.inl hprogress)
        · exact List.mem_append_left _ (List.mem_append_right _ hwoken)
      · have hs := (hdue s).mpr ⟨hs, hle⟩
        refine ⟨Bool.or_eq_true_iff.mpr (.inr ?_), ?_⟩
        · change (!(fireDue m.now' m.timers.reactor.pending).1.isEmpty) = true
          simp [List.ne_nil_of_mem hs]
        · exact List.mem_append_right _ (List.mem_map_of_mem hs)

section Runs

variable {p : IoProgram F K γ} {park : Bool} {start : Nat} {ctx : γ}
  {moves : List (Move IoLeafCall F K (IoCall γ))} {h h' : Host IoLeaf F K (IoMem γ)}

/-- **No wake is lost in a park.** After every run, the driver's park takes away exactly the slots that
    an event is for and the timers that are due, and when it returns their tasks are in the ready queue
    and the executor is in its drive loop. -/
theorem park_wakes (hrun : Machine.run (Host.step p.site)
      (Host.init park (IoMem.init start ctx)) (moves.map Move.inIoBoxes) = some h)
    (hs : h.step p.site .park = some h') :
    IoParked h.world.mem h'.world.mem fun t =>
      (∃ c, h'.sys.pc = .drive c) ∧ h'.sys.Queued t := by
  have hG := (driven_rules p).and (sound_keeps p)
  rcases io_run hG ⟨driven_init start ctx, sound_init start ctx⟩ hrun with
    ⟨live, hk⟩ | ⟨_, _, _, _, -, -, -, hcut⟩
  · obtain ⟨hdriven, hsound⟩ := hk.boxes
    have hparked := ioPark_parked hsound hdriven.watched.nodup
    obtain ⟨hmem, hqueued, c, hpc⟩ := hk.park_queues hG hs
    have hwoken : ∀ t, (ioPark h.world.mem).1 = true ∧
        t ∈ (ioPark h.world.mem).2.timers.reactor.woken →
        (∃ c, h'.sys.pc = .drive c) ∧ h'.sys.Queued t := by
      rintro t ⟨hprogress, ht⟩
      refine ⟨⟨c, ?_⟩, hqueued t ht⟩
      have hprogress : (p.site.hook h.world.mem).1 = true := hprogress
      rw [hpc, if_pos hprogress]
    rw [hmem]
    exact {
      slots   := hparked.slots
      timers  := hparked.timers
      touched := fun x hx ht => hwoken _ (hparked.touched x hx ht)
      due     := fun s hs hle => hwoken _ (hparked.due s hs hle) }
  · rw [hcut.last] at hs
    cases hs

end Runs

/-- A reader with a time limit, and a writer on the same descriptor, wait for the driver. -/
def timeLimitMoves : List (Move IoLeafCall Empty Empty (IoCall Unit)) :=
  [.call (.add 3 true true),
    .spawn (.select2 (.leaf (.interest 3 false)) (.leaf (.timed (.sleep 5)))),
    .spawn (.leaf (.interest 3 true)), .run, .drive, .poll 3, .drive, .poll 3, .drive,
    .call (.kernel (fun _ => [⟨3, EPOLLIN⟩]) 7)]

def timeLimitRun : Option (Host IoLeaf Empty Empty (IoMem Unit)) :=
  Machine.run (Host.step futuresOnly.site) (Host.init true (IoMem.init 0 ()))
    (timeLimitMoves.map Move.inIoBoxes)

def timeLimitPark : Option (Host IoLeaf Empty Empty (IoMem Unit)) :=
  timeLimitRun.bind fun h => h.step futuresOnly.site .park

/-- The descriptor is readable in time for the reader, but its timer is due as well. The writer goes
    on waiting. -/
theorem park_wakes_reader :
    timeLimitPark.map (fun h => (h.sys.ex.tasks 0).map Task.queued) = some (some true) ∧
    timeLimitPark.map (fun h => (h.sys.ex.tasks 1).map Task.queued) = some (some false) ∧
    ∃ h h', timeLimitRun = some h ∧ timeLimitPark = some h' ∧
      IoParked h.world.mem h'.world.mem fun t => (∃ c, h'.sys.pc = .drive c) ∧ h'.sys.Queued t := by
  have hreader : timeLimitPark.map (fun h => (h.sys.ex.tasks 0).map Task.queued) =
      some (some true) := by decide +kernel
  have hwriter : timeLimitPark.map (fun h => (h.sys.ex.tasks 1).map Task.queued) =
      some (some false) := by decide +kernel
  obtain ⟨h', hpark, -⟩ := Option.map_eq_some_iff.mp hreader
  obtain ⟨h, hrun, hs⟩ := Option.bind_eq_some_iff.mp hpark
  exact ⟨hreader, hwriter, h, h', hrun, hpark, park_wakes hrun hs⟩

end CustLib.Exec
