import CustLib.Execution.IoParking
import CustLib.Execution.Waiting

/-!
# No task of the driver waits in vain

After every run of the executor on the I/O driver each live task is in the ready queue, or at hand, or
waits for something; and the driver has the waker of that task for everything that it waits for
(`nothing_unwatched`). Only where another future has armed or cancelled a future's slot since, or the
descriptor was removed, is the driver free of the waker. With `park_wakes`, an event or a deadline that
the task waits for puts it into the ready queue.
-/

namespace CustLib.Exec

variable {F K γ : Type}

/-! ## Slots through the functions of the driver

Membership of one slot in the table, through updates of a descriptor.
-/

/-- The slot is that of a direction of a descriptor. -/
def Slot.At (x : Slot) (fd : Int) (wantWrite : Bool) : Prop := x.fd = fd ∧ x.wantWrite = wantWrite

section Slots

variable {d d' : IoDriver} {l₁ l₂ : List IoSched} {s s' : IoSched} {x : Slot}

theorem mem_slots_split (hfds : d.fds = l₁ ++ s :: l₂) :
    x ∈ d.slots ↔ x ∈ s.slots ∨ ∃ y ∈ l₁ ++ l₂, x ∈ y.slots := by
  rw [mem_slots, hfds]
  simp only [List.mem_append, List.mem_cons]
  grind

/-- The other descriptors have other numbers. -/
theorem fd_ne_of_split (hnodup : (d.fds.map IoSched.fd).Nodup) (hfds : d.fds = l₁ ++ s :: l₂) :
    ∀ y ∈ l₁ ++ l₂, x ∈ y.slots → x.fd ≠ s.fd := by
  intro y hy hx heq
  rw [hfds, List.map_append, List.map_cons, List.nodup_middle, List.nodup_cons, ← List.map_append]
    at hnodup
  rw [(mem_sched_slots.mp hx).2] at heq
  exact hnodup.1 (heq ▸ List.mem_map_of_mem hy)

theorem mem_slots_arm {wantWrite : Bool} {w : TaskId} :
    x ∈ (schedUpdateInterest (s.arm wantWrite w)).slots ↔
      x = ⟨s.fd, wantWrite, w⟩ ∨ x ∈ s.slots ∧ x.wantWrite ≠ wantWrite := by
  have harmed : ∀ dir, (schedUpdateInterest (s.arm wantWrite w)).armedAt dir =
      (dir == wantWrite || s.armedAt dir) := fun dir => armedAt_arm s wantWrite dir w
  have hwaker : ∀ dir, (schedUpdateInterest (s.arm wantWrite w)).wakerAt dir =
      if dir = wantWrite then w else s.wakerAt dir := fun dir => wakerAt_arm s wantWrite dir w
  obtain ⟨fd, dir, waker⟩ := x
  rw [mem_sched_slots, mem_sched_slots, harmed, hwaker]
  have hfd : (schedUpdateInterest (s.arm wantWrite w)).fd = s.fd := fd_arm s wantWrite w
  rw [hfd]
  by_cases hdir : dir = wantWrite <;> simp [hdir]

theorem mem_slots_disarm {wantWrite : Bool} :
    x ∈ (schedUpdateInterest (s.disarm wantWrite)).slots ↔ x ∈ s.slots ∧ x.wantWrite ≠ wantWrite := by
  have harmed : ∀ dir, (schedUpdateInterest (s.disarm wantWrite)).armedAt dir =
      (dir != wantWrite && s.armedAt dir) := armedAt_disarm s wantWrite
  have hwaker : ∀ dir, (schedUpdateInterest (s.disarm wantWrite)).wakerAt dir = s.wakerAt dir :=
    wakerAt_disarm s wantWrite
  have hfd : (schedUpdateInterest (s.disarm wantWrite)).fd = s.fd := fd_disarm s wantWrite
  rw [mem_sched_slots, mem_sched_slots, harmed, hwaker, hfd]
  by_cases hdir : x.wantWrite = wantWrite <;> simp [hdir]

/-! ## What a function does to a slot

For each function of the driver, the slots that it leaves as they are, and what becomes of the one it is
about.
-/

/-- A future arms a slot. -/
theorem interestPoll_slots {b : InterestBox} {w : TaskId} (hs : findSched d b.fd = some s)
    (harmed : b.armed = false) :
    (interestPoll d b w).1 = false ∧ (interestPoll d b w).2.2 = { b with armed := true } ∧
      ⟨b.fd, b.wantWrite, w⟩ ∈ (interestPoll d b w).2.1.slots ∧
      (∀ x ∈ d.slots, x ∈ (interestPoll d b w).2.1.slots ∨ x.At b.fd b.wantWrite) ∧
      ((d.fds.map IoSched.fd).Nodup → ∀ x ∈ (interestPoll d b w).2.1.slots,
        x = ⟨b.fd, b.wantWrite, w⟩ ∨ x ∈ d.slots ∧ ¬ x.At b.fd b.wantWrite) := by
  obtain ⟨hfd, l₁, l₂, hfds, hupdate⟩ := findSched_split hs
  have hsplit : (interestPoll d b w).2.1.fds =
      l₁ ++ schedUpdateInterest (s.arm b.wantWrite w) :: l₂ := by
    simp [interestPoll, hs, harmed, hupdate]
  refine ⟨by simp [interestPoll, hs, harmed], by simp [interestPoll, hs, harmed], ?_, ?_, ?_⟩
  · rw [mem_slots_split hsplit, mem_slots_arm, hfd]
    exact .inl (.inl rfl)
  · intro x hx
    rw [mem_slots_split hsplit, mem_slots_arm]
    rcases (mem_slots_split hfds).mp hx with hx | hx
    · by_cases hdir : x.wantWrite = b.wantWrite
      · exact .inr ⟨by rw [(mem_sched_slots.mp hx).2, hfd], hdir⟩
      · exact .inl (.inl (.inr ⟨hx, hdir⟩))
    · exact .inl (.inr hx)
  · intro hnodup x hx
    rw [mem_slots_split hsplit, mem_slots_arm, hfd] at hx
    rw [mem_slots_split hfds]
    rcases hx with (hx | ⟨hx, hdir⟩) | ⟨y, hy, hx⟩
    · exact .inl hx
    · exact .inr ⟨.inl hx, fun h => hdir h.2⟩
    · exact .inr ⟨.inr ⟨y, hy, hx⟩, fun h => fd_ne_of_split hnodup hfds y hy hx (h.1.trans hfd.symm)⟩

/-- A drop takes away the slot of the future, if it is armed. -/
theorem interestDrop_slots (d : IoDriver) (b : InterestBox) :
    (∀ x ∈ d.slots, x ∈ (interestDrop d b).1.slots ∨
      (interestDrop d b).2.isEmpty = false ∧ x.At b.fd b.wantWrite) ∧
    ∀ x ∈ (interestDrop d b).1.slots, x ∈ d.slots := by
  unfold interestDrop
  split
  · exact ⟨fun x hx => .inl hx, fun x hx => hx⟩
  next s hs =>
    obtain ⟨hfd, l₁, l₂, hfds, hupdate⟩ := findSched_split hs
    split
    · dsimp only
      rw [hupdate]
      refine ⟨fun x hx => ?_, fun x hx => ?_⟩
      · rw [mem_slots_split rfl, mem_slots_disarm]
        rcases (mem_slots_split hfds).mp hx with hx | hx
        · by_cases hdir : x.wantWrite = b.wantWrite
          · exact .inr ⟨rfl, by rw [(mem_sched_slots.mp hx).2, hfd], hdir⟩
          · exact .inl (.inl ⟨hx, hdir⟩)
        · exact .inl (.inr hx)
      · rw [mem_slots_split rfl, mem_slots_disarm] at hx
        rw [mem_slots_split hfds]
        exact hx.imp And.left id
    · exact ⟨fun x hx => .inl hx, fun x hx => hx⟩

/-- A descriptor is removed with its slots. -/
theorem cexecIoRemove_slots (d : IoDriver) (fd : Int) :
    (∀ x ∈ d.slots, x ∈ (cexecIoRemove d fd).1.slots ∨ x.fd = fd) ∧
    ∀ x ∈ (cexecIoRemove d fd).1.slots, x ∈ d.slots := by
  unfold cexecIoRemove
  split
  next s hs =>
    have hfd := (findSched_split hs).1
    refine ⟨fun x hx => ?_, fun x hx => ?_⟩
    · obtain ⟨y, hy, hx⟩ := mem_slots.mp hx
      by_cases hys : y = s
      · exact .inr (by rw [(mem_sched_slots.mp hx).2, hys, hfd])
      · exact .inl (mem_slots.mpr ⟨y, (List.mem_erase_of_ne hys).mpr hy, hx⟩)
    · obtain ⟨y, hy, hx⟩ := mem_slots.mp hx
      exact mem_slots.mpr ⟨y, List.mem_of_mem_erase hy, hx⟩
  · exact ⟨fun x hx => .inl hx, fun x hx => hx⟩

/-- A new descriptor has no armed slot. -/
theorem cexecIoAdd_slots (d : IoDriver) (fd : Int) (alloc ctl : Bool) :
    x ∈ (cexecIoAdd d fd alloc ctl).2.slots ↔ x ∈ d.slots := by
  unfold cexecIoAdd
  split
  · rfl
  · split
    · have hnew : x ∉ (⟨fd, 0, 0, false, false, 0⟩ : IoSched).slots := by
        simp [mem_sched_slots, IoSched.armedAt]
      simp only [mem_slots, List.mem_append, List.mem_singleton]
      grind
    · rfl

end Slots

/-! ## Futures that were robbed of their slots

The history of the slots tells who has armed one and what happened to it since. A future is robbed when
another one arms or cancels its slot, or its descriptor is removed. `Awaited` is what the driver knows
of a leaf that a task waits for, with this exception.
-/

/-- What takes the slot away from the future in the box `box`: it is armed again, or another future
    cancels it, or the descriptor is removed. -/
def SlotNote.Robs (box : Nat) (fd : Int) (wantWrite : Bool) : SlotNote → Prop
  | .armed _ fd' dir        => fd' = fd ∧ dir = wantWrite
  | .cancelled box' fd' dir => box' ≠ box ∧ fd' = fd ∧ dir = wantWrite
  | .removed fd'            => fd' = fd

/-- The future has armed its slot, and was robbed of it. -/
def Robbed (notes : List SlotNote) (box : Nat) (fd : Int) (wantWrite : Bool) : Prop :=
  ∃ before after, notes = before ++ .armed box fd wantWrite :: after ∧
    ∃ e ∈ after, e.Robs box fd wantWrite

theorem Robbed.append {notes : List SlotNote} {box : Nat} {fd : Int} {wantWrite : Bool}
    (h : Robbed notes box fd wantWrite) (more : List SlotNote) :
    Robbed (notes ++ more) box fd wantWrite := by
  obtain ⟨before, after, rfl, e, he, hrobs⟩ := h
  exact ⟨before, after ++ more, by simp, e, List.mem_append_left _ he, hrobs⟩

/-- What robs a future that has armed its slot. -/
theorem robbed_of_note {notes : List SlotNote} {box : Nat} {fd : Int} {wantWrite : Bool}
    (h : .armed box fd wantWrite ∈ notes) {e : SlotNote} (he : e.Robs box fd wantWrite) :
    Robbed (notes ++ [e]) box fd wantWrite := by
  obtain ⟨before, after, rfl⟩ := List.append_of_mem h
  exact ⟨before, after ++ [e], by simp, e, by simp, he⟩

/-- The slot holds the waker of `t`, or the future that has armed it was robbed of it. -/
structure Armed (m : IoMem γ) (t : TaskId) (box : Nat) (fd : Int) (wantWrite : Bool) : Prop where
  note : .armed box fd wantWrite ∈ m.notes
  slot : ⟨fd, wantWrite, t⟩ ∈ m.driver.slots ∨ Robbed m.notes box fd wantWrite

/-- What the driver knows of a leaf that task `t` waits for. -/
def Registered (m : IoMem γ) (t : TaskId) (box : Nat) : IoLeaf → Prop
  | .timed (.sleep _ true deadline _) => ⟨box, deadline, t⟩ ∈ m.timers.reactor.pending
  | .interest ⟨fd, wantWrite, true⟩   => Armed m t box fd wantWrite
  | _                                 => False

/-- It does, unless the task is woken or the box of the leaf freed. -/
def Awaited (t : TaskId) (box : Nat) (l : IoLeaf) (m : IoMem γ) : Prop :=
  t ∈ m.timers.reactor.woken ∨ .freed box ∈ m.timers.clones ∨ Registered m t box l

section Awaited

variable {t : TaskId} {box : Nat} {l : IoLeaf} {m m' : IoMem γ}

/-- A function that wakes nobody, drops nothing, and keeps what is registered. -/
theorem Awaited.of_registered (h : Awaited t box l m)
    (hwoken : m.timers.reactor.woken ⊆ m'.timers.reactor.woken)
    (hclones : m.timers.clones ⊆ m'.timers.clones)
    (hreg : Registered m t box l → Awaited t box l m') : Awaited t box l m' := by
  rcases h with h | h | h
  · exact .inl (hwoken h)
  · exact .inr (.inl (hclones h))
  · exact hreg h

/-- A function that leaves the timer of the box alone, and may rob its future of the slot. -/
theorem Registered.next (h : Registered m t box l)
    (htimer : ∀ s ∈ m.timers.reactor.pending, s.id = box → s ∈ m'.timers.reactor.pending)
    (more : List SlotNote) (hnotes : m'.notes = m.notes ++ more)
    (hslots : ∀ x ∈ m.driver.slots, x ∈ m'.driver.slots ∨
      ∃ e, more = [e] ∧ e.Robs box x.fd x.wantWrite) : Registered m' t box l := by
  unfold Registered at h ⊢
  split at h
  · exact htimer _ h rfl
  · refine ⟨hnotes ▸ List.mem_append_left _ h.note, ?_⟩
    rw [hnotes]
    rcases h.slot with hslot | hrobbed
    · rcases hslots _ hslot with hslot | ⟨e, rfl, he⟩
      · exact .inl hslot
      · exact .inr (robbed_of_note h.note he)
    · exact .inr (hrobbed.append more)
  · exact h

/-- A function that does nothing to the slots. -/
theorem Registered.same (h : Registered m t box l)
    (htimer : ∀ s ∈ m.timers.reactor.pending, s.id = box → s ∈ m'.timers.reactor.pending)
    (hnotes : m'.notes = m.notes) (hfds : m'.fds = m.fds) : Registered m' t box l := by
  refine h.next htimer [] (hnotes.trans (List.append_nil _).symm) fun x hx => .inl ?_
  rw [mem_slots] at hx ⊢
  rwa [show m'.driver.fds = m.driver.fds from hfds]

theorem Awaited.call (h : Awaited t box l m) (r : IoCall γ) : Awaited t box l (r.run m) := by
  cases r with
  | work f | time reading | kernel wait reading =>
      refine h.of_registered (fun _ => id) (fun _ => id) fun hreg => .inr (.inr ?_)
      exact hreg.same (fun _ hs _ => hs) rfl rfl
  | add fd alloc ctl =>
      refine h.of_registered (fun _ => id) (fun _ => id) fun hreg => .inr (.inr ?_)
      refine hreg.next (fun _ hs _ => hs) [] (List.append_nil _).symm fun x hx => .inl ?_
      exact (cexecIoAdd_slots _ _ _ _).mpr hx
  | remove fd =>
      refine h.of_registered (fun _ => id) (fun _ => id) fun hreg => .inr (.inr ?_)
      refine hreg.next (fun _ hs _ => hs) [.removed fd] rfl fun x hx => ?_
      exact ((cexecIoRemove_slots m.driver fd).1 x hx).imp id fun hfd => ⟨_, rfl, hfd.symm⟩

theorem Awaited.calls (h : Awaited t box l m) (rs : List (IoCall γ)) :
    Awaited t box l (rs.foldl IoCall.run m) := by
  induction rs generalizing m with
  | nil => exact h
  | cons r rs ih => exact ih (h.call r)

/-- A poll of a timed leaf calls wakers, and inserts timers. -/
theorem timedPoll_mono (self : Nat) (l : RtLeaf) (w : TaskId) (m : TimerMem γ) :
    m.reactor.woken ⊆ (timedPoll self l w m).2.reactor.woken ∧
      m.reactor.pending ⊆ (timedPoll self l w m).2.reactor.pending := by
  change m.reactor.woken ⊆ (rtLeafPoll self l w m.reactor).2.woken ∧
    m.reactor.pending ⊆ (rtLeafPoll self l w m.reactor).2.pending
  unfold rtLeafPoll
  split
  case h_2 => exact ⟨List.subset_append_left _ _, fun _ => id⟩
  case h_4 dur armed deadline waker =>
    unfold sleepPoll
    split
    · dsimp only
      split
      · exact ⟨fun _ => id, fun _ => id⟩
      · refine ⟨fun _ => id, fun s hs => ?_⟩
        exact (reactorInsert_perm _ _).mem_iff.mpr (List.mem_cons_of_mem _ hs)
    · exact ⟨fun _ => id, fun _ => id⟩
  all_goals exact ⟨fun _ => id, fun _ => id⟩

/-- A poll that arms no slot does nothing. -/
theorem ioLeafPoll_idle {b : InterestBox}
    (h : ¬ ∃ s, findSched m.driver b.fd = some s ∧ b.armed = false) (self : Nat) (w : TaskId) :
    (ioLeafPoll self (.interest b) w m).1.2 = .interest b ∧
      (ioLeafPoll self (.interest b) w m).2 = m := by
  have hidle : (interestPoll m.driver b w).2 = (m.driver, b) := by
    unfold interestPoll
    split
    · rfl
    next s hs =>
      have harmed : b.armed = true := by
        cases hb : b.armed
        · exact absurd ⟨s, hs, hb⟩ h
        · rfl
      simp [harmed]
  simp only [ioLeafPoll, hidle, IoMem.table]
  simp [IoMem.driver]

theorem Awaited.leafPoll (h : Awaited t box l m) (self : Nat) (l' : IoLeaf) (w : TaskId) :
    Awaited t box l (ioLeafPoll self l' w m).2 := by
  cases l' with
  | timed l' =>
      obtain ⟨hwoken, hpending⟩ := timedPoll_mono self l' w m.timers
      refine h.of_registered hwoken (List.subset_append_left _ _) fun hreg => .inr (.inr ?_)
      exact hreg.same (fun _ hs _ => hpending hs) rfl rfl
  | interest b =>
      by_cases harms : ∃ s, findSched m.driver b.fd = some s ∧ b.armed = false
      · obtain ⟨s, hs, hb⟩ := harms
        obtain ⟨-, hb', -, hkeep, -⟩ := interestPoll_slots (w := w) hs hb
        refine h.of_registered (fun _ => id) (fun _ => id) fun hreg => .inr (.inr ?_)
        refine hreg.next (fun _ hs _ => hs) [.armed self b.fd b.wantWrite] ?_ ?_
        · simp [ioLeafPoll, hb', hb]
        · intro x hx
          exact (hkeep x hx).imp id fun hat => ⟨_, rfl, hat.1.symm, hat.2.symm⟩
      · rwa [(ioLeafPoll_idle harms self w).2]

theorem Awaited.leafDrop (h : Awaited t box l m) (self : Nat) (l' : IoLeaf) :
    Awaited t box l (ioLeafDrop self l' m) := by
  have hclones : ∀ l', m.timers.clones ⊆ (timedDrop self l' m.timers).clones :=
    fun _ => List.subset_append_left _ _
  by_cases hbox : box = self
  · -- it is the leaf itself, and its box is freed
    have hfreed : ∀ l', .freed box ∈ (timedDrop self l' m.timers).clones := by
      intro l'
      rw [hbox, timedDrop]
      split <;> simp
    cases l' with
    | timed l' => exact .inr (.inl (hfreed l'))
    | interest b => exact .inr (.inl (hfreed .ready))
  cases l' with
  | timed l' =>
      refine h.of_registered ?_ (hclones l') fun hreg => .inr (.inr ?_)
      · exact fun _ ht => (timedDrop_woken self l' m.timers).symm ▸ ht
      · refine hreg.same (fun s hs hid => ?_) rfl rfl
        change s ∈ (rtLeafDrop self l' m.timers.reactor).pending
        unfold rtLeafDrop
        split
        case h_3 dur armed deadline waker =>
          unfold sleepDrop
          split
          · refine (List.mem_erase_of_ne fun heq => hbox ?_).mpr hs
            rw [← hid, heq]
          · exact hs
        all_goals exact hs
  | interest b =>
      refine h.of_registered (fun _ => id) (hclones .ready) fun hreg => .inr (.inr ?_)
      refine hreg.next (fun _ hs _ => hs) (if (interestDrop m.driver b).2.isEmpty then []
        else [.cancelled self b.fd b.wantWrite]) rfl fun x hx => ?_
      refine ((interestDrop_slots m.driver b).1 x hx).imp id fun hat => ?_
      obtain ⟨hdropped, hfd, hdir⟩ := hat
      rw [hdropped]
      exact ⟨.cancelled self b.fd b.wantWrite, rfl, Ne.symm hbox, hfd.symm, hdir.symm⟩

end Awaited

/-! ## What the boxes know of the driver

A box notes whether it is armed, so the driver can be found out about from the boxes: an interest future
that has noted its slot has it, unless it was robbed.
-/

/-- A timer that has fired is due, and an armed slot is that of the task that has noted it, unless the
    future was robbed. -/
structure Candid (C : Multiset (Box IoLeaf)) (m : IoMem γ) : Prop where
  late : ∀ c ∈ C, ∀ dur deadline waker, c.leaf = some (.timed (.sleep dur true deadline waker)) →
    m.timers.reactor.fired c.id = true → deadline ≤ m.timers.reactor.clock
  note : ∀ c ∈ C, ∀ fd dir, c.leaf = some (.interest ⟨fd, dir, true⟩) → .armed c.id fd dir ∈ m.notes
  slot : ∀ c ∈ C, ∀ fd dir, c.leaf = some (.interest ⟨fd, dir, true⟩) →
    ∀ waker, ⟨fd, dir, waker⟩ ∈ m.driver.slots → waker = c.task ∨ Robbed m.notes c.id fd dir

/-- What a poll of a timed leaf does to the flags and the clock. -/
theorem timedPoll_late (self : Nat) (l : RtLeaf) (w : TaskId) (m : TimerMem γ) :
    (timedPoll self l w m).2.reactor.clock = m.reactor.clock ∧
      (∀ id, (timedPoll self l w m).2.reactor.fired id = true → m.reactor.fired id = true) ∧
      ∀ dur deadline waker, (timedPoll self l w m).1.2 = .sleep dur true deadline waker →
        (timedPoll self l w m).2.reactor.fired self = true → l = .sleep dur true deadline waker := by
  change (rtLeafPoll self l w m.reactor).2.clock = m.reactor.clock ∧
    (∀ id, (rtLeafPoll self l w m.reactor).2.fired id = true → m.reactor.fired id = true) ∧
    ∀ dur deadline waker, (rtLeafPoll self l w m.reactor).1.2 = .sleep dur true deadline waker →
      (rtLeafPoll self l w m.reactor).2.fired self = true → l = .sleep dur true deadline waker
  cases l with
  | ready => exact ⟨rfl, fun _ => id, nofun⟩
  | yieldNow yielded => cases yielded <;> exact ⟨rfl, fun _ => id, nofun⟩
  | sleep dur armed deadline waker =>
      cases armed with
      | true => exact ⟨rfl, fun _ => id, fun _ _ _ heq _ => heq⟩
      | false =>
          simp only [rtLeafPoll, sleepPoll, Bool.not_false, if_true]
          split
          · exact ⟨rfl, fun _ => id, fun _ _ _ heq _ => heq⟩
          · refine ⟨rfl, fun id hf => ?_, fun _ _ _ _ hf => ?_⟩
            · by_cases hid : id = self
              · simp [hid] at hf
              · simpa [hid] using hf
            · simp at hf

/-- A drop fires no timer, and does not move the clock. -/
theorem timedDrop_late (self : Nat) (l : RtLeaf) (m : TimerMem γ) :
    (timedDrop self l m).reactor.clock = m.reactor.clock ∧
      (timedDrop self l m).reactor.fired = m.reactor.fired := by
  change (rtLeafDrop self l m.reactor).clock = _ ∧ (rtLeafDrop self l m.reactor).fired = _
  cases l with
  | ready | yieldNow yielded => exact ⟨rfl, rfl⟩
  | sleep dur armed deadline waker =>
      simp only [rtLeafDrop, sleepDrop]
      split <;> exact ⟨rfl, rfl⟩

/-- What a park does: it notes nothing, arms no slot, and fires timers that are due. -/
theorem ioPark_effect (m : IoMem γ) :
    (ioPark m).2.notes = m.notes ∧ m.timers.clones ⊆ (ioPark m).2.timers.clones ∧
      m.timers.reactor.clock ≤ (ioPark m).2.timers.reactor.clock ∧
      (∀ x ∈ (ioPark m).2.driver.slots, x ∈ m.driver.slots) ∧
      ∀ id, (ioPark m).2.timers.reactor.fired id = true → m.timers.reactor.fired id = true ∨
        ∃ s ∈ m.timers.reactor.pending, s.id = id ∧
          s.deadline ≤ (ioPark m).2.timers.reactor.clock := by
  have hslots : ∀ x ∈ (m.events.foldl handleEvent (false, m.driver, [])).2.1.slots,
      x ∈ m.driver.slots := fun x hx => (mem_slots_handleEvents.mp hx).1
  have hclock : m.timers.reactor.clock ≤ m.now' := Nat.le_max_left _ _
  unfold ioPark
  dsimp only
  split
  · exact ⟨rfl, fun _ => id, Nat.le_refl _, fun _ => id, fun _ => .inl⟩
  generalize m.events.foldl handleEvent (false, m.driver, []) = st at hslots
  obtain ⟨progressed, d, woken⟩ := st
  split
  · exact ⟨rfl, fun _ => id, hclock, hslots, fun _ => .inl⟩
  · refine ⟨rfl, List.subset_append_left _ _, hclock, hslots, fun id hf => ?_⟩
    change (m.timers.reactor.fired id ||
      (fireDue m.now' m.timers.reactor.pending).1.any (·.id = id)) = true at hf
    rcases Bool.or_eq_true_iff.mp hf with hf | hf
    · exact .inl hf
    · obtain ⟨s, hs, hid⟩ := List.any_eq_true.mp hf
      have hmem := List.mem_append_left (fireDue m.now' m.timers.reactor.pending).2 hs
      rw [fireDue_append] at hmem
      exact .inr ⟨s, hmem, of_decide_eq_true hid, fireDue_fired _ _ s hs⟩

namespace Candid

variable {C : Multiset (Box IoLeaf)} {c : Box IoLeaf} {m m' : IoMem γ}

theorem rest (h : Candid (c ::ₘ C) m) : Candid C m where
  late c hc := h.late c (Multiset.mem_cons_of_mem hc)
  note c hc := h.note c (Multiset.mem_cons_of_mem hc)
  slot c hc := h.slot c (Multiset.mem_cons_of_mem hc)

/-- One more box. -/
theorem cons (h : Candid C m)
    (hlate : ∀ dur deadline waker, c.leaf = some (.timed (.sleep dur true deadline waker)) →
      m.timers.reactor.fired c.id = true → deadline ≤ m.timers.reactor.clock)
    (hslot : ∀ fd dir, c.leaf = some (.interest ⟨fd, dir, true⟩) → .armed c.id fd dir ∈ m.notes ∧
      ∀ waker, ⟨fd, dir, waker⟩ ∈ m.driver.slots → waker = c.task ∨ Robbed m.notes c.id fd dir) :
    Candid (c ::ₘ C) m where
  late := Multiset.forall_mem_cons.mpr ⟨hlate, h.late⟩
  note := Multiset.forall_mem_cons.mpr ⟨fun fd dir hleaf => (hslot fd dir hleaf).1, h.note⟩
  slot := Multiset.forall_mem_cons.mpr ⟨fun fd dir hleaf => (hslot fd dir hleaf).2, h.slot⟩

/-- The timers that have fired are the same, or due, and a new slot robs all others. -/
theorem next (h : Candid C m)
    (hfired : ∀ c ∈ C, ∀ dur deadline waker,
      c.leaf = some (.timed (.sleep dur true deadline waker)) →
      m'.timers.reactor.fired c.id = true →
      m.timers.reactor.fired c.id = true ∨ deadline ≤ m'.timers.reactor.clock)
    (hclock : m.timers.reactor.clock ≤ m'.timers.reactor.clock)
    (more : List SlotNote) (hnotes : m'.notes = m.notes ++ more)
    (hslots : ∀ x ∈ m'.driver.slots, x ∈ m.driver.slots ∨
      ∃ e, more = [e] ∧ ∀ box, e.Robs box x.fd x.wantWrite) : Candid C m' where
  late c hc dur deadline waker hleaf hf := by
    rcases hfired c hc dur deadline waker hleaf hf with hf | hle
    · exact (h.late c hc dur deadline waker hleaf hf).trans hclock
    · exact hle
  note c hc fd dir hleaf := hnotes ▸ List.mem_append_left _ (h.note c hc fd dir hleaf)
  slot c hc fd dir hleaf waker hx := by
    rw [hnotes]
    rcases hslots _ hx with hx | ⟨e, rfl, he⟩
    · exact (h.slot c hc fd dir hleaf waker hx).imp id fun hrobbed => hrobbed.append more
    · exact .inr (robbed_of_note (h.note c hc fd dir hleaf) (he c.id))

/-- A function that does nothing to the timers and arms no slot. -/
theorem table (h : Candid C m) (htimers : m'.timers.reactor = m.timers.reactor)
    (more : List SlotNote) (hnotes : m'.notes = m.notes ++ more)
    (hslots : ∀ x ∈ m'.driver.slots, x ∈ m.driver.slots) : Candid C m' :=
  h.next (fun _ _ _ _ _ _ hf => .inl (htimers ▸ hf)) (htimers ▸ Nat.le_refl _) more hnotes
    fun x hx => .inl (hslots x hx)

theorem call (h : Candid C m) (r : IoCall γ) : Candid C (r.run m) := by
  cases r with
  | work f => exact h.table rfl [] (List.append_nil _).symm fun _ => id
  | time reading =>
      exact h.next (fun _ _ _ _ _ _ hf => .inl hf) (Nat.le_max_left _ _) []
        (List.append_nil _).symm fun _ hx => .inl hx
  | add fd alloc ctl =>
      exact h.table rfl [] (List.append_nil _).symm fun _ hx => (cexecIoAdd_slots _ _ _ _).mp hx
  | remove fd => exact h.table rfl [.removed fd] rfl (cexecIoRemove_slots m.driver fd).2
  | kernel wait reading => exact h.table rfl [] (List.append_nil _).symm fun _ => id

theorem calls (h : Candid C m) (rs : List (IoCall γ)) : Candid C (rs.foldl IoCall.run m) := by
  induction rs generalizing m with
  | nil => exact h
  | cons r rs ih => exact ih (h.call r)

theorem leafPoll {live : List TaskId} {w : World (IoMem γ)} {t : TaskId} {id : Nat} {l : IoLeaf}
    (hd : Driven live (⟨t, id, some l⟩ ::ₘ C) w) (h : Candid (⟨t, id, some l⟩ ::ₘ C) w.mem) :
    Candid (⟨t, id, some (ioLeafPoll id l t w.mem).1.2⟩ ::ₘ C) (ioLeafPoll id l t w.mem).2 := by
  cases l with
  | timed l =>
      obtain ⟨hclock, hfired, hself⟩ := timedPoll_late id l t w.mem.timers
      have hrest : Candid C (ioLeafPoll id (.timed l) t w.mem).2 :=
        h.rest.next (fun _ _ _ _ _ _ hf => .inl (hfired _ hf)) (Nat.le_of_eq hclock.symm) []
          (List.append_nil _).symm fun _ hx => .inl hx
      refine hrest.cons (fun dur deadline waker hleaf hf => ?_) nofun
      -- a timer that was armed just now has not fired
      have hleaf := IoLeaf.timed.inj (Option.some.inj hleaf)
      obtain rfl := hself dur deadline waker hleaf hf
      change deadline ≤
        (timedPoll id (.sleep dur true deadline waker) t w.mem.timers).2.reactor.clock
      rw [hclock]
      exact h.late _ (Multiset.mem_cons_self _ _) dur deadline waker rfl (hfired _ hf)
  | interest b =>
      by_cases harms : ∃ s, findSched w.mem.driver b.fd = some s ∧ b.armed = false
      · obtain ⟨s, hs, hb⟩ := harms
        obtain ⟨-, hb', -, -, hold⟩ := interestPoll_slots (w := t) hs hb
        have hold := hold hd.watched.nodup
        have hnotes : (ioLeafPoll id (.interest b) t w.mem).2.notes =
            w.mem.notes ++ [.armed id b.fd b.wantWrite] := by
          simp [ioLeafPoll, hb', hb]
        have hrest : Candid C (ioLeafPoll id (.interest b) t w.mem).2 := by
          refine h.rest.next (fun _ _ _ _ _ _ hf => .inl hf) (Nat.le_refl _)
            [.armed id b.fd b.wantWrite] hnotes fun x hx => ?_
          rcases hold x hx with rfl | ⟨hx, -⟩
          · exact .inr ⟨_, rfl, fun _ => ⟨rfl, rfl⟩⟩
          · exact .inl hx
        refine hrest.cons nofun fun fd dir hleaf => ?_
        have hleaf : (interestPoll w.mem.driver b t).2.2 = ⟨fd, dir, true⟩ :=
          IoLeaf.interest.inj (Option.some.inj hleaf)
        rw [hb'] at hleaf
        cases hleaf
        refine ⟨by rw [hnotes]; simp, fun waker hx => .inl ?_⟩
        rcases hold _ hx with heq | ⟨-, hno⟩
        · cases heq
          rfl
        · exact absurd ⟨rfl, rfl⟩ hno
      · obtain ⟨hleaf, hmem⟩ := ioLeafPoll_idle harms id t
        rw [hleaf, hmem]
        exact h

theorem leafDrop (h : Candid (c ::ₘ C) m) (self : Nat) (l : IoLeaf) :
    Candid C (ioLeafDrop self l m) := by
  cases l with
  | timed l =>
      obtain ⟨hclock, hfired⟩ := timedDrop_late self l m.timers
      refine h.rest.next (fun c _ _ _ _ _ hf => .inl ?_) (Nat.le_of_eq hclock.symm) []
        (List.append_nil _).symm fun _ hx => .inl hx
      change (timedDrop self l m.timers).reactor.fired c.id = true at hf
      rwa [hfired] at hf
  | interest b =>
      exact h.rest.table rfl (if (interestDrop m.driver b).2.isEmpty then []
        else [.cancelled self b.fd b.wantWrite]) rfl (interestDrop_slots m.driver b).2

theorem park {live : List TaskId} {w : World (IoMem γ)} (hd : Driven live C w)
    (h : Candid C w.mem) : Candid C (ioPark w.mem).2 := by
  obtain ⟨hnotes, -, hclock, hslots, hfired⟩ := ioPark_effect w.mem
  refine h.next (fun c hc dur deadline waker hleaf hf => ?_) hclock []
    (hnotes.trans (List.append_nil _).symm) fun x hx => .inl (hslots x hx)
  rcases hfired c.id hf with hf | ⟨s, hs, hid, hle⟩
  · exact .inl hf
  · -- the timer that fires is the one in the box
    obtain ⟨c', hc', hsc⟩ := hd.timed.box_of_pending hs
    obtain ⟨-, hid', dur', hleaf'⟩ := mem_boxTimer.mp hsc
    have hmem : c.timer ∈ C.map Box.timer := Multiset.mem_map_of_mem Box.timer hc
    have hsame : c.timer = c' :=
      Multiset.inj_on_of_nodup_map hd.timed.nodup _ hmem _ hc' (hid.symm.trans hid')
    have hdeadline : some (RtLeaf.sleep dur true deadline waker) =
        some (.sleep dur' true s.deadline s.waker) := by
      rw [← hleaf', ← hsame, Box.timer, hleaf]
      rfl
    cases hdeadline
    exact .inr hle

end Candid

structure Alert (live : List TaskId) (C : Multiset (Box IoLeaf)) (w : World (IoMem γ)) : Prop where
  driven : Driven live C w
  candid : Candid C w.mem

theorem alert_hand (p : IoProgram F K γ) {live : List TaskId} {t : TaskId} (ht : t ∈ live)
    (woken : List TaskId) : HandRules p.site IoLeaf.New t
      fun C w => Alert live C w ∧ p.site.pendingWakes w = woken where
  asked C w h          := by
    obtain ⟨hdriven, hwoken⟩ := (driven_hand p ht woken).asked C w ⟨h.1.driven, h.2⟩
    exact ⟨⟨hdriven, h.1.candid⟩, hwoken⟩
  born C w leaf hnew h := by
    obtain ⟨hdriven, hwoken⟩ := (driven_hand p ht woken).born C w leaf hnew ⟨h.1.driven, h.2⟩
    refine ⟨⟨hdriven, h.1.candid.cons ?_ ?_⟩, hwoken⟩
    · exact fun _ _ _ hleaf => absurd (hnew _ hleaf) (by simp [IoLeaf.New, RtLeaf.armed])
    · exact fun _ _ hleaf => absurd (hnew _ hleaf) (by simp [IoLeaf.New])
  released C w id h    := by
    obtain ⟨hdriven, hwoken⟩ := (driven_hand p ht woken).released C w id ⟨h.1.driven, h.2⟩
    exact ⟨⟨hdriven, h.1.candid.rest⟩, hwoken⟩
  dropped C w id l h   := by
    obtain ⟨hdriven, hwoken⟩ := (driven_hand p ht woken).dropped C w id l ⟨h.1.driven, h.2⟩
    exact ⟨⟨hdriven, h.1.candid.leafDrop id l⟩, hwoken⟩

theorem alert_rules (p : IoProgram F K γ) : LiveRules p.site IoLeaf.New Alert where
  tasks h                 := h.driven.tasks
  woken h                 := h.driven.timed.woken
  relabel h htasks hwoken := ⟨h.driven.relabel htasks hwoken, h.candid⟩
  hand ht                 := alert_hand p ht []
  boxes ht                := by
    have hhand := fun w : World (IoMem γ) => alert_hand p ht (p.site.pendingWakes w)
    exact {
      asked    := fun C w h => ((hhand w).asked C w ⟨h, rfl⟩).1
      born     := fun C w leaf hnew h => ((hhand w).born C w leaf hnew ⟨h, rfl⟩).1
      released := fun C w id h => ((hhand w).released C w id ⟨h, rfl⟩).1
      dropped  := fun C w id l h => ((hhand w).dropped C w id l ⟨h, rfl⟩).1
      used     := fun C w id h => ⟨(driven_boxes p ht).used C w id h.driven, h.candid⟩
      finished := fun C w id h => ⟨(driven_boxes p ht).finished C w id h.driven, h.candid⟩
      polled   := fun C w id l out h => ⟨h.driven.leafPoll ht, .leafPoll h.driven h.candid⟩
      mapped   := fun C w f out h => ⟨h.driven.calls _, h.candid.calls _⟩
      stepped  := fun C w k h => ⟨leaves_inIoBoxes _, h.driven.calls _, h.candid.calls _⟩
      trapped  := fun C w h => h }
  call r h                := ⟨h.driven.call r, h.candid.call r⟩
  hook h                  := ⟨h.driven.park, .park h.driven h.candid⟩
  wakes h                 := by
    obtain ⟨hdriven, hwoken⟩ := (driven_rules p).wakes h.driven
    refine ⟨⟨hdriven, ?_⟩, hwoken⟩
    exact h.candid.next (fun _ _ _ _ _ _ hf => .inl hf) (Nat.le_refl _) []
      (List.append_nil _).symm fun _ hx => .inl hx

/-! ## No task waits in vain

The rules of `CustLib.Execution.Waiting` for the driver, and what follows for a driver with nothing
armed and no timer: whoever still waits was robbed.
-/

theorem awaited_keeps (p : IoProgram F K γ) (t : TaskId) (box : Nat) (l : IoLeaf) :
    Env.Keeps p.site.toEnv (Awaited t box l) where
  leafPoll self l' w _ _ h := h.leafPoll self l' w
  leafDrop self l' _ h     := h.leafDrop self l'
  mapFn _ _ _ h            := h.calls _
  stateFn _ _ h            := h.calls _

/-- A sleep that answers `Pending` has a timer, and a `yield_now` has woken its task. -/
theorem timedPoll_awaited {live : List TaskId} {C : Multiset (Box IoLeaf)} {w : World (IoMem γ)}
    {t : TaskId} {id : Nat} {l : RtLeaf}
    (h : Alert live (⟨t, id, some (.timed l)⟩ ::ₘ C) w)
    (hst : (rtLeafPoll id l t w.mem.timers.reactor).1.1 = false) :
    Awaited t id (ioLeafPoll id (.timed l) t w.mem).1.2 (ioLeafPoll id (.timed l) t w.mem).2 := by
  have hmem := Multiset.mem_cons_self (⟨t, id, some (.timed l)⟩ : Box IoLeaf) C
  cases l with
  | ready => cases hst
  | yieldNow yielded =>
      cases yielded with
      | true => cases hst
      | false => exact .inl (List.mem_append_right _ (List.mem_singleton_self t))
  | sleep dur armed deadline waker =>
      cases armed with
      | false =>
          refine .inr (.inr ?_)
          simp only [rtLeafPoll, sleepPoll, Bool.not_false, if_true] at hst
          split at hst
          · cases hst
          next hlt =>
            simp only [ioLeafPoll, timedPoll, rtLeafPoll, sleepPoll, Bool.not_false, if_true, hlt,
              if_false, Registered]
            exact (reactorInsert_perm _ _).mem_iff.mpr List.mem_cons_self
      | true =>
          -- its timer has not fired, since it is not due
          have hlt : ¬ deadline ≤ w.mem.timers.reactor.clock := of_decide_eq_false hst
          have hfired : w.mem.timers.reactor.fired id = false := by
            rw [← Bool.not_eq_true]
            exact fun hf => hlt (h.candid.late _ hmem dur deadline waker rfl hf)
          have hbox : Box.timer _ ∈ _ := Multiset.mem_map_of_mem Box.timer hmem
          have hwaker := h.driven.timed.waker _ hbox dur deadline waker rfl
          have htimer : ⟨id, deadline, waker⟩ ∈
              (w.mem.timers.reactor.pending : Multiset Timer) := by
            rw [show (w.mem.timers.reactor.pending : Multiset Timer) = _ from
              h.driven.timed.pending]
            exact Multiset.mem_bind.mpr ⟨_, hbox, mem_boxTimer.mpr ⟨hfired, rfl, dur, rfl⟩⟩
          exact .inr (.inr (hwaker ▸ htimer))

/-- An interest that answers `Pending` has the slot, or was robbed of it. -/
theorem interestPoll_awaited {live : List TaskId} {C : Multiset (Box IoLeaf)} {w : World (IoMem γ)}
    {t : TaskId} {id : Nat} {b : InterestBox}
    (h : Alert live (⟨t, id, some (.interest b)⟩ ::ₘ C) w)
    (hst : (interestPoll w.mem.driver b t).1 = false) :
    Awaited t id (ioLeafPoll id (.interest b) t w.mem).1.2
      (ioLeafPoll id (.interest b) t w.mem).2 := by
  have hmem := Multiset.mem_cons_self (⟨t, id, some (.interest b)⟩ : Box IoLeaf) C
  refine .inr (.inr ?_)
  by_cases harms : ∃ s, findSched w.mem.driver b.fd = some s ∧ b.armed = false
  · obtain ⟨s, hs, hb⟩ := harms
    obtain ⟨-, hb', hslot, -, -⟩ := interestPoll_slots (w := t) hs hb
    have hleaf : (ioLeafPoll id (.interest b) t w.mem).1.2 =
        .interest ⟨b.fd, b.wantWrite, true⟩ := congrArg IoLeaf.interest hb'
    rw [hleaf]
    exact ⟨by simp [ioLeafPoll, hb', hb], .inl hslot⟩
  · obtain ⟨hleaf, hsame⟩ := ioLeafPoll_idle harms id t
    rw [hleaf, hsame]
    unfold interestPoll at hst
    split at hst
    · cases hst
    next s hs =>
      have hb : b.armed = true := by
        cases hb : b.armed
        · exact absurd ⟨s, hs, hb⟩ harms
        · rfl
      have harmed : s.armedAt b.wantWrite = true := by simpa [hb] using hst
      obtain ⟨fd, wantWrite, armed⟩ := b
      cases hb
      obtain ⟨rfl, -⟩ := findSched_split hs
      have hslot : ⟨s.fd, wantWrite, s.wakerAt wantWrite⟩ ∈ w.mem.driver.slots :=
        mem_slots.mpr ⟨s, List.mem_of_find?_eq_some hs, mem_sched_slots.mpr ⟨harmed, rfl⟩⟩
      refine ⟨h.candid.note _ hmem s.fd wantWrite rfl, ?_⟩
      rcases h.candid.slot _ hmem s.fd wantWrite rfl _ hslot with hwaker | hrobbed
      · have hwaker : s.wakerAt wantWrite = t := hwaker
        rw [hwaker] at hslot
        exact .inl hslot
      · exact .inr hrobbed

/-- What a leaf answers `Pending` for is registered. -/
theorem leafPoll_awaited {live : List TaskId} {C : Multiset (Box IoLeaf)} {w : World (IoMem γ)}
    {t : TaskId} {id : Nat} {l : IoLeaf}
    (h : Alert live (⟨t, id, some l⟩ ::ₘ C) w) (hst : (ioLeafPoll id l t w.mem).1.1 = false) :
    Awaited t id (ioLeafPoll id l t w.mem).1.2 (ioLeafPoll id l t w.mem).2 := by
  cases l with
  | timed l => exact timedPoll_awaited h hst
  | interest b => exact interestPoll_awaited h hst

/-- A park takes nothing away from a task that it does not wake. -/
theorem ioPark_awaited {live : List TaskId} {C : Multiset (Box IoLeaf)} {w : World (IoMem γ)}
    (h : Alert live C w) (hsound : w.mem.Sound) {t : TaskId} {box : Nat} {l : IoLeaf}
    (ha : Awaited t box l w.mem) : Awaited t box l (ioPark w.mem).2 := by
  obtain ⟨hnotes, hclones, -, -, -⟩ := ioPark_effect w.mem
  have hparked := ioPark_parked hsound h.driven.watched.nodup
  rcases ha with ht | hfreed | hreg
  · refine .inl ?_
    rw [(ioPark_driver w.mem).2.2]
    exact List.mem_append_left _ ht
  · exact .inr (.inl (hclones hfreed))
  · unfold Registered at hreg
    split at hreg
    next dur deadline waker =>
      by_cases hle : deadline ≤ w.mem.now'
      · exact .inl (hparked.due _ hreg hle).2
      · exact .inr (.inr ((hparked.timers _).mpr ⟨hreg, Nat.lt_of_not_le hle⟩))
    next fd wantWrite =>
      obtain ⟨hnote, hslot | hrobbed⟩ := hreg
      · by_cases htouched : Slot.TouchedBy w.mem.events ⟨fd, wantWrite, t⟩
        · exact .inl (hparked.touched _ hslot htouched).2
        · exact .inr (.inr ⟨hnotes ▸ hnote, .inl ((hparked.slots _).mpr ⟨hslot, htouched⟩)⟩)
      · exact .inr (.inr ⟨hnotes ▸ hnote, .inr (hnotes ▸ hrobbed)⟩)
    next => exact hreg.elim

/-- The rules of waiting, for the driver. -/
theorem wait_rules (p : IoProgram F K γ) : WaitRules p.site IoLeaf.New
    (fun live C w => Alert live C w ∧ w.mem.Sound) Awaited where
  toLiveRules          := (alert_rules p).and (sound_keeps p)
  answered _ h hst     := leafPoll_awaited h.1 hst
  kept                 := awaited_keeps p
  trapped h            := h
  called r h           := h.call r
  parked h ha          := ioPark_awaited h.1 h.2 ha
  delivered h hmem     := by
    rcases h with h | h | h
    · exact absurd h hmem
    · exact .inr (.inl h)
    · exact .inr (.inr (h.same (fun _ hs _ => hs) rfl rfl))

section Runs

variable {p : IoProgram F K γ} {park : Bool} {start : Nat} {ctx : γ}
  {moves : List (Move IoLeafCall F K (IoCall γ))} {h : Host IoLeaf F K (IoMem γ)}

/-- **No task waits in vain.** After every run, each live task is in the ready queue, or at hand, or
    waits for at least one sleep or descriptor; and for all that it waits for, the driver has a timer
    or an armed slot with the waker of this task, unless the future was robbed of its slot. -/
theorem nothing_unwatched (hrun : Machine.run (Host.step p.site)
      (Host.init park (IoMem.init start ctx)) (moves.map Move.inIoBoxes) = some h)
    (hpc : h.sys.pc ≠ .crashed) {t : TaskId} (ht : h.Live t) :
    h.sys.Queued t ∨ h.sys.pc.atHand = some t ∨
      (h.futs t).WaitsFor (Registered h.world.mem t) := by
  have hinit : Alert [] 0 (World.start (IoMem.init start ctx)) :=
    ⟨driven_init start ctx, ⟨nofun, nofun, nofun⟩⟩
  obtain ⟨live, hk, hattends⟩ := (attended_run (wait_rules p) ⟨hinit, sound_init start ctx⟩ rfl
    (starts_moves moves) hrun).resolve_left hpc
  refine or_assoc.mp ((hattends t ht).imp id fun hwaits => hwaits.mono fun x hx hawaited => ?_)
  rcases hawaited with hwoken | hfreed | hreg
  · -- every wake has been delivered
    have hquiet : h.world.mem.timers.reactor.woken = [] := hk.quiet
    rw [hquiet] at hwoken
    cases hwoken
  · -- the box of the leaf has not been freed
    have htimed := hk.boxes.1.driven.timed
    have hbox : (⟨t, x.1, some x.2⟩ : Box IoLeaf) ∈ liveBoxes live h.futs :=
      Multiset.mem_bind.mpr ⟨t, (hk.sys.isSome_iff t).mp ht, mem_boxes_of_front hx⟩
    have hid := Multiset.mem_map_of_mem Box.id (Multiset.mem_map_of_mem Box.timer hbox)
    exact absurd (htimed.freed x.1 hfreed) ((htimed.boxes x.1).mp hid).2
  · exact hreg

/-- **Only the robbed are forgotten**: where the driver has no slot armed and no timer pending, each live
    task that is neither queued nor at hand waits for descriptors only, and was robbed of each. -/
theorem forgotten_robbed (hrun : Machine.run (Host.step p.site)
      (Host.init park (IoMem.init start ctx)) (moves.map Move.inIoBoxes) = some h)
    (hpc : h.sys.pc ≠ .crashed) (hidle : ¬ h.world.mem.driver.Waiting) {t : TaskId}
    (ht : h.Live t) : h.sys.Queued t ∨ h.sys.pc.atHand = some t ∨
      (h.futs t).WaitsFor fun box l => ∃ fd wantWrite,
        l = .interest ⟨fd, wantWrite, true⟩ ∧ Robbed h.world.mem.notes box fd wantWrite := by
  obtain ⟨hslots, hpending⟩ := not_or.mp hidle
  refine (nothing_unwatched hrun hpc ht).imp id fun hrest => hrest.imp id fun hwaits => ?_
  refine hwaits.mono fun x _ hreg => ?_
  unfold Registered at hreg
  split at hreg
  next dur deadline waker hleaf =>
    have hnone : h.world.mem.timers.reactor.pending = [] := not_not.mp hpending
    rw [hnone] at hreg
    cases hreg
  next fd wantWrite hleaf =>
    obtain ⟨-, hslot | hrobbed⟩ := hreg
    · obtain ⟨s, hs, hslot⟩ := mem_slots.mp hslot
      refine absurd ⟨s, hs, ?_⟩ hslots
      have harmed := (mem_sched_slots.mp hslot).1
      cases wantWrite
      · exact .inl harmed
      · exact .inr harmed
    · exact ⟨fd, wantWrite, hleaf, hrobbed⟩
  next => exact hreg.elim

end Runs

/-- The reader with a time limit waits for both. -/
theorem nothing_unwatched_reader :
    timeLimitRun.map (fun h => (h.sys.pc, (h.sys.ex.tasks 0).map Task.queued)) =
      some (.parked .run, some false) ∧
    ∃ h, timeLimitRun = some h ∧ (h.sys.Queued 0 ∨ h.sys.pc.atHand = some 0 ∨
      (h.futs 0).WaitsFor (Registered h.world.mem 0)) := by
  have hparked : timeLimitRun.map (fun h => (h.sys.pc, (h.sys.ex.tasks 0).map Task.queued)) =
      some (.parked .run, some false) := by decide +kernel
  obtain ⟨h, hrun, hstate⟩ := Option.map_eq_some_iff.mp hparked
  obtain ⟨hpc, htask⟩ := Prod.mk.inj hstate
  obtain ⟨task, hlive, -⟩ := Option.map_eq_some_iff.mp htask
  refine ⟨hparked, h, hrun, nothing_unwatched hrun ?_ ?_⟩
  · rw [hpc]
    exact nofun
  · rw [Host.Live, hlive]
    rfl

/-- Two readers of one descriptor. The second arms the slot over the first, and is served. -/
def twoReadersMoves : List (Move IoLeafCall Empty Empty (IoCall Unit)) :=
  [.call (.add 3 true true), .spawn (.leaf (.interest 3 false)), .spawn (.leaf (.interest 3 false)),
    .run, .drive, .poll 2, .drive, .poll 2, .drive,
    .call (.kernel (fun _ => [⟨3, EPOLLIN⟩]) 0), .park, .drive, .poll 2, .drop, .drive]

def twoReadersRun : Option (Host IoLeaf Empty Empty (IoMem Unit)) :=
  Machine.run (Host.step futuresOnly.site) (Host.init true (IoMem.init 0 ()))
    (twoReadersMoves.map Move.inIoBoxes)

/-- The first reader is forgotten, though the driver still counts a slot. -/
theorem forgotten_robbed_reader :
    twoReadersRun.map (fun h => (h.sys.pc, (h.sys.ex.tasks 0).map Task.queued,
        h.world.mem.driver)) =
      some (.parked .run, some false, ⟨[⟨3, 1, 0, false, false, 0⟩], [], 1⟩) ∧
    ∃ h, twoReadersRun = some h ∧ (h.sys.Queued 0 ∨ h.sys.pc.atHand = some 0 ∨
      (h.futs 0).WaitsFor fun box l => ∃ fd wantWrite,
        l = .interest ⟨fd, wantWrite, true⟩ ∧ Robbed h.world.mem.notes box fd wantWrite) := by
  have hparked : twoReadersRun.map (fun h => (h.sys.pc, (h.sys.ex.tasks 0).map Task.queued,
        h.world.mem.driver)) =
      some (.parked .run, some false, ⟨[⟨3, 1, 0, false, false, 0⟩], [], 1⟩) := by decide +kernel
  obtain ⟨h, hrun, hstate⟩ := Option.map_eq_some_iff.mp hparked
  obtain ⟨hpc, hrest⟩ := Prod.mk.inj hstate
  obtain ⟨htask, hdriver⟩ := Prod.mk.inj hrest
  obtain ⟨task, hlive, -⟩ := Option.map_eq_some_iff.mp htask
  refine ⟨hparked, h, hrun, forgotten_robbed hrun ?_ ?_ ?_⟩
  · rw [hpc]
    exact nofun
  · rw [hdriver]
    simp [IoDriver.Waiting, IoSched.Armed]
  · rw [Host.Live, hlive]
    rfl

end CustLib.Exec
