import CustLib.Execution.Interest
import CustLib.Execution.LiveTasks

/-!
# The executor on the I/O driver

Trees over all leaves of the crate on one executor: `ready`, `yield_now` and `sleep` of
`CustLib.Execution.Timers`, and the `readable` and `writable` futures of `CustLib.Execution.Interest`. The
park hook is `io_driver_park`, with the timers in the driver's own reactor. State functions and
functions for `map` may register and remove descriptors, and between polls the program does the same.
What `epoll_wait` reports and what the clock reads is left open.

A waker is the task that it wakes (`task_waker_clone` copies the pointer). So a slot, or a timer, that
outlives its task is a dangling pointer in the driver. There is none (`no_stale_waker`), also where two
futures wait for one direction of one descriptor, and the second takes the slot of the first.
-/

namespace CustLib.Exec

variable {F K γ : Type}

/-! ## The program

The site of `CustLib.Execution.Timers` with two more leaves and the driver's park. What the kernel
reports and how the clock goes on is fixed by the program in advance, so every behaviour of the
surroundings is some program.
-/

inductive IoLeafCall where
  | timed (l : LeafCall)
  | interest (fd : Int) (wantWrite : Bool)
  deriving DecidableEq, Repr

inductive IoLeaf where
  | timed (l : RtLeaf)
  | interest (b : InterestBox)
  deriving DecidableEq, Repr

def IoLeafCall.box : IoLeafCall → IoLeaf
  | .timed l              => .timed l.box
  | .interest fd wantWrite => .interest (interestNew fd wantWrite)

def Expr.inIoBoxes : Expr IoLeafCall F K → Expr IoLeaf F K
  | .null            => .null
  | .leaf l          => .leaf l.box
  | .map inner fn    => .map inner.inIoBoxes fn
  | .then_ a b       => .then_ a.inIoBoxes b.inIoBoxes
  | .join2 a size b  => .join2 a.inIoBoxes size b.inIoBoxes
  | .select2 a b     => .select2 a.inIoBoxes b.inIoBoxes
  | .sm states start => .sm states start

/-- The moves of the program that hands over such expressions. -/
def Move.inIoBoxes {R : Type} : Move IoLeafCall F K R → Move IoLeaf F K R
  | .spawn e       => .spawn e.inIoBoxes
  | .blockOn e out => .blockOn e.inIoBoxes out
  | .run           => .run
  | .drive         => .drive
  | .poll depth    => .poll depth
  | .drop          => .drop
  | .park          => .park
  | .call r        => .call r

/-- What code outside the executor does: work on the context, the calls of `cexec_io_add` (with the
    answers of the allocator and of the kernel) and `cexec_io_remove`. Time passes until the clock reads
    `reading`; and the next `epoll_wait` reports `wait` for its timeout and takes until `reading`. -/
inductive IoCall (γ : Type) where
  | work (f : γ → γ)
  | time (reading : Nat)
  | add (fd : Int) (alloc ctl : Bool)
  | remove (fd : Int)
  | kernel (wait : Int → List EpollEvent) (reading : Nat)

structure IoProgram (F K γ : Type) where
  mapFn   : F → Nat → Nat → γ → List (IoCall γ)
  stateFn : K → Nat → γ → SmStep IoLeafCall F K × List (IoCall γ)
  refuses : Nat → Bool

/-- What becomes of a slot: the future in the box `box` arms it, or cancels it in its drop, or the
    descriptor is removed. -/
inductive SlotNote where
  | armed (box : Nat) (fd : Int) (wantWrite : Bool)
  | cancelled (box : Nat) (fd : Int) (wantWrite : Bool)
  | removed (fd : Int)
  deriving DecidableEq, Repr

/-- The driver's reactor with the context, its table and its count of armed slots, the history of the
    slots, and what the kernel and the clock answer to the next park. -/
structure IoMem (γ : Type) where
  timers : TimerMem γ
  fds    : List IoSched
  armed  : Nat
  notes  : List SlotNote
  wait   : Int → List EpollEvent
  later  : Nat

def IoMem.driver (m : IoMem γ) : IoDriver := ⟨m.fds, m.timers.reactor.pending, m.armed⟩

/-- What a function has done to the driver's table. -/
def IoMem.table (m : IoMem γ) (d : IoDriver) : IoMem γ := { m with fds := d.fds, armed := d.armed }

def ioLeafPoll (self : Nat) (l : IoLeaf) (w : TaskId) (m : IoMem γ) : (Bool × IoLeaf) × IoMem γ :=
  match l with
  | .timed l =>
    let ((st, l), timers) := timedPoll self l w m.timers
    ((st, .timed l), { m with timers })
  | .interest b =>
    let (st, d, b') := interestPoll m.driver b w
    ((st, .interest b'), { m.table d with
      notes := m.notes ++ if b'.armed && !b.armed then [.armed self b.fd b.wantWrite] else [] })

/-- The `drop` functions of the leaves. The end of every leaf box is in the history of the clones. -/
def ioLeafDrop (self : Nat) (l : IoLeaf) (m : IoMem γ) : IoMem γ :=
  match l with
  | .timed l    => { m with timers := timedDrop self l m.timers }
  | .interest b =>
    let (d, dropped) := interestDrop m.driver b
    { m.table d with
      timers := timedDrop self .ready m.timers
      notes  := m.notes ++ if dropped.isEmpty then [] else [.cancelled self b.fd b.wantWrite] }

/-- What the clock reads after the `epoll_wait` of a park. It does not go back. -/
def IoMem.now' (m : IoMem γ) : Nat := max m.timers.reactor.clock m.later

def IoMem.events (m : IoMem γ) : List EpollEvent :=
  m.wait (waitTimeout (earliest m.timers.reactor.pending) m.timers.reactor.clock)

def ioPark (m : IoMem γ) : Bool × IoMem γ :=
  let deadline := earliest m.timers.reactor.pending
  if deadline = none ∧ m.armed = 0 then (false, m)
  else
    let now' := m.now'
    let (progressed, d, woken) := m.events.foldl handleEvent (false, m.driver, [])
    let m := { m.table d with timers.reactor.woken := m.timers.reactor.woken ++ woken,
                              timers.reactor.clock := now' }
    if deadline = none then (progressed, m)
    else
      let (fired, timers) := cexecFireDue now' m.timers
      (progressed || fired, { m with timers })

def IoCall.run (m : IoMem γ) : IoCall γ → IoMem γ
  | .work f              => { m with timers.ctx := f m.timers.ctx }
  | .time reading        => { m with timers.reactor.clock := max m.timers.reactor.clock reading }
  | .add fd alloc ctl    => m.table (cexecIoAdd m.driver fd alloc ctl).2
  | .remove fd           =>
    { m.table (cexecIoRemove m.driver fd).1 with notes := m.notes ++ [.removed fd] }
  | .kernel wait reading => { m with wait, later := reading }

def IoProgram.site (p : IoProgram F K γ) : Site IoLeaf F K (IoCall γ) (IoMem γ) where
  leafPoll self l w _ := ioLeafPoll self l w
  leafDrop            := ioLeafDrop
  mapFn f out m       := (p.mapFn f out m.timers.reactor.clock m.timers.ctx).foldl IoCall.run m
  stateFn k m         :=
    let (step, calls) := p.stateFn k m.timers.reactor.clock m.timers.ctx
    (⟨step.fut.inIoBoxes, step.out, step.next⟩, calls.foldl IoCall.run m)
  refuses             := p.refuses
  wakes m             := (m.timers.reactor.woken, { m with timers.reactor.woken := [] })
  hook                := ioPark
  call r m            := r.run m
  trap m              := m

def IoMem.init (start : Nat) (ctx : γ) : IoMem γ := ⟨TimerMem.init start ctx, [], 0, [], fun _ => [], 0⟩

theorem handleEvent_pending (st : Bool × IoDriver × List TaskId) (ev : EpollEvent) :
    (handleEvent st ev).2.1.pending = st.2.1.pending := by
  unfold handleEvent
  dsimp only
  split <;> rfl

theorem foldl_handleEvent_pending (evs : List EpollEvent) (st : Bool × IoDriver × List TaskId) :
    (evs.foldl handleEvent st).2.1.pending = st.2.1.pending := by
  induction evs generalizing st with
  | nil => rfl
  | cons ev evs ih => exact (ih _).trans (handleEvent_pending st ev)

/-- The descriptors stay registered. -/
theorem handleEvent_fds (st : Bool × IoDriver × List TaskId) (ev : EpollEvent) :
    (handleEvent st ev).2.1.fds.map IoSched.fd = st.2.1.fds.map IoSched.fd := by
  unfold handleEvent
  dsimp only
  split
  · rfl
  · rw [List.map_map]
    apply List.map_congr_left
    intro x _
    simp only [Function.comp_apply]
    split <;> rfl

/-- It does with the driver what `ioDriverPark` does. -/
theorem ioPark_driver (m : IoMem γ) :
    (ioPark m).1 = (ioDriverPark m.driver m.timers.reactor.clock m.wait m.now').1 ∧
      (ioPark m).2.driver = (ioDriverPark m.driver m.timers.reactor.clock m.wait m.now').2.1 ∧
      (ioPark m).2.timers.reactor.woken = m.timers.reactor.woken ++
        (ioDriverPark m.driver m.timers.reactor.clock m.wait m.now').2.2 := by
  obtain ⟨⟨⟨clock, pending, fired, woken⟩, clones, ctx⟩, fds, armed, notes, wait, later⟩ := m
  have hsame := foldl_handleEvent_pending (wait (waitTimeout (earliest pending) clock))
    (false, ⟨fds, pending, armed⟩, [])
  generalize hfold : (wait (waitTimeout (earliest pending) clock)).foldl handleEvent
    (false, ⟨fds, pending, armed⟩, []) = st at hsame
  obtain ⟨progressed, ⟨fds', pending', armed'⟩, woken'⟩ := st
  obtain rfl : pending' = pending := hsame
  by_cases hidle : earliest pending' = none ∧ armed = 0
  · simp [ioPark, ioDriverPark, IoMem.driver, hidle]
  by_cases hnone : earliest pending' = none
  · have harmed : armed ≠ 0 := fun h => hidle ⟨hnone, h⟩
    rw [hnone] at hfold
    simp [ioPark, ioDriverPark, IoMem.driver, IoMem.events, IoMem.table, hnone, harmed, hfold]
  · simp [ioPark, ioDriverPark, IoMem.driver, IoMem.events, IoMem.table, hnone, hfold, cexecFireDue]

/-! ## Slots and the futures they belong to

`Watched` is weaker than the invariant of `CustLib.Execution.Interest`: rivals are allowed, so a slot
may hold the waker of one of several futures that have armed it.
-/

@[simp] theorem armedAt_arm (s : IoSched) (wantWrite dir : Bool) (w : TaskId) :
    (s.arm wantWrite w).armedAt dir = (dir == wantWrite || s.armedAt dir) := by
  cases wantWrite <;> cases dir <;> rfl

theorem wakerAt_arm (s : IoSched) (wantWrite dir : Bool) (w : TaskId) :
    (s.arm wantWrite w).wakerAt dir = if dir = wantWrite then w else s.wakerAt dir := by
  cases wantWrite <;> cases dir <;> rfl

@[simp] theorem armedAt_disarm (s : IoSched) (wantWrite dir : Bool) :
    (s.disarm wantWrite).armedAt dir = (dir != wantWrite && s.armedAt dir) := by
  cases wantWrite <;> cases dir <;> rfl

@[simp] theorem wakerAt_disarm (s : IoSched) (wantWrite dir : Bool) :
    (s.disarm wantWrite).wakerAt dir = s.wakerAt dir := by
  cases wantWrite <;> cases dir <;> rfl

theorem armedAt_fire {s : IoSched} {e : UInt32} {dir : Bool} (h : (s.fire e).armedAt dir = true) :
    s.armedAt dir = true := by
  cases dir <;> exact (Bool.and_eq_true_iff.mp h).1

theorem wakerAt_fire (s : IoSched) (e : UInt32) (dir : Bool) :
    (s.fire e).wakerAt dir = s.wakerAt dir := by
  cases dir <;> rfl

/-- The task has a future that has armed a slot. -/
def Listens (C : Multiset (Box IoLeaf)) (fd : Int) (dir : Bool) (t : TaskId) : Prop :=
  ∃ id, (⟨t, id, some (.interest ⟨fd, dir, true⟩)⟩ : Box IoLeaf) ∈ C

/-- An armed slot holds the waker of a task with a future that has armed it. The future need not be the
    only one. -/
structure Watched (C : Multiset (Box IoLeaf)) (fds : List IoSched) : Prop where
  nodup : (fds.map IoSched.fd).Nodup
  slots : ∀ s ∈ fds, ∀ dir, s.armedAt dir = true → Listens C s.fd dir (s.wakerAt dir)

theorem Listens.cons {C : Multiset (Box IoLeaf)} {fd : Int} {dir : Bool} {t : TaskId}
    (h : Listens C fd dir t) (c : Box IoLeaf) : Listens (c ::ₘ C) fd dir t := by
  obtain ⟨id, hid⟩ := h
  exact ⟨id, Multiset.mem_cons_of_mem hid⟩

/-- A box with something else in it. -/
theorem Listens.rest {C : Multiset (Box IoLeaf)} {c : Box IoLeaf} {fd : Int} {dir : Bool} {t : TaskId}
    (h : Listens (c ::ₘ C) fd dir t) (hne : c.leaf ≠ some (.interest ⟨fd, dir, true⟩)) :
    Listens C fd dir t := by
  obtain ⟨id, hid⟩ := h
  rcases Multiset.mem_cons.mp hid with rfl | hid
  · exact absurd rfl hne
  · exact ⟨id, hid⟩

namespace Watched

variable {C : Multiset (Box IoLeaf)} {c : Box IoLeaf} {fds : List IoSched} {d : IoDriver}

theorem cons (h : Watched C fds) (c : Box IoLeaf) : Watched (c ::ₘ C) fds :=
  ⟨h.nodup, fun s hs dir harmed => (h.slots s hs dir harmed).cons c⟩

theorem rest (h : Watched (c ::ₘ C) fds) (hne : ∀ fd dir, c.leaf ≠ some (.interest ⟨fd, dir, true⟩)) :
    Watched C fds :=
  ⟨h.nodup, fun s hs dir harmed => (h.slots s hs dir harmed).rest (hne _ _)⟩

theorem add (h : Watched C d.fds) (fd : Int) (alloc ctl : Bool) :
    Watched C (cexecIoAdd d fd alloc ctl).2.fds := by
  unfold cexecIoAdd
  split
  · exact h
  next hnone =>
    split
    · constructor
      · rw [List.map_append, List.nodup_append]
        refine ⟨h.nodup, List.nodup_singleton _, ?_⟩
        rintro a ha b hb rfl
        obtain ⟨s, hs, rfl⟩ := List.mem_map.mp ha
        exact findSched_none hnone s hs (List.mem_singleton.mp hb)
      · intro s hs dir harmed
        rcases List.mem_append.mp hs with hs | hs
        · exact h.slots s hs dir harmed
        · obtain rfl := List.mem_singleton.mp hs
          cases dir <;> cases harmed
    · exact h

theorem remove (h : Watched C d.fds) (fd : Int) : Watched C (cexecIoRemove d fd).1.fds := by
  unfold cexecIoRemove
  split
  next s hs =>
    have hsub : (d.fds.erase s).Sublist d.fds := List.erase_sublist
    exact ⟨h.nodup.sublist (hsub.map _), fun x hx dir => h.slots x (hsub.subset hx) dir⟩
  · exact h

/-- One descriptor's slots are changed, and something about one box. -/
theorem replace {C' : Multiset (Box IoLeaf)} {l₁ l₂ : List IoSched} {s s' : IoSched}
    (h : Watched C (l₁ ++ s :: l₂)) (hfd : s'.fd = s.fd)
    (hself : ∀ dir, s'.armedAt dir = true → Listens C' s.fd dir (s'.wakerAt dir))
    (hother : ∀ x ∈ l₁ ++ s :: l₂, x.fd ≠ s.fd → ∀ dir, x.armedAt dir = true →
      Listens C' x.fd dir (x.wakerAt dir)) : Watched C' (l₁ ++ s' :: l₂) := by
  have hnodup := h.nodup
  constructor
  · simpa [hfd] using hnodup
  · intro x hx dir harmed
    have hx : x ∈ l₁ ∨ x = s' ∨ x ∈ l₂ := by simpa using hx
    have hne : ∀ x, x ∈ l₁ ∨ x ∈ l₂ → x.fd ≠ s.fd := by
      intro x hx heq
      rw [List.map_append, List.map_cons, List.nodup_middle, List.nodup_cons, ← List.map_append] at hnodup
      exact hnodup.1 (heq ▸ List.mem_map_of_mem (List.mem_append.mpr hx))
    rcases hx with hx | rfl | hx
    · exact hother x (by simp [hx]) (hne x (.inl hx)) dir harmed
    · exact hfd ▸ hself dir harmed
    · exact hother x (by simp [hx]) (hne x (.inr hx)) dir harmed

/-- `interest_poll`. -/
theorem poll {t : TaskId} {id : Nat} {b : InterestBox}
    (h : Watched (⟨t, id, some (.interest b)⟩ ::ₘ C) d.fds) :
    Watched (⟨t, id, some (.interest (interestPoll d b t).2.2)⟩ ::ₘ C) (interestPoll d b t).2.1.fds := by
  unfold interestPoll
  split
  · exact h
  next s hs =>
    obtain ⟨fd, wantWrite, _ | _⟩ := b
    · -- the slot is taken over, whoever had it
      obtain ⟨rfl, l₁, l₂, hfds, hupdate⟩ := findSched_split hs
      have hold : ∀ {x dir}, x ∈ d.fds → x.armedAt dir = true →
          Listens (⟨t, id, some (.interest ⟨s.fd, wantWrite, true⟩)⟩ ::ₘ C) x.fd dir (x.wakerAt dir) :=
        fun hx harmed => ((h.slots _ hx _ harmed).rest (by simp)).cons _
      simp only [Bool.not_false, if_true, hupdate]
      rw [hfds] at h hold
      refine h.replace (by simp [schedUpdateInterest]) ?_ fun x hx _ dir harmed => hold hx harmed
      intro dir harmed
      change (s.arm wantWrite t).armedAt dir = true at harmed
      change Listens _ _ _ ((s.arm wantWrite t).wakerAt dir)
      rw [wakerAt_arm]
      by_cases hdir : dir = wantWrite
      · rw [if_pos hdir, hdir]
        exact ⟨id, Multiset.mem_cons_self _ _⟩
      · rw [if_neg hdir]
        exact hold (by simp) (by simpa [hdir] using harmed)
    · exact h

/-- `interest_drop`. -/
theorem drop {t : TaskId} {id : Nat} {b : InterestBox}
    (h : Watched (⟨t, id, some (.interest b)⟩ ::ₘ C) d.fds) : Watched C (interestDrop d b).1.fds := by
  obtain ⟨fd, wantWrite, armed⟩ := b
  -- a slot that the future has armed is its own, or that of a later one for the same
  have hold : ∀ {x dir}, x ∈ d.fds → x.armedAt dir = true →
      ¬ (armed = true ∧ x.fd = fd ∧ dir = wantWrite) → Listens C x.fd dir (x.wakerAt dir) := by
    intro x dir hx harmed hne
    refine (h.slots x hx dir harmed).rest fun heq => hne ?_
    simp only [Option.some.injEq, IoLeaf.interest.injEq, InterestBox.mk.injEq] at heq
    exact ⟨heq.2.2, heq.1.symm, heq.2.1.symm⟩
  unfold interestDrop
  split
  next hnone =>
    exact ⟨h.nodup, fun x hx dir harmed =>
      hold hx harmed fun heq => findSched_none hnone x hx heq.2.1⟩
  next s hs =>
    obtain ⟨rfl, l₁, l₂, hfds, hupdate⟩ := findSched_split hs
    split
    next hcond =>
      simp only [hupdate]
      rw [hfds] at h hold
      refine h.replace (by simp [schedUpdateInterest]) ?_
        fun x hx hne dir harmed => hold hx harmed fun heq => hne heq.2.1
      intro dir harmed
      change (s.disarm wantWrite).armedAt dir = true at harmed
      change Listens _ _ _ ((s.disarm wantWrite).wakerAt dir)
      rw [armedAt_disarm, Bool.and_eq_true, bne_iff_ne] at harmed
      rw [wakerAt_disarm]
      exact hold (by simp) harmed.2 fun heq => harmed.1 heq.2.2
    next hcond =>
      refine ⟨h.nodup, fun x hx dir harmed => hold hx harmed fun heq => hcond ?_⟩
      obtain ⟨harmed', hfd, rfl⟩ := heq
      have hmem : s ∈ d.fds := by simp [hfds]
      obtain rfl : x = s := List.inj_on_of_nodup_map h.nodup hx hmem hfd
      rw [Bool.and_eq_true]
      exact ⟨harmed', harmed⟩

/-- An event fires slots of tasks that wait for them. -/
theorem handleEvent {st : Bool × IoDriver × List TaskId} (h : Watched C st.2.1.fds)
    (hwoken : ∀ t ∈ st.2.2, ∃ c ∈ C, c.task = t) (ev : EpollEvent) :
    Watched C (Exec.handleEvent st ev).2.1.fds ∧
      ∀ t ∈ (Exec.handleEvent st ev).2.2, ∃ c ∈ C, c.task = t := by
  have hnodup := h.nodup
  rw [← handleEvent_fds st ev] at hnodup
  obtain ⟨progressed, d, woken⟩ := st
  unfold Exec.handleEvent at hnodup ⊢
  dsimp only at hnodup ⊢
  split
  · exact ⟨h, hwoken⟩
  next s hs =>
    rw [hs] at hnodup
    have hmem : s ∈ d.fds := List.mem_of_find?_eq_some hs
    have htask : ∀ dir, s.armedAt dir = true → ∃ c ∈ C, c.task = s.wakerAt dir := by
      intro dir harmed
      obtain ⟨id, hid⟩ := h.slots s hmem dir harmed
      exact ⟨_, hid, rfl⟩
    refine ⟨⟨hnodup, ?_⟩, ?_⟩
    · intro y hy dir harmed
      obtain ⟨x, hx, rfl⟩ := List.mem_map.mp hy
      split at harmed
      next heq =>
        rw [if_pos heq, wakerAt_fire]
        exact h.slots x hx dir (armedAt_fire harmed)
      next hne =>
        rw [if_neg hne]
        exact h.slots x hx dir harmed
    · intro t ht
      rcases List.mem_append.mp ht with ht | ht
      · rcases List.mem_append.mp ht with ht | ht
        · exact hwoken t ht
        · obtain ⟨hfires, ht⟩ := List.mem_ite_nil_right.mp ht
          obtain rfl := List.mem_singleton.mp ht
          exact htask false (Bool.and_eq_true_iff.mp hfires).1
      · obtain ⟨hfires, ht⟩ := List.mem_ite_nil_right.mp ht
        obtain rfl := List.mem_singleton.mp ht
        exact htask true (Bool.and_eq_true_iff.mp hfires).1

theorem handleEvents (evs : List EpollEvent) (st : Bool × IoDriver × List TaskId)
    (h : Watched C st.2.1.fds) (hwoken : ∀ t ∈ st.2.2, ∃ c ∈ C, c.task = t) :
    Watched C (evs.foldl Exec.handleEvent st).2.1.fds ∧
      ∀ t ∈ (evs.foldl Exec.handleEvent st).2.2, ∃ c ∈ C, c.task = t := by
  induction evs generalizing st with
  | nil => exact ⟨h, hwoken⟩
  | cons ev evs ih =>
      obtain ⟨h', hwoken'⟩ := h.handleEvent hwoken ev
      exact ih _ h' hwoken'

end Watched

/-! ## The driver and the live tasks

Timers as before, slots in addition. The rules of `LiveRules` are proved for the driver, once for the
timers and once for the slots.
-/

/-- What the reactor knows of a leaf: an interest future has no timer. -/
def IoLeaf.timer : IoLeaf → RtLeaf
  | .timed l    => l
  | .interest _ => .ready

def Box.timer (c : Box IoLeaf) : Box RtLeaf := ⟨c.task, c.id, c.leaf.map IoLeaf.timer⟩

def IoLeaf.New : IoLeaf → Prop
  | .timed l    => l.armed = false
  | .interest b => b.armed = false

/-- The world, with the driver's reactor for a memory. -/
def World.timers (w : World (IoMem γ)) : World (TimerMem γ) := ⟨w.mem.timers, w.next, w.requests, w.log⟩

structure Driven (live : List TaskId) (C : Multiset (Box IoLeaf)) (w : World (IoMem γ)) : Prop where
  timed   : Timed live (C.map Box.timer) w.timers
  watched : Watched C w.mem.fds

namespace Driven

variable {live : List TaskId} {C : Multiset (Box IoLeaf)} {w : World (IoMem γ)}

theorem tasks (h : Driven live C w) : ∀ c ∈ C, c.task ∈ live := fun c hc =>
  h.timed.tasks c.timer (Multiset.mem_map_of_mem Box.timer hc)

theorem relabel (h : Driven live C w) {live' : List TaskId} (htasks : ∀ c ∈ C, c.task ∈ live')
    (hwoken : ∀ t ∈ w.mem.timers.reactor.woken, t ∈ live') : Driven live' C w where
  timed   := { h.timed with
    tasks := fun d hd => by
      obtain ⟨c, hc, rfl⟩ := Multiset.mem_map.mp hd
      exact htasks c hc
    woken := hwoken }
  watched := h.watched

/-- A call that works on the table alone. -/
theorem of_table (h : Driven live C w) {m : IoMem γ} (htimers : m.timers = w.mem.timers)
    (hwatched : Watched C m.fds) : Driven live C { w with mem := m } where
  timed   := by
    rw [World.timers, htimers]
    exact h.timed
  watched := hwatched

theorem call (h : Driven live C w) (r : IoCall γ) : Driven live C { w with mem := r.run w.mem } := by
  cases r with
  | work f => exact ⟨h.timed.call (.work f), h.watched⟩
  | time reading => exact ⟨h.timed.call (.clock (max w.mem.timers.reactor.clock reading)), h.watched⟩
  | add fd alloc ctl => exact h.of_table rfl (h.watched.add (d := w.mem.driver) fd alloc ctl)
  | remove fd => exact h.of_table rfl (h.watched.remove (d := w.mem.driver) fd)
  | kernel wait now' => exact h.of_table rfl h.watched

theorem calls (h : Driven live C w) (rs : List (IoCall γ)) :
    Driven live C { w with mem := rs.foldl IoCall.run w.mem } := by
  induction rs generalizing w with
  | nil => exact h
  | cons r rs ih => exact ih (h.call r)

/-- The park wakes live tasks. -/
theorem park (h : Driven live C w) : Driven live C { w with mem := (ioPark w.mem).2 } := by
  unfold ioPark
  dsimp only
  split
  · exact h
  obtain ⟨hwatched, hwoken⟩ := Watched.handleEvents (C := C) w.mem.events (false, w.mem.driver, [])
    h.watched nofun
  generalize w.mem.events.foldl handleEvent (false, w.mem.driver, []) = st at hwatched hwoken
  obtain ⟨progressed, d, woken⟩ := st
  have hevents : Timed live (C.map Box.timer) { w.timers with
      mem := { w.mem.timers with
        reactor.woken := w.mem.timers.reactor.woken ++ woken, reactor.clock := w.mem.now' } } := by
    refine h.timed.of_mem rfl rfl rfl fun t ht => ?_
    rcases List.mem_append.mp ht with ht | ht
    · exact h.timed.woken t ht
    · obtain ⟨c, hc, rfl⟩ := hwoken t ht
      exact h.tasks c hc
  split
  · exact ⟨hevents, hwatched⟩
  · exact ⟨hevents.fireDue w.mem.now', hwatched⟩

/-- A poll of any leaf keeps the account. -/
theorem leafPoll {t : TaskId} (ht : t ∈ live) {id : Nat} {l : IoLeaf}
    (h : Driven live (⟨t, id, some l⟩ ::ₘ C) w) :
    Driven live (⟨t, id, some (ioLeafPoll id l t w.mem).1.2⟩ ::ₘ C)
      { w with mem := (ioLeafPoll id l t w.mem).2 } := by
  have htimed := h.timed
  rw [Multiset.map_cons] at htimed
  cases l with
  | timed l =>
      refine ⟨?_, (h.watched.rest (by simp)).cons _⟩
      rw [Multiset.map_cons]
      exact htimed.leafPoll ht
  | interest b =>
      refine ⟨?_, h.watched.poll (d := w.mem.driver)⟩
      rw [Multiset.map_cons]
      exact htimed

theorem leafDrop {t : TaskId} {id : Nat} {l : IoLeaf} (h : Driven live (⟨t, id, some l⟩ ::ₘ C) w) :
    Driven live C { w with mem := ioLeafDrop id l w.mem, log := w.log ++ [.released id] } := by
  have htimed := h.timed
  rw [Multiset.map_cons] at htimed
  cases l with
  | timed l => exact ⟨htimed.leafDrop, h.watched.rest (by simp)⟩
  | interest b => exact ⟨htimed.leafDrop, h.watched.drop (d := w.mem.driver)⟩

end Driven

theorem leaves_inIoBoxes (e : Expr IoLeafCall F K) : e.inIoBoxes.Leaves IoLeaf.New := by
  induction e with
  | null => trivial
  | leaf l =>
      rcases l with (_ | _ | _) | _ <;> rfl
  | map inner fn ih => exact ih
  | then_ a b iha ihb => exact ⟨iha, ihb⟩
  | join2 a size b iha ihb => exact ⟨iha, ihb⟩
  | select2 a b iha ihb => exact ⟨iha, ihb⟩
  | sm states start => trivial

theorem ioLeafDrop_woken (self : Nat) (l : IoLeaf) (m : IoMem γ) :
    (ioLeafDrop self l m).timers.reactor.woken = m.timers.reactor.woken := by
  cases l with
  | timed l => exact timedDrop_woken self l m.timers
  | interest b => exact timedDrop_woken self .ready m.timers

def noCalls : Program F K γ := ⟨fun _ _ _ _ => [], fun _ _ _ => (⟨.null, none, 0⟩, []), fun _ => false⟩

/-- Births and releases keep it. -/
theorem driven_hand (p : IoProgram F K γ) {live : List TaskId} {t : TaskId} (ht : t ∈ live)
    (woken : List TaskId) : HandRules p.site IoLeaf.New t
      fun C w => Driven live C w ∧ p.site.pendingWakes w = woken where
  asked _ _ h          := ⟨⟨{ h.1.timed with }, h.1.watched⟩, h.2⟩
  born C w leaf hnew h := by
    refine ⟨⟨?_, h.1.watched.cons _⟩, h.2⟩
    rw [Multiset.map_cons]
    refine h.1.timed.birth ht fun l hl => ?_
    obtain ⟨l, hleaf, rfl⟩ := Option.map_eq_some_iff.mp hl
    have hl := hnew l hleaf
    cases l with
    | timed l => exact hl
    | interest b => rfl
  released C w id h    := by
    refine ⟨⟨?_, h.1.watched.rest nofun⟩, h.2⟩
    have htimed := h.1.timed
    rw [Multiset.map_cons] at htimed
    have hrules := hand_rules (noCalls : Program F K γ) ht w.mem.timers.reactor.woken
    exact (hrules.released _ w.timers id ⟨htimed, rfl⟩).1
  dropped _ _ _ _ h    := ⟨h.1.leafDrop, (ioLeafDrop_woken _ _ _).trans h.2⟩

theorem driven_boxes (p : IoProgram F K γ) {live : List TaskId} {t : TaskId} (ht : t ∈ live) :
    BoxRules p.site IoLeaf.New t (Driven live) where
  asked C w h        := ((driven_hand p ht _).asked C w ⟨h, rfl⟩).1
  born C w l hnew h  := ((driven_hand p ht _).born C w l hnew ⟨h, rfl⟩).1
  released C w id h  := ((driven_hand p ht _).released C w id ⟨h, rfl⟩).1
  dropped C w id l h := ((driven_hand p ht _).dropped C w id l ⟨h, rfl⟩).1
  used _ _ _ h       := ⟨h.timed.used nofun nofun, h.watched⟩
  finished _ _ _ h   := ⟨h.timed.used nofun nofun, h.watched⟩
  polled _ _ _ _ _ h := h.leafPoll ht
  mapped _ _ _ _ h   := h.calls _
  stepped _ _ _ h    := ⟨leaves_inIoBoxes _, h.calls _⟩
  trapped _ _ h      := h

/-- **The driver's account is an assertion about the boxes of live tasks.** -/
theorem driven_rules (p : IoProgram F K γ) : LiveRules p.site IoLeaf.New Driven where
  tasks h                := h.tasks
  woken h                := h.timed.woken
  relabel h htasks hwoken := h.relabel htasks hwoken
  hand ht                := driven_hand p ht []
  boxes ht               := driven_boxes p ht
  call r h               := h.call r
  hook h                 := h.park
  wakes h                := ⟨⟨h.timed.wakes, h.watched⟩, rfl⟩

/-! ## No stale waker

After every run, and in the middle of a poll that does not return: what the driver holds belongs to a
live task.
-/

structure NoStaleWaker (h : Host IoLeaf F K (IoMem γ)) (C : Multiset (Box IoLeaf)) : Prop where
  allocated  : ∀ id, id ∈ C.map Box.id ↔ h.world.Allocated id
  nodup      : (C.map Box.id).Nodup
  owner      : ∀ c ∈ C, h.Live c.task
  /-- An armed slot has the waker of a live task, which has a future that has armed it. -/
  slots      : ∀ s ∈ h.world.mem.fds, ∀ dir, s.armedAt dir = true →
    h.Live (s.wakerAt dir) ∧ Listens C s.fd dir (s.wakerAt dir)
  /-- The pending timers are those of the armed sleeps that have not fired. -/
  timers     : ∀ s, s ∈ h.world.mem.timers.reactor.pending ↔
    h.world.mem.timers.reactor.fired s.id = false ∧
      ∃ t dur, ⟨t, s.id, some (.timed (.sleep dur true s.deadline s.waker))⟩ ∈ C
  timerWaker : ∀ s ∈ h.world.mem.timers.reactor.pending, h.Live s.waker
  woken      : ∀ t ∈ h.world.mem.timers.reactor.woken, h.Live t

/-- The account says that no waker is stale. -/
theorem Driven.noStaleWaker {h : Host IoLeaf F K (IoMem γ)} {live : List TaskId}
    {C : Multiset (Box IoLeaf)} (hd : Driven live C h.world) (hlive : ∀ t, h.Live t ↔ t ∈ live) :
    NoStaleWaker h C := by
  have hids : (C.map Box.timer).map Box.id = C.map Box.id := by
    rw [Multiset.map_map]
    rfl
  -- the timers, on a host that has the boxes of the sleeps alone
  have hstale := hd.timed.noStale (h := ⟨h.sys, fun _ => (.null : Fut RtLeaf F K), h.world.timers⟩)
    hlive
  constructor
  case allocated => exact hids ▸ hstale.allocated
  case nodup => exact hids ▸ hstale.nodup
  case owner => exact fun c hc => (hlive _).mpr (hd.tasks c hc)
  case slots =>
    intro s hs dir harmed
    have hwaits := hd.watched.slots s hs dir harmed
    obtain ⟨id, hid⟩ := hwaits
    exact ⟨(hlive _).mpr (hd.tasks _ hid), id, hid⟩
  case timers =>
    intro s
    rw [show s ∈ h.world.mem.timers.reactor.pending ↔ _ from hstale.pending s]
    refine and_congr_right fun _ => exists_congr fun t => exists_congr fun dur => ?_
    rw [Multiset.mem_map]
    constructor
    · intro hc
      obtain ⟨⟨t', id, _ | (l | b)⟩, hc, heq⟩ := hc
      · simp [Box.timer] at heq
      · simp only [Box.timer, Option.map_some, IoLeaf.timer, Box.mk.injEq, Option.some.injEq] at heq
        obtain ⟨rfl, rfl, rfl⟩ := heq
        exact hc
      · simp [Box.timer, IoLeaf.timer] at heq
    · exact fun hc => ⟨_, hc, rfl⟩
  case timerWaker => exact hstale.waker
  case woken => exact hstale.woken

theorem starts_inIoBoxes (m : Move IoLeafCall F K (IoCall γ)) : m.inIoBoxes.Starts IoLeaf.New := by
  cases m with
  | spawn e => exact leaves_inIoBoxes e
  | blockOn e out => exact leaves_inIoBoxes e
  | run | drive | poll depth | drop | park | call r => trivial

/-- The moves of a program start no leaf box but new ones. -/
theorem starts_moves (moves : List (Move IoLeafCall F K (IoCall γ))) :
    ∀ m ∈ moves.map Move.inIoBoxes, m.Starts IoLeaf.New :=
  List.forall_mem_map.mpr fun m _ => starts_inIoBoxes m

section Runs

variable {p : IoProgram F K γ} {park : Bool} {start : Nat} {ctx : γ}
  {moves : List (Move IoLeafCall F K (IoCall γ))} {h : Host IoLeaf F K (IoMem γ)}

/-- A new driver has nothing to account for. -/
theorem driven_init (start : Nat) (ctx : γ) : Driven [] 0 (World.start (IoMem.init start ctx)) where
  timed   := by
    constructor <;> simp [World.start, World.timers, IoMem.init, TimerMem.init]
  watched := ⟨List.nodup_nil, nofun⟩

/-- Every run of the program is between two moves, or in the middle of a poll. -/
theorem io_run {G : List TaskId → Multiset (Box IoLeaf) → World (IoMem γ) → Prop}
    (hG : LiveRules p.site IoLeaf.New G) (hinit : G [] 0 (World.start (IoMem.init start ctx)))
    (hrun : Machine.run (Host.step p.site) (Host.init park (IoMem.init start ctx))
      (moves.map Move.inIoBoxes) = some h) :
    (∃ live, h.Keeps p.site G live) ∨ ∃ pre n h₀ live, moves = pre ++ [.poll n] ∧
      Machine.run (Host.step p.site) (Host.init park (IoMem.init start ctx))
        (pre.map Move.inIoBoxes) = some h₀ ∧ h₀.Keeps p.site G live ∧ h₀.CutOff p.site n h := by
  refine (live_run hG hinit rfl (starts_moves moves) hrun).imp id ?_
  intro hcut
  obtain ⟨pre, n, h₀, live, hmoves, hrun₀, hk, hcut⟩ := hcut
  obtain ⟨pre', last, rfl, rfl, hlast⟩ := List.map_eq_append_iff.mp hmoves
  obtain ⟨m, rfl, hm⟩ := List.map_eq_singleton_iff.mp hlast
  obtain rfl : m = .poll n := by
    cases m <;> cases hm
    rfl
  exact ⟨pre', n, h₀, live, rfl, hrun₀, hk, hcut⟩

/-- **No stale waker.** After every run of the executor on the I/O driver, each armed slot and each
    pending timer has the waker of a live task with the future that armed it, so that the executor is
    not woken for a task that was freed; or the last move is a poll that does not return, and the same
    is true there. -/
theorem no_stale_waker (hrun : Machine.run (Host.step p.site)
      (Host.init park (IoMem.init start ctx)) (moves.map Move.inIoBoxes) = some h) :
    ∃ C, NoStaleWaker h C ∧
      (h.sys.pc ≠ .crashed ∧ (∀ c, c ∈ C ↔ ∃ t, h.Live t ∧ c ∈ (h.futs t).boxes t) ∨
        ∃ pre n h₀, moves = pre ++ [.poll n] ∧
          Machine.run (Host.step p.site) (Host.init park (IoMem.init start ctx))
            (pre.map Move.inIoBoxes) = some h₀ ∧ h₀.CutOff p.site n h) := by
  rcases io_run (driven_rules p) (driven_init start ctx) hrun with
    ⟨live, hk⟩ | ⟨pre, n, h₀, live, hmoves, hpre, hk, hcut⟩
  · refine ⟨liveBoxes live h.futs, hk.boxes.noStaleWaker hk.sys.isSome_iff, .inl ⟨?_, fun c => ?_⟩⟩
    · exact hk.sys.not_crashed
    · simp [liveBoxes, Host.Live, hk.sys.isSome_iff]
  · obtain ⟨C, hC⟩ := hcut.boxes (driven_rules p) hk
    refine ⟨C, hC.noStaleWaker fun t => ?_, .inr ⟨pre, n, h₀, hmoves, hpre, hcut⟩⟩
    rw [Host.Live, hcut.tasks]
    exact hk.sys.isSome_iff t

end Runs

def futuresOnly : IoProgram Empty Empty Unit := ⟨nofun, nofun, fun _ => false⟩

/-- A race of two descriptors is won by the first. Another task waits to write to the second. -/
def fdRaceMoves : List (Move IoLeafCall Empty Empty (IoCall Unit)) :=
  [.call (.add 3 true true), .call (.add 4 true true),
    .spawn (.select2 (.leaf (.interest 3 false)) (.leaf (.interest 4 false))),
    .spawn (.leaf (.interest 4 true)), .run, .drive, .poll 3, .drive, .poll 3, .drive,
    .call (.kernel (fun _ => [⟨3, EPOLLIN⟩]) 0), .park, .drive, .poll 3, .drop, .drive]

def fdRaceRun : Option (Host IoLeaf Empty Empty (IoMem Unit)) :=
  Machine.run (Host.step futuresOnly.site) (Host.init true (IoMem.init 0 ()))
    (fdRaceMoves.map Move.inIoBoxes)

/-- The slot of the loser is cancelled, and that of the other task stays. -/
theorem no_stale_waker_race :
    fdRaceRun.map (fun h => (h.world.mem.fds, h.world.mem.armed)) =
      some ([⟨3, 0, 0, false, false, 0⟩, ⟨4, 0, 1, false, true, EPOLLOUT⟩], 1) ∧
    ∃ h, fdRaceRun = some h ∧ ∃ C, NoStaleWaker h C := by
  have hfds : fdRaceRun.map (fun h => (h.world.mem.fds, h.world.mem.armed)) =
      some ([⟨3, 0, 0, false, false, 0⟩, ⟨4, 0, 1, false, true, EPOLLOUT⟩], 1) := by decide +kernel
  obtain ⟨h, hrun, -⟩ := Option.map_eq_some_iff.mp hfds
  obtain ⟨C, hC, -⟩ := no_stale_waker (p := futuresOnly) hrun
  exact ⟨hfds, h, hrun, C, hC⟩

end CustLib.Exec
