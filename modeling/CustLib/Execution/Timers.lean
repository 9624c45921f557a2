import Mathlib.Data.Multiset.Bind
import CustLib.Execution.Boxes
import CustLib.Execution.Runtime

/-!
# Timers and the sleeps they belong to

The executor with trees of `ready`, `yield_now` and `sleep` leaves on a reactor. State functions and
functions for `map` are any code that works on a context `γ`, reads the clock and calls
`cexec_reactor_fire_due`; between polls the program does the same. The clock may read anything.

`clones` is the history of the wakers that `sleep_poll` clones: each is kept in the timer of its
box until `cexec_reactor_fire_due` calls it or `sleep_drop` drops it. The end of a leaf box is in
it too, so that it shows a timer that fires too late. Nothing in the model reads it.

`Timed live C w` ties the reactor to the boxes `C` of all trees, which belong to the tasks in
`live`. It is an assertion about boxes (`CustLib.Execution.Boxes`), so a poll keeps it whatever the
tree.
-/

namespace CustLib.Exec

variable {F K γ : Type}

/-! ## The program

Leaves, functions and state functions around one reactor, as a site of `CustLib.Execution.Host`. The
history of waker clones has an event for each clone, for its use and for the end of its box.
-/

inductive LeafCall where
  | ready
  | yieldNow
  | sleep (dur : Nat)
  deriving DecidableEq, Repr

/-- The new box of a leaf. The timer of a sleep is not armed, and nothing reads its deadline and its
    waker. -/
def LeafCall.box : LeafCall → RtLeaf
  | .ready     => .ready
  | .yieldNow  => .yieldNow false
  | .sleep dur => .sleep dur false 0 0

def Expr.inBoxes : Expr LeafCall F K → Expr RtLeaf F K
  | .null            => .null
  | .leaf l          => .leaf l.box
  | .map inner fn    => .map inner.inBoxes fn
  | .then_ a b       => .then_ a.inBoxes b.inBoxes
  | .join2 a size b  => .join2 a.inBoxes size b.inBoxes
  | .select2 a b     => .select2 a.inBoxes b.inBoxes
  | .sm states start => .sm states start

/-- The moves of the program that hands over such expressions. -/
def Move.inBoxes {R : Type} : Move LeafCall F K R → Move RtLeaf F K R
  | .spawn e       => .spawn e.inBoxes
  | .blockOn e out => .blockOn e.inBoxes out
  | .run           => .run
  | .drive         => .drive
  | .poll depth    => .poll depth
  | .drop          => .drop
  | .park          => .park
  | .call r        => .call r

/-- What code outside the executor does: a call of `cexec_reactor_fire_due`, a clock that has
    another reading, work on the context. -/
inductive TimerCall (γ : Type) where
  | fireDue (now : Nat)
  | clock (reading : Nat)
  | work (f : γ → γ)

structure Program (F K γ : Type) where
  mapFn   : F → Nat → Nat → γ → List (TimerCall γ)
  stateFn : K → Nat → γ → SmStep LeafCall F K × List (TimerCall γ)
  refuses : Nat → Bool

/-- What becomes of the waker that is cloned for the sleep in the box `box`, and that the box of
    a leaf is freed. -/
inductive CloneEvent where
  | cloned (box : Nat)
  | woken (box : Nat)
  | dropped (box : Nat)
  | freed (box : Nat)
  deriving DecidableEq, Repr

def CloneEvent.box : CloneEvent → Nat
  | .cloned box | .woken box | .dropped box | .freed box => box

/-- `b` may come after `a`: a freed box is not touched. -/
def CloneEvent.Before (a b : CloneEvent) : Prop := ∀ id, a = .freed id → b.box ≠ id

structure TimerMem (γ : Type) where
  reactor : Reactor
  clones  : List CloneEvent
  ctx     : γ

def RtLeaf.armed : RtLeaf → Bool
  | .sleep _ armed _ _ => armed
  | _                  => false

/-- The `poll` functions of the leaves. `sleep_poll` clones the waker when it arms the timer. -/
def timedPoll (self : Nat) (l : RtLeaf) (w : TaskId) (m : TimerMem γ) :
    (Bool × RtLeaf) × TimerMem γ :=
  let (r, reactor) := rtLeafPoll self l w m.reactor
  (r, { m with
    reactor
    clones := m.clones ++ if r.2.armed && !l.armed then [.cloned self] else [] })

/-- The `drop` functions of the leaves. `sleep_drop` drops the waker of a timer that has not
    fired. -/
def timedDrop (self : Nat) (l : RtLeaf) (m : TimerMem γ) : TimerMem γ :=
  { m with
    reactor := rtLeafDrop self l m.reactor
    clones  := m.clones ++
      if l.armed && !m.reactor.fired self then [.dropped self, .freed self] else [.freed self] }

/-- `cexec_reactor_fire_due`: whether a timer fired. -/
def cexecFireDue (now : Nat) (m : TimerMem γ) : Bool × TimerMem γ :=
  let (due, stay) := fireDue now m.reactor.pending
  (!due.isEmpty,
    { m with
      reactor := { m.reactor with
        pending := stay
        fired   := fun i => m.reactor.fired i || due.any (·.id = i)
        woken   := m.reactor.woken ++ due.map Timer.waker }
      clones := m.clones ++ due.map fun s => .woken s.id })

def timedPark (m : TimerMem γ) : Bool × TimerMem γ :=
  match earliest m.reactor.pending with
  | none          => (false, m)
  | some deadline =>
    let clock := if deadline > m.reactor.clock then deadline else m.reactor.clock
    cexecFireDue clock { m with reactor.clock := clock }

def TimerCall.run (m : TimerMem γ) : TimerCall γ → TimerMem γ
  | .fireDue now   => (cexecFireDue now m).2
  | .clock reading => { m with reactor.clock := reading }
  | .work f        => { m with ctx := f m.ctx }

def Program.site (p : Program F K γ) : Site RtLeaf F K (TimerCall γ) (TimerMem γ) where
  leafPoll self l w _ := timedPoll self l w
  leafDrop            := timedDrop
  mapFn f out m       := (p.mapFn f out m.reactor.clock m.ctx).foldl TimerCall.run m
  stateFn k m         :=
    let (step, calls) := p.stateFn k m.reactor.clock m.ctx
    (⟨step.fut.inBoxes, step.out, step.next⟩, calls.foldl TimerCall.run m)
  refuses             := p.refuses
  wakes m             := (m.reactor.woken, { m with reactor.woken := [] })
  hook                := timedPark
  call r m            := r.run m
  trap m              := m

def TimerMem.init (start : Nat) (ctx : γ) : TimerMem γ := ⟨⟨start, [], fun _ => false, []⟩, [], ctx⟩

/-- It does with the reactor what `reactorPark` does. -/
theorem timedPark_reactor (m : TimerMem γ) :
    (timedPark m).1 = (reactorPark m.reactor).1 ∧
      (timedPark m).2.reactor =
        { (reactorPark m.reactor).2.1 with
          woken := m.reactor.woken ++ (reactorPark m.reactor).2.2 } := by
  unfold timedPark reactorPark
  cases earliest m.reactor.pending with
  | none => simp
  | some deadline => exact ⟨rfl, rfl⟩

/-! ## Timers of boxes

The reactor's list against the boxes of the live tasks: the timers that are pending are those of the
boxes that are armed and have not fired, each once, with the task that owns the box. `Timed` is this
correspondence, with the clones in custody.
-/

/-- The timer in the box, while it is armed and has not fired. -/
def boxTimer (fired : Nat → Bool) : Box RtLeaf → Multiset Timer
  | ⟨_, id, some (.sleep _ true deadline waker)⟩ => if fired id then 0 else {⟨id, deadline, waker⟩}
  | _ => 0

theorem mem_boxTimer {fired : Nat → Bool} {c : Box RtLeaf} {s : Timer} : s ∈ boxTimer fired c ↔
    fired s.id = false ∧ s.id = c.id ∧
      ∃ dur, c.leaf = some (.sleep dur true s.deadline s.waker) := by
  obtain ⟨t, id, l⟩ := c
  obtain ⟨id', deadline', waker'⟩ := s
  rcases l with _ | _ | _ | ⟨dur, _ | _, deadline, waker⟩
  case some.sleep.true =>
    cases hf : fired id <;> simp [boxTimer, hf] <;> grind
  all_goals simp [boxTimer]

theorem boxTimer_unarmed {fired : Nat → Bool} {c : Box RtLeaf}
    (h : ∀ l, c.leaf = some l → l.armed = false) : boxTimer fired c = 0 := by
  obtain ⟨t, id, l⟩ := c
  rcases l with _ | _ | _ | ⟨dur, _ | _, deadline, waker⟩
  case some.sleep.true => exact absurd (h _ rfl) nofun
  all_goals rfl

/-- A box has one timer at most. -/
theorem map_id_boxTimer_le (fired : Nat → Bool) (c : Box RtLeaf) :
    (boxTimer fired c).map Timer.id ≤ {c.id} := by
  obtain ⟨t, id, l⟩ := c
  rcases l with _ | _ | _ | ⟨dur, _ | _, deadline, waker⟩
  case some.sleep.true => cases hf : fired id <;> simp [boxTimer, hf]
  all_goals simp [boxTimer]

theorem map_id_bind_le (fired : Nat → Bool) (C : Multiset (Box RtLeaf)) :
    (C.bind (boxTimer fired)).map Timer.id ≤ C.map Box.id := by
  induction C using Multiset.induction_on with
  | empty => simp
  | cons c C ih =>
      rw [Multiset.cons_bind, Multiset.map_add, Multiset.map_cons, ← Multiset.singleton_add]
      exact add_le_add (map_id_boxTimer_le fired c) ih

/-- The timers of boxes whose flags are the same. -/
theorem bind_boxTimer_congr {fired fired' : Nat → Bool} {C : Multiset (Box RtLeaf)}
    (h : ∀ c ∈ C, fired' c.id = fired c.id) :
    C.bind (boxTimer fired') = C.bind (boxTimer fired) := by
  apply Multiset.bind_congr
  intro c hc
  have hflag := h c hc
  obtain ⟨t, id, l⟩ := c
  rcases l with _ | _ | _ | ⟨dur, _ | _, deadline, waker⟩
  case some.sleep.true => simp only [boxTimer, show fired' id = fired id from hflag]
  all_goals rfl

/-- Timers that fire are no longer those of their boxes. -/
theorem boxTimer_due (fired : Nat → Bool) (due : List Timer) (c : Box RtLeaf) :
    boxTimer (fun i => fired i || due.any (·.id = i)) c =
      (boxTimer fired c).filter fun s => s.id ∉ due.map Timer.id := by
  obtain ⟨t, id, l⟩ := c
  rcases l with _ | _ | _ | ⟨dur, _ | _, deadline, waker⟩
  case some.sleep.true =>
    cases hf : fired id
    · by_cases hd : id ∈ due.map Timer.id
      · have hany : due.any (·.id = id) = true := by simpa using hd
        simpa [boxTimer, hf, hany, Multiset.filter_singleton] using hd
      · have hany : due.any (·.id = id) = false := by simpa using hd
        simpa [boxTimer, hf, hany, Multiset.filter_singleton] using hd
    · simp [boxTimer, hf]
  all_goals rfl

/-- The timers that stay when others fire. -/
theorem bind_boxTimer_due {fired : Nat → Bool} {due stay : List Timer} {C : Multiset (Box RtLeaf)}
    (h : ((due ++ stay : List Timer) : Multiset Timer) = C.bind (boxTimer fired))
    (hnodup : ((due ++ stay).map Timer.id).Nodup) :
    (stay : Multiset Timer) = C.bind (boxTimer fun i => fired i || due.any (·.id = i)) := by
  rw [List.map_append, List.nodup_append] at hnodup
  have hdue : due.filter (fun s => s.id ∉ due.map Timer.id) = [] := by
    rw [List.filter_eq_nil_iff]
    intro s hs
    simpa using List.mem_map_of_mem (f := Timer.id) hs
  have hstay : stay.filter (fun s => s.id ∉ due.map Timer.id) = stay := by
    rw [List.filter_eq_self]
    intro s hs
    have hne : s.id ∉ due.map Timer.id := fun hd =>
      hnodup.2.2 s.id hd s.id (List.mem_map_of_mem hs) rfl
    simpa using hne
  rw [Multiset.bind_congr fun c _ => boxTimer_due fired due c, ← Multiset.filter_bind, ← h,
    Multiset.filter_coe, List.filter_append, hdue, hstay, List.nil_append]

structure Timed (live : List TaskId) (C : Multiset (Box RtLeaf)) (w : World (TimerMem γ)) :
    Prop where
  tasks    : ∀ c ∈ C, c.task ∈ live
  woken    : ∀ t ∈ w.mem.reactor.woken, t ∈ live
  /-- The boxes are the allocated ones. -/
  born     : ∀ id, .born id ∈ w.log ↔ id < w.next
  released : ∀ id, .released id ∈ w.log → id < w.next
  boxes    : ∀ id, id ∈ C.map Box.id ↔ id < w.next ∧ .released id ∉ w.log
  nodup    : (C.map Box.id).Nodup
  /-- The pending timers are theirs. -/
  pending  : (w.mem.reactor.pending : Multiset Timer) = C.bind (boxTimer w.mem.reactor.fired)
  waker    : ∀ c ∈ C, ∀ dur deadline waker, c.leaf = some (.sleep dur true deadline waker) →
    waker = c.task
  /-- A clone is made once, and is with the timer until it is called or dropped. -/
  clones   : ∀ id, w.mem.clones.count (.cloned id) =
    (w.mem.reactor.pending.map Timer.id).count id + w.mem.clones.count (.woken id) +
      w.mem.clones.count (.dropped id)
  once     : ∀ id, w.mem.clones.count (.cloned id) ≤ 1
  unarmed  : ∀ c ∈ C, (∀ l, c.leaf = some l → l.armed = false) →
    w.mem.clones.count (.cloned c.id) = 0
  fresh    : ∀ id, w.next ≤ id → w.mem.clones.count (.cloned id) = 0
  /-- A freed box is not touched. -/
  freed    : ∀ id, .freed id ∈ w.mem.clones → .released id ∈ w.log
  late     : w.mem.clones.Pairwise CloneEvent.Before

namespace Timed

variable {live : List TaskId} {C : Multiset (Box RtLeaf)} {w : World (TimerMem γ)} {c : Box RtLeaf}

theorem pending_nodup (h : Timed live C w) : (w.mem.reactor.pending.map Timer.id).Nodup := by
  have hle := map_id_bind_le w.mem.reactor.fired C
  rw [← h.pending] at hle
  exact Multiset.coe_nodup.mp (Multiset.nodup_of_le hle h.nodup)

/-- A pending timer and its box. -/
theorem box_of_pending (h : Timed live C w) {s : Timer} (hs : s ∈ w.mem.reactor.pending) :
    ∃ c ∈ C, s ∈ boxTimer w.mem.reactor.fired c := by
  have hmem : s ∈ (w.mem.reactor.pending : Multiset Timer) := hs
  rw [h.pending] at hmem
  exact Multiset.mem_bind.mp hmem

/-- The waker of a pending timer is that of a live task. -/
theorem live_of_pending (h : Timed live C w) {s : Timer} (hs : s ∈ w.mem.reactor.pending) :
    s.waker ∈ live := by
  obtain ⟨c, hc, hsc⟩ := h.box_of_pending hs
  obtain ⟨-, -, dur, hleaf⟩ := mem_boxTimer.mp hsc
  rw [h.waker c hc dur s.deadline s.waker hleaf]
  exact h.tasks c hc

theorem notMem_tail (h : Timed live (c ::ₘ C) w) : ∀ d ∈ C, d.id ≠ c.id := by
  have hnodup := h.nodup
  rw [Multiset.map_cons, Multiset.nodup_cons] at hnodup
  intro d hd heq
  exact hnodup.1 (heq ▸ Multiset.mem_map_of_mem Box.id hd)

/-- What happens to boxes that are allocated. -/
theorem late_append (h : Timed live C w) {es : List CloneEvent}
    (hes : es.Pairwise CloneEvent.Before) (hbox : ∀ e ∈ es, e.box ∈ C.map Box.id) :
    (w.mem.clones ++ es).Pairwise CloneEvent.Before := by
  rw [List.pairwise_append]
  refine ⟨h.late, hes, ?_⟩
  rintro _ hfreed e he id rfl rfl
  exact ((h.boxes _).mp (hbox e he)).2 (h.freed _ hfreed)

/-- A memory that differs in nothing the assertion is about. -/
theorem of_mem (h : Timed live C w) {m : TimerMem γ}
    (hpending : m.reactor.pending = w.mem.reactor.pending)
    (hfired : m.reactor.fired = w.mem.reactor.fired) (hclones : m.clones = w.mem.clones)
    (hwoken : ∀ t ∈ m.reactor.woken, t ∈ live) : Timed live C { w with mem := m } := by
  obtain ⟨⟨clock, pending, fired, woken⟩, clones, ctx⟩ := m
  obtain rfl : pending = _ := hpending
  obtain rfl : fired = _ := hfired
  obtain rfl : clones = _ := hclones
  exact { h with woken := hwoken }

/-! ## Leaves

Polls of the three leaves keep the correspondence. A poll that arms a timer clones the waker and inserts
the timer; all other polls leave the list alone.
-/

/-- A leaf that changes to nothing that the reactor knows of. -/
theorem change (h : Timed live (c ::ₘ C) w) {c' : Box RtLeaf} (htask : c'.task = c.task)
    (hid : c'.id = c.id)
    (htimer : boxTimer w.mem.reactor.fired c' = boxTimer w.mem.reactor.fired c)
    (hwaker : ∀ dur deadline waker, c'.leaf = some (.sleep dur true deadline waker) →
      waker = c.task)
    (hunarmed : (∀ l, c'.leaf = some l → l.armed = false) →
      ∀ l, c.leaf = some l → l.armed = false) : Timed live (c' ::ₘ C) w := by
  have hself := Multiset.mem_cons_self c C
  have hids : (c' ::ₘ C).map Box.id = (c ::ₘ C).map Box.id := by simp [hid]
  refine { h with
    tasks := ?_, boxes := hids ▸ h.boxes, nodup := hids ▸ h.nodup, pending := ?_, waker := ?_,
    unarmed := ?_ }
  · refine Multiset.forall_mem_cons.mpr ⟨?_, fun d hd => h.tasks d (Multiset.mem_cons_of_mem hd)⟩
    exact htask ▸ h.tasks c hself
  · rw [h.pending, Multiset.cons_bind, Multiset.cons_bind, htimer]
  · refine Multiset.forall_mem_cons.mpr ⟨?_, fun d hd => h.waker d (Multiset.mem_cons_of_mem hd)⟩
    exact htask ▸ hwaker
  · refine Multiset.forall_mem_cons.mpr
      ⟨fun hc' => ?_, fun d hd => h.unarmed d (Multiset.mem_cons_of_mem hd)⟩
    rw [hid]
    exact h.unarmed c hself (hunarmed hc')

/-- `sleep_poll` arms the timer. -/
theorem arm {t : TaskId} {id dur deadline deadline' : Nat} {waker : TaskId}
    (h : Timed live (⟨t, id, some (.sleep dur false deadline waker)⟩ ::ₘ C) w) {m : TimerMem γ}
    (hpending : m.reactor.pending = reactorInsert ⟨id, deadline', t⟩ w.mem.reactor.pending)
    (hfired : m.reactor.fired = Function.update w.mem.reactor.fired id false)
    (hclones : m.clones = w.mem.clones ++ [.cloned id])
    (hwoken : m.reactor.woken = w.mem.reactor.woken) :
    Timed live (⟨t, id, some (.sleep dur true deadline' t)⟩ ::ₘ C) { w with mem := m } := by
  have hself : (⟨t, id, some (.sleep dur false deadline waker)⟩ : Box RtLeaf) ∈
      (⟨t, id, some (.sleep dur false deadline waker)⟩ : Box RtLeaf) ::ₘ C :=
    Multiset.mem_cons_self _ _
  have hother : ∀ d ∈ C, d.id ≠ id := h.notMem_tail
  -- the box was never armed, so this is its first clone
  have hzero : w.mem.clones.count (.cloned id) = 0 := h.unarmed _ hself (by simp [RtLeaf.armed])
  have hperm := reactorInsert_perm ⟨id, deadline', t⟩ w.mem.reactor.pending
  have hcount : ∀ i, m.clones.count (.cloned i) =
      w.mem.clones.count (.cloned i) + if id = i then 1 else 0 := by
    intro i
    rw [hclones, List.count_append, List.count_singleton]
    simp
  have hflags : C.bind (boxTimer m.reactor.fired) = C.bind (boxTimer w.mem.reactor.fired) := by
    apply bind_boxTimer_congr
    intro d hd
    rw [hfired, Function.update_of_ne (hother d hd)]
  constructor
  case tasks =>
    refine Multiset.forall_mem_cons.mpr ⟨?_, fun d hd => h.tasks d (Multiset.mem_cons_of_mem hd)⟩
    exact (h.tasks _ hself :)
  case woken =>
    show ∀ t ∈ m.reactor.woken, t ∈ live
    rw [hwoken]
    exact h.woken
  case born => exact h.born
  case released => exact h.released
  case boxes => simpa using h.boxes
  case nodup => simpa using h.nodup
  case pending =>
    show (m.reactor.pending : Multiset Timer) = Multiset.bind _ (boxTimer m.reactor.fired)
    rw [hpending, Multiset.coe_eq_coe.mpr hperm, ← Multiset.cons_coe, h.pending, Multiset.cons_bind,
      Multiset.cons_bind, hflags, hfired]
    simp [boxTimer]
  case waker =>
    refine Multiset.forall_mem_cons.mpr ⟨?_, fun d hd => h.waker d (Multiset.mem_cons_of_mem hd)⟩
    intro dur' deadline'' waker' hleaf
    simp only [Option.some.injEq, RtLeaf.sleep.injEq] at hleaf
    exact hleaf.2.2.2.symm
  case clones =>
    intro i
    show m.clones.count (.cloned i) = (m.reactor.pending.map Timer.id).count i +
      m.clones.count (.woken i) + m.clones.count (.dropped i)
    have hold := h.clones i
    rw [hcount, hpending, (hperm.map Timer.id).count_eq, hclones]
    simp only [List.map_cons, List.count_cons, List.count_append, List.count_nil, beq_iff_eq,
      reduceCtorEq, if_false]
    omega
  case once =>
    intro i
    show m.clones.count (.cloned i) ≤ 1
    have hold := h.once i
    rw [hcount]
    split
    next hi =>
      rw [← hi, hzero]
    next => exact hold
  case unarmed =>
    refine Multiset.forall_mem_cons.mpr ⟨fun harmed => ?_, fun d hd hunarmed => ?_⟩
    · exact absurd (harmed _ rfl) nofun
    · show m.clones.count (.cloned d.id) = 0
      rw [hcount, h.unarmed d (Multiset.mem_cons_of_mem hd) hunarmed, if_neg (hother d hd).symm]
  case fresh =>
    intro i hi
    show m.clones.count (.cloned i) = 0
    have hlt : id < w.next := by
      have hmem := (h.boxes id).mp (Multiset.mem_map_of_mem Box.id hself)
      exact hmem.1
    have hi : w.next ≤ i := hi
    rw [hcount, h.fresh i hi, if_neg (by omega)]
  case freed =>
    show ∀ id, .freed id ∈ m.clones → _
    rw [hclones]
    simpa using h.freed
  case late =>
    show m.clones.Pairwise _
    rw [hclones]
    apply h.late_append (List.pairwise_singleton _ _)
    intro e he
    rw [List.mem_singleton.mp he]
    exact Multiset.mem_map_of_mem Box.id hself

/-- A poll of any leaf keeps the account. -/
theorem leafPoll {t : TaskId} (ht : t ∈ live) {id : Nat} {l : RtLeaf}
    (h : Timed live (⟨t, id, some l⟩ ::ₘ C) w) :
    Timed live (⟨t, id, some (timedPoll id l t w.mem).1.2⟩ ::ₘ C)
      { w with mem := (timedPoll id l t w.mem).2 } := by
  have hstay : ∀ st, timedPoll id l t w.mem = ((st, l), w.mem) →
      Timed live (⟨t, id, some (timedPoll id l t w.mem).1.2⟩ ::ₘ C)
        { w with mem := (timedPoll id l t w.mem).2 } := by
    intro st hpoll
    rw [hpoll]
    exact h
  rcases l with _ | (_ | _) | ⟨dur, _ | _, deadline, waker⟩
  case ready => exact hstay true (by simp [timedPoll, rtLeafPoll, RtLeaf.armed])
  case yieldNow.true => exact hstay true (by simp [timedPoll, rtLeafPoll, RtLeaf.armed])
  case sleep.true =>
    exact hstay (decide (w.mem.reactor.clock ≥ deadline))
      (by simp [timedPoll, rtLeafPoll, sleepPoll, RtLeaf.armed])
  case yieldNow.false =>
    have hpoll : timedPoll id (.yieldNow false) t w.mem = ((false, .yieldNow true),
        { w.mem with reactor.woken := w.mem.reactor.woken ++ [t] }) := by
      simp [timedPoll, rtLeafPoll, RtLeaf.armed]
    rw [hpoll]
    have hchange : Timed live (⟨t, id, some (.yieldNow true)⟩ ::ₘ C) w := by
      refine h.change rfl rfl rfl nofun ?_
      intro _ l hl
      cases hl
      rfl
    refine hchange.of_mem rfl rfl rfl ?_
    intro u hu
    rcases List.mem_append.mp hu with hu | hu
    · exact h.woken u hu
    · rwa [List.mem_singleton.mp hu]
  case sleep.false =>
    -- a duration of 0, or one that wraps, is `Ready` without a timer
    by_cases hready : w.mem.reactor.clock ≥ wadd w.mem.reactor.clock dur
    · exact hstay true (by simp [timedPoll, rtLeafPoll, sleepPoll, hready, RtLeaf.armed])
    · have hpoll : timedPoll id (.sleep dur false deadline waker) t w.mem =
          ((false, .sleep dur true (wadd w.mem.reactor.clock dur) t),
            { w.mem with
              reactor := { w.mem.reactor with
                pending := reactorInsert ⟨id, wadd w.mem.reactor.clock dur, t⟩ w.mem.reactor.pending
                fired   := Function.update w.mem.reactor.fired id false }
              clones := w.mem.clones ++ [.cloned id] }) := by
        simp [timedPoll, rtLeafPoll, sleepPoll, hready, RtLeaf.armed]
      rw [hpoll]
      exact h.arm rfl rfl rfl rfl

/-! ## Births and releases

New boxes are unarmed. A box that is released takes its timer out of the list, and the clone in it is
dropped unless it was woken.
-/

theorem used (h : Timed live C w) {e : Custody.Event} (hborn : ∀ id, e ≠ .born id)
    (hreleased : ∀ id, e ≠ .released id) : Timed live C { w with log := w.log ++ [e] } := by
  have hb : ∀ id, .born id ∈ w.log ++ [e] ↔ .born id ∈ w.log := by
    intro id
    simp [(hborn id).symm]
  have hr : ∀ id, .released id ∈ w.log ++ [e] ↔ .released id ∈ w.log := by
    intro id
    simp [(hreleased id).symm]
  exact { h with
    born := fun id => (hb id).trans (h.born id)
    released := fun id hid => h.released id ((hr id).mp hid)
    boxes := fun id => by rw [h.boxes, hr]
    freed := fun id hid => (hr id).mpr (h.freed id hid) }

/-- A new box has no timer. -/
theorem birth (h : Timed live C w) {t : TaskId} (ht : t ∈ live) {leaf : Option RtLeaf}
    (hnew : ∀ l, leaf = some l → l.armed = false) :
    Timed live (⟨t, w.next, leaf⟩ ::ₘ C)
      { w with next := w.next + 1, log := w.log ++ [.born w.next] } := by
  have hr : ∀ id, .released id ∈ w.log ++ [.born w.next] ↔ .released id ∈ w.log := by simp
  constructor
  case tasks => exact Multiset.forall_mem_cons.mpr ⟨ht, h.tasks⟩
  case woken => exact h.woken
  case born =>
    intro id
    show .born id ∈ w.log ++ [.born w.next] ↔ id < w.next + 1
    rw [List.mem_append, h.born, List.mem_singleton, Custody.Event.born.injEq]
    omega
  case released => exact fun id hid => Nat.lt_succ_of_lt (h.released id ((hr id).mp hid))
  case boxes =>
    intro id
    show id ∈ (_ ::ₘ C).map Box.id ↔ id < w.next + 1 ∧ .released id ∉ w.log ++ [.born w.next]
    rw [hr, Multiset.map_cons, Multiset.mem_cons, h.boxes]
    -- the new number was not released before, and no later one was
    have hnew := h.released id
    constructor
    · intro h
      rcases h with rfl | ⟨hlt, hid⟩
      · exact ⟨Nat.lt_succ_self _, fun hid => Nat.lt_irrefl _ (hnew hid)⟩
      · exact ⟨Nat.lt_succ_of_lt hlt, hid⟩
    · intro h
      obtain ⟨hlt, hid⟩ := h
      rcases Nat.lt_succ_iff_lt_or_eq.mp hlt with hlt | heq
      · exact .inr ⟨hlt, hid⟩
      · exact .inl heq
  case nodup =>
    rw [Multiset.map_cons, Multiset.nodup_cons]
    exact ⟨fun hmem => Nat.lt_irrefl _ ((h.boxes _).mp hmem).1, h.nodup⟩
  case pending =>
    rw [Multiset.cons_bind, boxTimer_unarmed hnew, zero_add]
    exact h.pending
  case waker =>
    refine Multiset.forall_mem_cons.mpr ⟨?_, h.waker⟩
    intro dur deadline waker hleaf
    exact absurd (hnew _ hleaf) nofun
  case clones => exact h.clones
  case once => exact h.once
  case unarmed =>
    refine Multiset.forall_mem_cons.mpr ⟨fun _ => ?_, h.unarmed⟩
    exact h.fresh w.next (Nat.le_refl _)
  case fresh => exact fun id hid => h.fresh id (Nat.le_of_succ_le hid)
  case freed => exact fun id hid => (hr id).mpr (h.freed id hid)
  case late => exact h.late

/-- A box is released, and its timer is gone from the reactor. -/
theorem release (h : Timed live (c ::ₘ C) w) {m : TimerMem γ} (es : List CloneEvent)
    (hpending : (m.reactor.pending : Multiset Timer) = C.bind (boxTimer m.reactor.fired))
    (hwoken : m.reactor.woken = w.mem.reactor.woken) (hclones : m.clones = w.mem.clones ++ es)
    (hes : ∀ e ∈ es, e = .dropped c.id ∨ e = .freed c.id) (hlate : es.Pairwise CloneEvent.Before)
    (hcount : ∀ id, (w.mem.reactor.pending.map Timer.id).count id =
      (m.reactor.pending.map Timer.id).count id + es.count (.dropped id)) :
    Timed live C { w with mem := m, log := w.log ++ [.released c.id] } := by
  have hr : ∀ id, .released id ∈ w.log ++ [.released c.id] ↔ .released id ∈ w.log ∨ id = c.id := by
    simp
  have hself : c.id ∈ (c ::ₘ C).map Box.id :=
    Multiset.mem_map_of_mem Box.id (Multiset.mem_cons_self c C)
  have hnodup := h.nodup
  rw [Multiset.map_cons, Multiset.nodup_cons] at hnodup
  -- a release clones no waker
  have hcloned : ∀ id, m.clones.count (.cloned id) = w.mem.clones.count (.cloned id) := by
    intro id
    have hzero : es.count (.cloned id) = 0 :=
      List.count_eq_zero.mpr fun he => by simpa using hes _ he
    rw [hclones, List.count_append, hzero, Nat.add_zero]
  constructor
  case tasks => exact fun d hd => h.tasks d (Multiset.mem_cons_of_mem hd)
  case woken =>
    show ∀ t ∈ m.reactor.woken, t ∈ live
    rw [hwoken]
    exact h.woken
  case born => simpa using h.born
  case released =>
    intro id hid
    rcases (hr id).mp hid with hid | rfl
    · exact h.released id hid
    · exact ((h.boxes c.id).mp hself).1
  case boxes =>
    intro id
    show id ∈ C.map Box.id ↔ id < w.next ∧ .released id ∉ w.log ++ [.released c.id]
    -- each number has one box, so the one released is not among the rest
    have hold := h.boxes id
    rw [Multiset.map_cons, Multiset.mem_cons] at hold
    rw [hr, not_or]
    constructor
    · intro hid
      obtain ⟨hlt, hid'⟩ := hold.mp (.inr hid)
      exact ⟨hlt, hid', fun heq => hnodup.1 (heq ▸ hid)⟩
    · intro h
      obtain ⟨hlt, hid, hne⟩ := h
      exact (hold.mpr ⟨hlt, hid⟩).resolve_left hne
  case nodup => exact hnodup.2
  case pending => exact hpending
  case waker => exact fun d hd => h.waker d (Multiset.mem_cons_of_mem hd)
  case clones =>
    intro id
    show m.clones.count (.cloned id) = (m.reactor.pending.map Timer.id).count id +
      m.clones.count (.woken id) + m.clones.count (.dropped id)
    have hwoken : es.count (.woken id) = 0 :=
      List.count_eq_zero.mpr fun he => by simpa using hes _ he
    have hold := h.clones id
    rw [hcloned, hclones, List.count_append, List.count_append, hwoken]
    -- a clone that leaves the queue of timers is dropped
    have hnow := hcount id
    omega
  case once => exact fun id => (hcloned id).trans_le (h.once id)
  case unarmed =>
    exact fun d hd hd' => (hcloned d.id).trans (h.unarmed d (Multiset.mem_cons_of_mem hd) hd')
  case fresh => exact fun id hid => (hcloned id).trans (h.fresh id hid)
  case freed =>
    intro id hid
    have hid : .freed id ∈ m.clones := hid
    rw [hclones, List.mem_append] at hid
    refine (hr id).mpr (hid.imp (h.freed id) fun he => ?_)
    simpa using hes _ he
  case late =>
    show m.clones.Pairwise _
    rw [hclones]
    apply h.late_append hlate
    intro e he
    rcases hes e he with rfl | rfl <;> exact hself

/-- A drop of any leaf takes its timer along. -/
theorem leafDrop {t : TaskId} {id : Nat} {l : RtLeaf}
    (h : Timed live (⟨t, id, some l⟩ ::ₘ C) w) :
    Timed live C { w with mem := timedDrop id l w.mem, log := w.log ++ [.released id] } := by
  have hpending := h.pending
  rw [Multiset.cons_bind] at hpending
  -- without a pending timer the reactor is not touched
  have hquiet : timedDrop id l w.mem = { w.mem with clones := w.mem.clones ++ [.freed id] } →
      boxTimer w.mem.reactor.fired ⟨t, id, some l⟩ = 0 →
      Timed live C { w with mem := timedDrop id l w.mem, log := w.log ++ [.released id] } := by
    intro hdrop htimer
    rw [hdrop]
    rw [htimer, zero_add] at hpending
    refine h.release [.freed id] hpending rfl rfl ?_ (List.pairwise_singleton _ _) ?_
    · simp
    · intro i
      simp
  rcases l with _ | _ | ⟨dur, _ | _, deadline, waker⟩
  case ready => exact hquiet (by simp [timedDrop, rtLeafDrop, RtLeaf.armed]) rfl
  case yieldNow => exact hquiet (by simp [timedDrop, rtLeafDrop, RtLeaf.armed]) rfl
  case sleep.false => exact hquiet (by simp [timedDrop, rtLeafDrop, sleepDrop, RtLeaf.armed]) rfl
  case sleep.true =>
    cases hfired : w.mem.reactor.fired id with
    | true =>
        exact hquiet (by simp [timedDrop, rtLeafDrop, sleepDrop, RtLeaf.armed, hfired])
          (by simp [boxTimer, hfired])
    | false =>
        have hdrop : timedDrop id (.sleep dur true deadline waker) w.mem = { w.mem with
            reactor := { w.mem.reactor with
              pending := w.mem.reactor.pending.erase ⟨id, deadline, waker⟩ }
            clones := w.mem.clones ++ [.dropped id, .freed id] } := by
          simp [timedDrop, rtLeafDrop, sleepDrop, RtLeaf.armed, hfired]
        -- its timer is pending, and so is there to be unlinked
        have htimer : boxTimer w.mem.reactor.fired ⟨t, id, some (.sleep dur true deadline waker)⟩ =
            {⟨id, deadline, waker⟩} := by simp [boxTimer, hfired]
        rw [htimer, Multiset.singleton_add] at hpending
        have hmem : ⟨id, deadline, waker⟩ ∈ w.mem.reactor.pending := by
          rw [← Multiset.mem_coe, hpending]
          exact Multiset.mem_cons_self _ _
        rw [hdrop]
        apply h.release [.dropped id, .freed id]
        · show ((w.mem.reactor.pending.erase _ : List Timer) : Multiset Timer) = _
          rw [← Multiset.coe_erase, hpending, Multiset.erase_cons_head]
        · rfl
        · rfl
        · simp
        · simp [CloneEvent.Before]
        · intro i
          rw [((List.perm_cons_erase hmem).map Timer.id).count_eq, List.map_cons, List.count_cons]
          simp [List.count_cons]

/-! ## Calls of the program

`cexec_reactor_fire_due` from anywhere, and the park. Both wake the tasks of the timers that they take
out.
-/

/-- Timers fire: each is unlinked, its flag is set and its clone is called. -/
theorem fireDue (h : Timed live C w) (now : Nat) :
    Timed live C { w with mem := (cexecFireDue now w.mem).2 } := by
  obtain ⟨due, stay, hsplit⟩ : ∃ due stay, Exec.fireDue now w.mem.reactor.pending = (due, stay) :=
    ⟨_, _, rfl⟩
  have happend : due ++ stay = w.mem.reactor.pending := by
    have heq := fireDue_append now w.mem.reactor.pending
    rwa [hsplit] at heq
  -- the due timers are the front of the queue
  have hfire : cexecFireDue now w.mem = (!due.isEmpty, { w.mem with
      reactor := { w.mem.reactor with
        pending := stay
        fired   := fun i => w.mem.reactor.fired i || due.any (·.id = i)
        woken   := w.mem.reactor.woken ++ due.map Timer.waker }
      clones := w.mem.clones ++ due.map fun s => .woken s.id }) := by
    unfold cexecFireDue
    rw [hsplit]
  have hcloned : ∀ id, (w.mem.clones ++ due.map fun s => CloneEvent.woken s.id).count (.cloned id) =
      w.mem.clones.count (.cloned id) := by
    intro id
    have hzero : (due.map fun s => CloneEvent.woken s.id).count (.cloned id) = 0 :=
      List.count_eq_zero.mpr (by simp)
    rw [List.count_append, hzero, Nat.add_zero]
  rw [hfire]
  constructor
  case tasks => exact h.tasks
  case woken =>
    intro t ht
    rcases List.mem_append.mp ht with ht | ht
    · exact h.woken t ht
    · obtain ⟨s, hs, rfl⟩ := List.mem_map.mp ht
      exact h.live_of_pending (happend ▸ List.mem_append_left _ hs)
  case born => exact h.born
  case released => exact h.released
  case boxes => exact h.boxes
  case nodup => exact h.nodup
  case pending =>
    apply bind_boxTimer_due
    · rw [happend]
      exact h.pending
    · exact happend ▸ h.pending_nodup
  case waker => exact h.waker
  case clones =>
    intro id
    show (w.mem.clones ++ _).count _ = _
    have hold := h.clones id
    have hwoken : (due.map fun s => CloneEvent.woken s.id).count (.woken id) =
        (due.map Timer.id).count id := by
      rw [show (due.map fun s => CloneEvent.woken s.id) = (due.map Timer.id).map .woken by simp]
      exact List.count_map_of_injective _ _ (fun _ _ heq => CloneEvent.woken.inj heq) id
    have hdropped : (due.map fun s => CloneEvent.woken s.id).count (.dropped id) = 0 :=
      List.count_eq_zero.mpr (by simp)
    -- each clone that leaves the queue is woken
    rw [← happend, List.map_append, List.count_append] at hold
    rw [hcloned]
    simp only [List.count_append, hwoken, hdropped]
    omega
  case once => exact fun id => (hcloned id).trans_le (h.once id)
  case unarmed => exact fun c hc hc' => (hcloned c.id).trans (h.unarmed c hc hc')
  case fresh => exact fun id hid => (hcloned id).trans (h.fresh id hid)
  case freed =>
    intro id hid
    exact h.freed id (by simpa using hid)
  case late =>
    apply h.late_append
    · rw [List.pairwise_map]
      exact List.pairwise_of_forall fun _ _ => nofun
    · intro e he
      obtain ⟨s, hs, rfl⟩ := List.mem_map.mp he
      obtain ⟨c, hc, hsc⟩ := h.box_of_pending (happend ▸ List.mem_append_left _ hs)
      show s.id ∈ _
      rw [(mem_boxTimer.mp hsc).2.1]
      exact Multiset.mem_map_of_mem Box.id hc

theorem call (h : Timed live C w) (r : TimerCall γ) :
    Timed live C { w with mem := r.run w.mem } := by
  cases r with
  | fireDue now => exact h.fireDue now
  | clock reading => exact h.of_mem rfl rfl rfl h.woken
  | work f => exact h.of_mem rfl rfl rfl h.woken

theorem calls (h : Timed live C w) (rs : List (TimerCall γ)) :
    Timed live C { w with mem := rs.foldl TimerCall.run w.mem } := by
  induction rs generalizing w with
  | nil => exact h
  | cons r rs ih => exact ih (h.call r)

theorem park (h : Timed live C w) : Timed live C { w with mem := (timedPark w.mem).2 } := by
  unfold timedPark
  split
  · exact h
  next deadline _ =>
    have hclock := h.call (.clock (if deadline > w.mem.reactor.clock then deadline
      else w.mem.reactor.clock))
    exact hclock.fireDue _

/-- The wakes are taken out. -/
theorem wakes (h : Timed live C w) : Timed live C { w with mem.reactor.woken := [] } :=
  h.of_mem rfl rfl rfl nofun

end Timed

theorem leaves_inBoxes (e : Expr LeafCall F K) : e.inBoxes.Leaves fun l => l.armed = false := by
  induction e with
  | null => trivial
  | leaf l => cases l <;> rfl
  | map inner fn ih => exact ih
  | then_ a b iha ihb => exact ⟨iha, ihb⟩
  | join2 a size b iha ihb => exact ⟨iha, ihb⟩
  | select2 a b iha ihb => exact ⟨iha, ihb⟩
  | sm states start => trivial

/-- A drop wakes nobody. -/
theorem timedDrop_woken (self : Nat) (l : RtLeaf) (m : TimerMem γ) :
    (timedDrop self l m).reactor.woken = m.reactor.woken := by
  cases l with
  | ready => rfl
  | yieldNow yielded => rfl
  | sleep dur armed deadline waker =>
      simp only [timedDrop, rtLeafDrop, sleepDrop]
      split <;> rfl

/-- The construction and the drop of a tree keep the reactor's account, and wake nobody. -/
theorem hand_rules (p : Program F K γ) {live : List TaskId} {t : TaskId} (ht : t ∈ live)
    (woken : List TaskId) : HandRules p.site (fun l => l.armed = false) t
      fun C w => Timed live C w ∧ w.mem.reactor.woken = woken where
  asked _ _ h       := ⟨{ h.1 with }, h.2⟩
  born _ _ _ hnew h := ⟨h.1.birth ht hnew, h.2⟩
  released _ _ _ h  := by
    have hpending := h.1.pending
    rw [Multiset.cons_bind, show boxTimer _ ⟨_, _, none⟩ = 0 from rfl, zero_add] at hpending
    refine ⟨h.1.release [] hpending rfl ?_ nofun .nil ?_, h.2⟩
    · simp
    · simp
  dropped _ _ _ _ h := ⟨h.1.leafDrop, (timedDrop_woken _ _ _).trans h.2⟩

/-- **The reactor's account is an assertion about boxes.** -/
theorem timed_rules (p : Program F K γ) {live : List TaskId} {t : TaskId} (ht : t ∈ live) :
    BoxRules p.site (fun l => l.armed = false) t (Timed live) where
  asked C w h         := ((hand_rules p ht _).asked C w ⟨h, rfl⟩).1
  born C w l hnew h   := ((hand_rules p ht _).born C w l hnew ⟨h, rfl⟩).1
  released C w id h   := ((hand_rules p ht _).released C w id ⟨h, rfl⟩).1
  dropped C w id l h  := ((hand_rules p ht _).dropped C w id l ⟨h, rfl⟩).1
  used _ _ _ h        := h.used nofun nofun
  finished _ _ _ h    := h.used nofun nofun
  polled _ _ _ _ _ h  := h.leafPoll ht
  mapped _ _ _ _ h    := h.calls _
  stepped _ _ _ h     := ⟨leaves_inBoxes _, h.calls _⟩
  trapped _ _ h       := h

end CustLib.Exec
