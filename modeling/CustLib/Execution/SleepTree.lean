import Mathlib.Data.Multiset.Bind
import CustLib.Execution.Children
import CustLib.Execution.Runtime

/-!
# Trees of sleeps on a fake clock

`Fut.due now` is the instant at which a tree is `Ready` when it is polled at `now` and whenever it is
woken. A poll before that instant does not change it (`futurePoll_sleeps`): it leaves the tree pending,
and either the tree has woken its task again or everything in it that was polled waits for a timer.

The leaves that a tree owns are its `cells`. `Good C m` ties the reactor to the cells of all trees: the
pending timers are exactly those of the sleeps in `C` that have not fired. Polls and drops of a tree are
specified in front of the cells of all others, which they leave alone.
-/

namespace CustLib.Exec

/-! ## Cells

The leaves of all trees, with the boxes that they are in. `work` and `load` bound what a cell can still
do, wakes and time, and are the reason why a run ends and why the clock does not overflow.
-/

abbrev Cell := Nat × RtLeaf

def Fut.cells : RtFut → Multiset Cell
  | .null => 0
  | .leaf id l => {(id, l)}
  | .map _ inner _ => inner.cells
  | .then_ _ a b stage => owned (stage = 0) a.cells + b.cells
  | .join2 _ a b _ aDone bDone => owned (!aDone) a.cells + owned (!bDone) b.cells
  | .select2 _ a b => a.cells + b.cells
  | .sm _ _ _ cur _ _ haveCur => owned haveCur cur.cells

def timerOf (now : Nat) : Cell → Multiset Timer
  | (id, .sleep _ true deadline waker) => if now < deadline then {⟨id, deadline, waker⟩} else 0
  | _ => 0

/-- The wake-ups that a cell can still cause. -/
def work (now : Nat) : Cell → Nat
  | (_, .yieldNow false) => 1
  | (_, .sleep _ false _ _) => 1
  | (_, .sleep _ true deadline _) => if now < deadline then 1 else 0
  | _ => 0

/-- The time that a cell can still add to the clock. -/
def load : Cell → Nat
  | (_, .sleep dur false _ _) => dur
  | _ => 0

/-- An armed sleep among the cells, and its deadline. -/
def ArmedAt (C : Multiset Cell) (id deadline : Nat) : Prop :=
  ∃ dur waker, (id, RtLeaf.sleep dur true deadline waker) ∈ C

/-- The reactor and the cells of all trees. -/
structure Good (C : Multiset Cell) (m : Reactor) : Prop where
  sorted  : m.pending.Pairwise fun s t => s.deadline ≤ t.deadline
  pending : (m.pending : Multiset Timer) = C.bind (timerOf m.clock)
  armed   : ∀ id deadline, ArmedAt C id deadline →
    m.clock ≤ deadline ∧ (m.fired id = true ↔ deadline ≤ m.clock)
  nodup   : (C.map Prod.fst).Nodup
  room    : ∃ top, m.clock ≤ top ∧ (∀ id deadline, ArmedAt C id deadline → deadline ≤ top) ∧
    top + (C.map load).sum < 2 ^ 64

theorem ArmedAt.cons {C : Multiset Cell} {id deadline : Nat} (h : ArmedAt C id deadline) (c : Cell) :
    ArmedAt (c ::ₘ C) id deadline := by
  obtain ⟨dur, waker, hmem⟩ := h
  exact ⟨dur, waker, Multiset.mem_cons_of_mem hmem⟩

theorem armedAt_add {C D : Multiset Cell} {id deadline : Nat} :
    ArmedAt (C + D) id deadline ↔ ArmedAt C id deadline ∨ ArmedAt D id deadline := by
  simp only [ArmedAt, Multiset.mem_add, exists_or]

theorem armedAt_owned {c : Bool} {C : Multiset Cell} {id deadline : Nat}
    (h : ArmedAt (owned c C) id deadline) : c = true ∧ ArmedAt C id deadline := by
  cases c with
  | true => exact ⟨rfl, h⟩
  | false =>
      obtain ⟨dur, waker, hmem⟩ := h
      exact absurd hmem (Multiset.notMem_zero _)

/-- A cell that keeps its address, and changes to nothing that the reactor knows of. -/
theorem Good.set {C : Multiset Cell} {m m' : Reactor} {c c' : Cell} (h : Good (c ::ₘ C) m)
    (hid : c'.1 = c.1) (htimer : timerOf m.clock c' = timerOf m.clock c) (hload : load c' ≤ load c)
    (harmed : ∀ id deadline, ArmedAt (c' ::ₘ C) id deadline → ArmedAt (c ::ₘ C) id deadline)
    (hclock : m'.clock = m.clock) (hpending : m'.pending = m.pending) (hfired : m'.fired = m.fired) :
    Good (c' ::ₘ C) m' := by
  obtain ⟨top, htop, hbelow, hroom⟩ := h.room
  constructor
  case sorted => rw [hpending]; exact h.sorted
  case pending =>
    rw [hpending, h.pending, hclock, Multiset.cons_bind, Multiset.cons_bind, htimer]
  case armed =>
    rw [hclock, hfired]
    exact fun id deadline ha => h.armed id deadline (harmed id deadline ha)
  case nodup => simpa [hid] using h.nodup
  case room =>
    rw [hclock]
    refine ⟨top, htop, fun id deadline ha => hbelow id deadline (harmed id deadline ha), ?_⟩
    rw [Multiset.map_cons, Multiset.sum_cons] at hroom ⊢
    omega

/-! ## Leaves

What one leaf does to the reactor: it arms its timer, leaves it pending, or has it unlinked in its drop.
-/

/-- A cell without a timer is left out. -/
theorem Good.tail {C : Multiset Cell} {m : Reactor} {c : Cell} (h : Good (c ::ₘ C) m)
    (htimer : timerOf m.clock c = 0) : Good C m := by
  obtain ⟨top, htop, hbelow, hroom⟩ := h.room
  constructor
  case sorted => exact h.sorted
  case pending => rw [h.pending, Multiset.cons_bind, htimer, zero_add]
  case armed => exact fun id deadline ha => h.armed id deadline (ha.cons c)
  case nodup => exact (Multiset.nodup_cons.mp (by simpa using h.nodup)).2
  case room =>
    refine ⟨top, htop, fun id deadline ha => hbelow id deadline (ha.cons c), ?_⟩
    rw [Multiset.map_cons, Multiset.sum_cons] at hroom
    omega

/-- The timer of the sleep is gone from the reactor, and no other. -/
theorem sleepDrop_spec {C : Multiset Cell} {m : Reactor} {id dur deadline : Nat} {armed : Bool}
    {waker : TaskId} (h : Good ((id, .sleep dur armed deadline waker) ::ₘ C) m) :
    Good C (sleepDrop id armed deadline waker m) ∧
      (sleepDrop id armed deadline waker m).clock = m.clock ∧
      (sleepDrop id armed deadline waker m).woken = m.woken := by
  cases armed with
  | false => exact ⟨h.tail rfl, rfl, rfl⟩
  | true =>
      have hfired := (h.armed id deadline ⟨dur, waker, Multiset.mem_cons_self _ _⟩).2
      by_cases hdue : m.clock < deadline
      -- not fired yet: the timer is in the queue, and leaves it
      · have hnot : m.fired id = false := by
          rw [Bool.eq_false_iff]
          exact fun hf => absurd (hfired.mp hf) (Nat.not_le.mpr hdue)
        have hdrop : sleepDrop id true deadline waker m =
            { m with pending := m.pending.erase ⟨id, deadline, waker⟩ } := by
          simp [sleepDrop, hnot]
        rw [hdrop]
        refine ⟨?_, rfl, rfl⟩
        obtain ⟨top, htop, hbelow, hroom⟩ := h.room
        constructor
        case sorted => exact h.sorted.sublist List.erase_sublist
        case pending =>
          show ((m.pending.erase _ : List Timer) : Multiset Timer) = _
          rw [← Multiset.coe_erase, h.pending, Multiset.cons_bind]
          simp [timerOf, hdue]
        case armed => exact fun i d ha => h.armed i d (ha.cons _)
        case nodup => exact (Multiset.nodup_cons.mp (by simpa using h.nodup)).2
        case room =>
          refine ⟨top, htop, fun i d ha => hbelow i d (ha.cons _), ?_⟩
          rw [Multiset.map_cons, Multiset.sum_cons] at hroom
          omega
      -- fired: it has left the queue before
      · have hyes : m.fired id = true := hfired.mpr (Nat.not_lt.mp hdue)
        have hdrop : sleepDrop id true deadline waker m = m := by simp [sleepDrop, hyes]
        rw [hdrop]
        exact ⟨h.tail (if_neg hdue), rfl, rfl⟩

theorem rtLeafDrop_spec {C : Multiset Cell} {m : Reactor} {id : Nat} {l : RtLeaf}
    (h : Good ((id, l) ::ₘ C) m) :
    Good C (rtLeafDrop id l m) ∧ (rtLeafDrop id l m).clock = m.clock ∧
      (rtLeafDrop id l m).woken = m.woken := by
  cases l with
  | ready => exact ⟨h.tail rfl, rfl, rfl⟩
  | yieldNow yielded => exact ⟨h.tail (by cases yielded <;> rfl), rfl, rfl⟩
  | sleep dur armed deadline waker => exact sleepDrop_spec h

/-- A sleep that is polled for the first time. -/
theorem Good.arm {C : Multiset Cell} {m : Reactor} {id dur deadline : Nat} {waker w : TaskId}
    (h : Good ((id, .sleep dur false deadline waker) ::ₘ C) m) (hdur : 0 < dur) :
    Good ((id, .sleep dur true (m.clock + dur) w) ::ₘ C)
      { m with pending := reactorInsert ⟨id, m.clock + dur, w⟩ m.pending,
               fired := Function.update m.fired id false } := by
  obtain ⟨top, htop, hbelow, hroom⟩ := h.room
  have hnodup : id ∉ C.map Prod.fst := (Multiset.nodup_cons.mp (by simpa using h.nodup)).1
  -- the new timer is the only one of its sleep
  have hcases : ∀ i d, ArmedAt ((id, .sleep dur true (m.clock + dur) w) ::ₘ C) i d →
      (i = id ∧ d = m.clock + dur) ∨ (i ≠ id ∧ ArmedAt C i d) := by
    intro i d h
    obtain ⟨dur', waker', hmem⟩ := h
    rcases Multiset.mem_cons.mp hmem with heq | hC
    · cases heq
      exact .inl ⟨rfl, rfl⟩
    · refine .inr ⟨?_, dur', waker', hC⟩
      rintro rfl
      exact hnodup (Multiset.mem_map_of_mem Prod.fst hC)
  have hold : ∀ {i d}, ArmedAt C i d →
      ArmedAt ((id, .sleep dur false deadline waker) ::ₘ C) i d := fun ha => ha.cons _
  constructor
  case sorted => exact reactorInsert_sorted h.sorted
  case pending =>
    have hperm := Multiset.coe_eq_coe.mpr
      (reactorInsert_perm ⟨id, m.clock + dur, w⟩ m.pending)
    rw [hperm, ← Multiset.cons_coe, h.pending, Multiset.cons_bind, Multiset.cons_bind]
    simp [timerOf, hdur]
  case armed =>
    intro i d ha
    rcases hcases i d ha with ⟨rfl, rfl⟩ | ⟨hne, ha⟩
    · refine ⟨Nat.le_add_right _ _, ?_⟩
      show Function.update m.fired i false i = true ↔ m.clock + dur ≤ m.clock
      rw [Function.update_self]
      exact iff_of_false nofun (by omega)
    · show m.clock ≤ d ∧ (Function.update m.fired id false i = true ↔ d ≤ m.clock)
      rw [Function.update_of_ne hne]
      exact h.armed i d (hold ha)
  case nodup => simpa using h.nodup
  case room =>
    refine ⟨top + dur, Nat.le_add_right_of_le htop, ?_, ?_⟩
    · intro i d ha
      rcases hcases i d ha with ⟨-, rfl⟩ | ⟨-, ha⟩
      · exact Nat.add_le_add_right htop dur
      · exact Nat.le_add_right_of_le (hbelow i d (hold ha))
    · rw [Multiset.map_cons, Multiset.sum_cons] at hroom ⊢
      show top + dur + (0 + _) < _
      have hload : load (id, .sleep dur false deadline waker) = dur := rfl
      rw [hload] at hroom
      omega

/-! ## The instant at which a tree is ready

`Fut.due now` is computed from the tree alone. Whatever has been armed keeps its deadline, and what has
not been reached yet starts at the instant at which it will be; so polls do not change it as long as
they come before.
-/

def leafDue (l : RtLeaf) (now : Nat) : Nat :=
  match l with
  | .ready | .yieldNow _ => now
  | .sleep dur armed deadline _ => if armed then deadline else now + dur

/-- When the tree is `Ready`, polled at `now` and whenever it is woken. -/
def Fut.due : RtFut → Nat → Nat
  | .leaf _ l, now => leafDue l now
  | .map _ inner _, now => inner.due now
  | .then_ _ a b stage, now => if stage = 0 then b.due (a.due now) else b.due now
  | .join2 _ a b _ aDone bDone, now =>
    max (if aDone then now else a.due now) (if bDone then now else b.due now)
  | .select2 _ a b, now => min (a.due now) (b.due now)
  | .null, now | .sm .., now => now

def Fut.Fresh : RtFut → Prop
  | .leaf _ l => match l with
    | .sleep _ armed _ _ => armed = false
    | _ => True
  | .map _ inner _ => inner.Fresh
  | .then_ _ a b stage => stage = 0 ∧ a.Fresh ∧ b.Fresh
  | .join2 _ a b _ aDone bDone => aDone = false ∧ bDone = false ∧ a.Fresh ∧ b.Fresh
  | .select2 _ a b => a.Fresh ∧ b.Fresh
  | .null | .sm .. => False

/-- A tree that is pending in the task `t`: its timers wake this task, and what it has not reached yet
    is fresh. -/
def Fut.Ok (t : TaskId) : RtFut → Prop
  | .leaf _ l => match l with
    | .sleep _ armed _ waker => armed = true → waker = t
    | _ => True
  | .map _ inner _ => inner.Ok t
  | .then_ _ a b stage => if stage = 0 then a.Ok t ∧ b.Fresh else b.Ok t
  | .join2 _ a b _ aDone bDone => (aDone = false → a.Ok t) ∧ (bDone = false → b.Ok t)
  | .select2 _ a b => a.Ok t ∧ b.Ok t
  | .null | .sm .. => False

/-- Everything in the tree that was polled waits for a timer. -/
def Fut.Settled : RtFut → Prop
  | .leaf _ l => match l with
    | .sleep _ armed _ _ => armed = true
    | _ => False
  | .map _ inner _ => inner.Settled
  | .then_ _ a b stage => if stage = 0 then a.Settled else b.Settled
  | .join2 _ a b _ aDone bDone =>
    (aDone = false → a.Settled) ∧ (bDone = false → b.Settled) ∧ (aDone && bDone) = false
  | .select2 _ a b => a.Settled ∧ b.Settled
  | .null | .sm .. => False

theorem Fut.Fresh.ok {f : RtFut} (h : f.Fresh) (t : TaskId) : f.Ok t := by
  induction f with
  | null => exact h.elim
  | leaf id l => cases l <;> grind [Fut.Fresh, Fut.Ok]
  | map id inner fn ih => exact ih h
  | then_ id a b stage iha ihb =>
      obtain ⟨rfl, ha, hb⟩ := h
      exact ⟨iha ha, hb⟩
  | join2 id a b aSize aDone bDone iha ihb => exact ⟨fun _ => iha h.2.2.1, fun _ => ihb h.2.2.2⟩
  | select2 id a b iha ihb => exact ⟨iha h.1, ihb h.2⟩
  | sm => exact h.elim

theorem Fut.Fresh.not_armed {f : RtFut} (h : f.Fresh) (id deadline : Nat) :
    ¬ ArmedAt f.cells id deadline := by
  induction f with
  | null => exact h.elim
  | leaf i l =>
      intro h
      obtain ⟨dur, waker, hmem⟩ := h
      cases Multiset.mem_singleton.mp hmem
      cases h
  | map i inner fn ih => exact ih h
  | then_ i a b stage iha ihb =>
      obtain ⟨rfl, ha, hb⟩ := h
      rw [Fut.cells, armedAt_add]
      intro h
      rcases h with h' | h'
      · exact iha ha h'
      · exact ihb hb h'
  | join2 i a b aSize aDone bDone iha ihb =>
      obtain ⟨rfl, rfl, ha, hb⟩ := h
      rw [Fut.cells, armedAt_add]
      intro h
      rcases h with h' | h'
      · exact iha ha h'
      · exact ihb hb h'
  | select2 i a b iha ihb =>
      rw [Fut.cells, armedAt_add]
      intro h
      rcases h with h' | h'
      · exact iha h.1 h'
      · exact ihb h.2 h'
  | sm => exact h.elim

/-- A tree is not ready before it is polled. -/
theorem Fut.Ok.le_due {t : TaskId} {f : RtFut} (h : f.Ok t) {now : Nat}
    (harmed : ∀ id deadline, ArmedAt f.cells id deadline → now ≤ deadline) : now ≤ f.due now := by
  induction f generalizing now with
  | null => exact h.elim
  | leaf id l =>
      cases l with
      | ready => exact Nat.le_refl _
      | yieldNow y => exact Nat.le_refl _
      | sleep dur armed deadline waker =>
          cases armed with
          | false => exact Nat.le_add_right _ _
          | true => exact harmed id deadline ⟨dur, waker, Multiset.mem_singleton_self _⟩
  | map id inner fn ih => exact ih h harmed
  | then_ id a b stage iha ihb =>
      by_cases hstage : stage = 0
      · subst hstage
        obtain ⟨ha, hb⟩ := h
        have hna := iha ha fun i d hi => harmed i d (armedAt_add.mpr (.inl hi))
        apply Nat.le_trans hna
        exact ihb (hb.ok t) fun i d hi => absurd hi (hb.not_armed i d)
      · simp only [Fut.Ok, hstage, if_false] at h
        simp only [Fut.due, hstage, if_false]
        exact ihb h fun i d hi => harmed i d (armedAt_add.mpr (.inr hi))
  | join2 id a b aSize aDone bDone iha ihb =>
      refine Nat.le_trans ?_ (Nat.le_max_left _ _)
      cases aDone with
      | true => exact Nat.le_refl _
      | false => exact iha (h.1 rfl) fun i d hi => harmed i d (armedAt_add.mpr (.inl hi))
  | select2 id a b iha ihb =>
      refine Nat.le_min.mpr ⟨?_, ?_⟩
      · exact iha h.1 fun i d hi => harmed i d (armedAt_add.mpr (.inl hi))
      · exact ihb h.2 fun i d hi => harmed i d (armedAt_add.mpr (.inr hi))
  | sm => exact h.elim

/-- **Waiting does not change the instant**, as long as the clock passes no deadline. -/
theorem Fut.Settled.due_eq {t : TaskId} {f : RtFut} (hs : f.Settled) (h : f.Ok t) {now now' : Nat}
    (hnow : now ≤ now')
    (harmed : ∀ id deadline, ArmedAt f.cells id deadline → now' ≤ deadline) :
    f.due now' = f.due now := by
  induction f with
  | null => exact h.elim
  | leaf id l =>
      cases l with
      | ready => exact hs.elim
      | yieldNow y => exact hs.elim
      | sleep dur armed deadline waker =>
          have harmed : armed = true := hs
          subst harmed
          rfl
  | map id inner fn ih => exact ih hs h harmed
  | then_ id a b stage iha ihb =>
      by_cases hstage : stage = 0
      · subst hstage
        have ha := iha hs h.1 fun i d hi => harmed i d (armedAt_add.mpr (.inl hi))
        show b.due (a.due now') = b.due (a.due now)
        rw [ha]
      · simp only [Fut.Ok, Fut.Settled, hstage, if_false] at h hs
        simp only [Fut.due, hstage, if_false]
        exact ihb hs h fun i d hi => harmed i d (armedAt_add.mpr (.inr hi))
  | join2 id a b aSize aDone bDone iha ihb =>
      have ha : aDone = false → a.due now' = a.due now ∧ now' ≤ a.due now' := by
        rintro rfl
        have hcells : ∀ i d, ArmedAt a.cells i d → now' ≤ d := fun i d hi =>
          harmed i d (armedAt_add.mpr (.inl hi))
        exact ⟨iha (hs.1 rfl) (h.1 rfl) hcells, (h.1 rfl).le_due hcells⟩
      have hb : bDone = false → b.due now' = b.due now ∧ now' ≤ b.due now' := by
        rintro rfl
        have hcells : ∀ i d, ArmedAt b.cells i d → now' ≤ d := fun i d hi =>
          harmed i d (armedAt_add.mpr (.inr hi))
        exact ⟨ihb (hs.2.1 rfl) (h.2 rfl) hcells, (h.2 rfl).le_due hcells⟩
      -- an arm that is done does not count; one of the two is not
      have hdone := hs.2.2
      simp only [Fut.due]
      cases aDone <;> cases bDone <;> grind
  | select2 id a b iha ihb =>
      have ha := iha hs.1 h.1 fun i d hi => harmed i d (armedAt_add.mpr (.inl hi))
      have hb := ihb hs.2 h.2 fun i d hi => harmed i d (armedAt_add.mpr (.inr hi))
      show min _ _ = min _ _
      rw [ha, hb]
  | sm => exact h.elim

/-- A settled tree has a timer. -/
theorem Fut.Settled.armed {f : RtFut} (hs : f.Settled) : ∃ id deadline, ArmedAt f.cells id deadline := by
  induction f with
  | null => exact hs.elim
  | leaf id l =>
      cases l with
      | ready => exact hs.elim
      | yieldNow y => exact hs.elim
      | sleep dur armed deadline waker =>
          have harmed : armed = true := hs
          subst harmed
          exact ⟨id, deadline, dur, waker, Multiset.mem_singleton_self _⟩
  | map id inner fn ih => exact ih hs
  | then_ id a b stage iha ihb =>
      by_cases hstage : stage = 0
      · subst hstage
        obtain ⟨i, d, hi⟩ := iha hs
        exact ⟨i, d, armedAt_add.mpr (.inl hi)⟩
      · simp only [Fut.Settled, hstage, if_false] at hs
        obtain ⟨i, d, hi⟩ := ihb hs
        exact ⟨i, d, armedAt_add.mpr (.inr hi)⟩
  | join2 id a b aSize aDone bDone iha ihb =>
      cases aDone with
      | false =>
          obtain ⟨i, d, hi⟩ := iha (hs.1 rfl)
          exact ⟨i, d, armedAt_add.mpr (.inl hi)⟩
      | true =>
          have hb : bDone = false := by simpa using hs.2.2
          subst hb
          obtain ⟨i, d, hi⟩ := ihb (hs.2.1 rfl)
          exact ⟨i, d, armedAt_add.mpr (.inr hi)⟩
  | select2 id a b iha ihb =>
      obtain ⟨i, d, hi⟩ := iha hs.1
      exact ⟨i, d, armedAt_add.mpr (.inl hi)⟩
  | sm => exact hs.elim

/-- A settled tree none of whose timers is due. -/
def Fut.Waits (f : RtFut) (now : Nat) : Prop :=
  f.Settled ∧ ∀ id deadline, ArmedAt f.cells id deadline → now < deadline

/-! ## Drops

The cells of a tree that is dropped are gone, and with them their pending timers.
-/

def workOf (now : Nat) (C : Multiset Cell) : Nat := (C.map (work now)).sum

@[simp] theorem workOf_zero (now : Nat) : workOf now 0 = 0 := rfl

@[simp] theorem workOf_add (now : Nat) (C D : Multiset Cell) :
    workOf now (C + D) = workOf now C + workOf now D := by
  rw [workOf, Multiset.map_add, Multiset.sum_add]
  rfl

def Gone (R : Multiset Cell) (m m' : Reactor) : Prop :=
  Good R m' ∧ m'.clock = m.clock ∧ m'.woken = m.woken

/-- A drop takes the timers of the tree with it. -/
theorem futureDrop_gone (f : RtFut) {R : Multiset Cell} {w : World Reactor}
    (h : Good (f.cells + R) w.mem) :
    Eff.wp (futureDrop rtEnv f) (fun _ w' => Gone R w.mem w'.mem) (fun _ => False) w := by
  -- a child that is already gone has no timers
  have hwhen : ∀ {f : RtFut} {c : Bool} {R : Multiset Cell} {w : World Reactor},
      (∀ {R w}, Good (f.cells + R) w.mem →
        Eff.wp (futureDrop rtEnv f) (fun _ w' => Gone R w.mem w'.mem) (fun _ => False) w) →
      Good (owned c f.cells + R) w.mem →
      Eff.wp (Eff.when c (futureDrop rtEnv f)) (fun _ w' => Gone R w.mem w'.mem)
        (fun _ => False) w := by
    intro f c R w hf h
    rw [Eff.wp_when]
    cases c with
    | true => exact hf h
    | false =>
        refine ⟨?_, rfl, rfl⟩
        rwa [owned, if_neg Bool.false_ne_true, zero_add] at h
  have hseq : ∀ {α : Type} {x : Eff (World Reactor) Unit} {y : Unit → Eff (World Reactor) α}
      {R S : Multiset Cell} {w : World Reactor},
      Eff.wp x (fun _ w' => Gone R w.mem w'.mem) (fun _ => False) w →
      (∀ w', Good R w'.mem → Eff.wp (y ()) (fun _ w'' => Gone S w'.mem w''.mem)
        (fun _ => False) w') →
      Eff.wp (x >>= y) (fun _ w'' => Gone S w.mem w''.mem) (fun _ => False) w := by
    intro α x y R S w hx hy
    apply Eff.wp_seq hx
    intro _ w' h
    obtain ⟨hgood, hclock, hwoken⟩ := h
    refine Eff.wp_mono (hy w' hgood) ?_ fun _ => id
    intro _ w'' h
    obtain ⟨hgood', hclock', hwoken'⟩ := h
    exact ⟨hgood', hclock'.trans hclock, hwoken'.trans hwoken⟩
  induction f generalizing R w with
  | null =>
      refine ⟨?_, rfl, rfl⟩
      rwa [Fut.cells, zero_add] at h
  | leaf id l =>
      rw [futureDrop, Eff.wp_bind, wp_note]
      rw [Fut.cells, Multiset.singleton_add] at h
      exact rtLeafDrop_spec h
  | map id inner fn ih => exact ih h
  | then_ id a b stage iha ihb =>
      rw [futureDrop, Eff.wp_bind, wp_note]
      rw [Fut.cells, add_assoc] at h
      exact hseq (hwhen (c := stage = 0) iha h) fun w' h' => ihb h'
  | join2 id a b aSize aDone bDone iha ihb =>
      rw [futureDrop, Eff.wp_bind, wp_note]
      rw [Fut.cells, add_assoc] at h
      exact hseq (hwhen (c := !aDone) iha h) fun w' h' => hwhen (c := !bDone) ihb h'
  | select2 id a b iha ihb =>
      rw [futureDrop, Eff.wp_bind, wp_note]
      rw [Fut.cells, add_assoc] at h
      exact hseq (iha h) fun w' h' => ihb h'
  | sm id states state cur curOut curNext haveCur ih =>
      rw [futureDrop, Eff.wp_bind, wp_note]
      exact hwhen (c := haveCur) ih h

/-! ## Polls

One poll of a tree: `Ready` exactly when its instant is reached, and otherwise settled or woken again.
The three lemmas of a `join2` or `select2` differ in who is polled first, not in what they say.
-/

/-- What a poll of `f` in the task `t` makes of the tree and the reactor, in front of the cells `R`. -/
structure Polled (t : TaskId) (R : Multiset Cell) (f : RtFut) (m : Reactor) (r : Bool × RtFut)
    (m' : Reactor) : Prop where
  good    : Good (r.2.cells + R) m'
  clock   : m'.clock = m.clock
  ready   : r.1 = true → f.due m.clock = m.clock
  pending : r.1 = false → r.2.Ok t ∧ r.2.due m.clock = f.due m.clock
  woken   : ∃ k, m'.woken = m.woken ++ List.replicate k t ∧
    workOf m.clock r.2.cells + k ≤ workOf m.clock f.cells ∧
      (r.1 = false → k = 0 → r.2.Waits m.clock)

def Sleeps (poll : Poller RtLeaf Unit Empty Reactor) : Prop :=
  ∀ t f out R w, f.Ok t → Good (f.cells + R) w.mem →
    Eff.wp (poll f t out) (fun r w' => Polled t R f w.mem r w'.mem) (fun _ => True) w

/-- The address of a leaf and its state, as the cells of a tree. -/
theorem leaf_cells {R : Multiset Cell} {id : Nat} {l : RtLeaf} :
    (Fut.leaf id l : RtFut).cells + R = (id, l) ::ₘ R := Multiset.singleton_add _ _

/-- A poll that wakes nobody. -/
theorem woken_zero {t : TaskId} (woken : List TaskId) : woken = woken ++ List.replicate 0 t :=
  (List.append_nil woken).symm

theorem leaf_waits {now id dur deadline : Nat} {waker : TaskId} (h : now < deadline) :
    (Fut.leaf id (.sleep dur true deadline waker) : RtFut).Waits now := by
  refine ⟨rfl, ?_⟩
  intro i d h
  obtain ⟨dur', waker', hmem⟩ := h
  cases Multiset.mem_singleton.mp hmem
  exact h

/-- One poll of a `sleep`. -/
theorem sleep_polled {t : TaskId} {R : Multiset Cell} {id dur deadline : Nat} {armed : Bool}
    {waker : TaskId} {m : Reactor} (hok : armed = true → waker = t)
    (h : Good ((id, .sleep dur armed deadline waker) ::ₘ R) m) :
    Polled t R (.leaf id (.sleep dur armed deadline waker)) m
      ((sleepPoll id dur armed deadline waker t m).1.1,
        .leaf id (sleepPoll id dur armed deadline waker t m).1.2)
      (sleepPoll id dur armed deadline waker t m).2 := by
  cases armed with
  | true =>
      -- an armed sleep asks the clock
      obtain ⟨hle, -⟩ := h.armed id deadline ⟨dur, waker, Multiset.mem_cons_self _ _⟩
      have hpoll : sleepPoll id dur true deadline waker t m =
          ((decide (m.clock ≥ deadline), .sleep dur true deadline waker), m) := rfl
      rw [hpoll]
      refine ⟨by rwa [leaf_cells], rfl, ?_, fun _ => ⟨hok, rfl⟩, 0, woken_zero _, Nat.le_refl _,
        fun hpending _ => leaf_waits ?_⟩
      · intro hready
        exact Nat.le_antisymm (of_decide_eq_true hready) hle
      · exact Nat.not_le.mp (of_decide_eq_false hpending)
  | false =>
      obtain ⟨top, htop, -, hroom⟩ := h.room
      rw [Multiset.map_cons, Multiset.sum_cons] at hroom
      -- the load of the tree leaves room, so the deadline does not wrap
      have hload : load (id, .sleep dur false deadline waker) = dur := rfl
      have hdeadline : wadd m.clock dur = m.clock + dur := wadd_eq (by omega)
      by_cases hdur : dur = 0
      · subst hdur
        have hpoll : sleepPoll id 0 false deadline waker t m =
            ((true, .sleep 0 false deadline waker), m) := by
          simp [sleepPoll, hdeadline]
        rw [hpoll]
        exact ⟨by rwa [leaf_cells], rfl, fun _ => rfl, nofun, 0, woken_zero _, Nat.le_refl _, nofun⟩
      · have hpos : 0 < dur := Nat.pos_of_ne_zero hdur
        have hpoll : sleepPoll id dur false deadline waker t m =
            ((false, .sleep dur true (m.clock + dur) t),
              { m with pending := reactorInsert ⟨id, m.clock + dur, t⟩ m.pending,
                       fired := Function.update m.fired id false }) := by
          simp [sleepPoll, hdeadline, hdur]
        rw [hpoll]
        refine ⟨?_, rfl, nofun, fun _ => ⟨fun _ => rfl, rfl⟩, 0, woken_zero _, ?_,
          fun _ _ => leaf_waits (Nat.lt_add_of_pos_right hpos)⟩
        · rw [leaf_cells]
          exact h.arm hpos
        · simp [workOf, Fut.cells, work, hpos]

/-- One poll of any leaf. -/
theorem leaf_polled {t : TaskId} {R : Multiset Cell} {id : Nat} {l : RtLeaf} {m : Reactor}
    (hok : (Fut.leaf id l : RtFut).Ok t) (h : Good ((id, l) ::ₘ R) m) :
    Polled t R (.leaf id l) m ((rtLeafPoll id l t m).1.1, .leaf id (rtLeafPoll id l t m).1.2)
      (rtLeafPoll id l t m).2 := by
  cases l with
  | ready =>
      exact ⟨by rwa [leaf_cells], rfl, fun _ => rfl, nofun, 0, woken_zero _, Nat.le_refl _, nofun⟩
  | yieldNow yielded =>
      cases yielded with
      | true =>
          exact ⟨by rwa [leaf_cells], rfl, fun _ => rfl, nofun, 0, woken_zero _, Nat.le_refl _, nofun⟩
      | false =>
          refine ⟨?_, rfl, nofun, fun _ => ⟨trivial, rfl⟩, 1, rfl, Nat.le_refl _, nofun⟩
          rw [leaf_cells]
          refine h.set rfl rfl (Nat.le_refl _) ?_ rfl rfl rfl
          intro i d h
          obtain ⟨dur, waker, hmem⟩ := h
          rcases Multiset.mem_cons.mp hmem with heq | hmem
          · cases heq
          · exact ⟨dur, waker, Multiset.mem_cons_of_mem hmem⟩
  | sleep dur armed deadline waker => exact sleep_polled hok h

/-- A poll after other work on a part of the same tree. -/
theorem Polled.trans {t : TaskId} {R : Multiset Cell} {f f' : RtFut} {m m' m'' : Reactor}
    {r : Bool × RtFut} (h : Polled t R f' m' r m'') (hclock : m'.clock = m.clock)
    (hdue : f'.due m.clock = f.due m.clock)
    (hwoken : ∃ k, m'.woken = m.woken ++ List.replicate k t ∧
      workOf m.clock f'.cells + k ≤ workOf m.clock f.cells) : Polled t R f m r m'' := by
  obtain ⟨k, hk, hwork⟩ := hwoken
  obtain ⟨k', hk', hwork', hwaits⟩ := h.woken
  have hready := h.ready
  have hpending := h.pending
  rw [hclock] at hready hpending hwork' hwaits
  refine ⟨h.good, h.clock.trans hclock, fun hst => (hdue ▸ hready hst), ?_, k + k', ?_, ?_, ?_⟩
  · intro hst
    exact ⟨(hpending hst).1, (hpending hst).2.trans hdue⟩
  · rw [hk', hk, List.append_assoc, List.replicate_append_replicate]
  · omega
  · exact fun hst hzero => hwaits hst (by omega)

section Combinators

variable {poll : Poller RtLeaf Unit Empty Reactor} {t : TaskId} {id : Nat} {out : Option Nat}
  {R : Multiset Cell} {w : World Reactor}

/-- Functions for `map` do not touch the reactor. -/
theorem applyFn_reactor (st : Bool) (fn : Option Unit) :
    Eff.wp (applyFn rtEnv st fn out) (fun _ w' => w'.mem = w.mem) (fun _ => False) w := by
  unfold applyFn
  split <;> rfl

/-- A `map` is due when its child is. -/
theorem mapPoll_sleeps (hp : Sleeps poll) {inner : RtFut} {fn : Option Unit} (hok : inner.Ok t)
    (h : Good (inner.cells + R) w.mem) :
    Eff.wp (mapPoll rtEnv poll id inner fn t out)
      (fun r w' => Polled t R (.map id inner fn) w.mem r w'.mem) (fun _ => True) w := by
  apply Eff.wp_seq (hp t inner out R w hok h)
  rintro ⟨st, inner'⟩ w' h'
  apply Eff.wp_seq_total (applyFn_reactor st fn)
  intro _ w'' hmem
  show Polled t R _ _ _ w''.mem
  rw [hmem]
  exact ⟨h'.good, h'.clock, h'.ready, h'.pending, h'.woken⟩

theorem thenPoll_second_sleeps (hp : Sleeps poll) {a b : RtFut} {stage : Nat} (hstage : stage ≠ 0)
    (hok : b.Ok t) (h : Good (b.cells + R) w.mem) :
    Eff.wp (do
      let (st, b) ← poll b t out
      return (st, Fut.then_ id a b stage))
      (fun r w' => Polled t R (.then_ id a b stage) w.mem r w'.mem) (fun _ => True) w := by
  apply Eff.wp_seq (hp t b out R w hok h)
  rintro ⟨st, b'⟩ w' h'
  have hcells : ∀ b : RtFut, (Fut.then_ id a b stage).cells = b.cells := fun b => by
    simp [Fut.cells, owned, hstage]
  have hdue : ∀ (b : RtFut) now, (Fut.then_ id a b stage).due now = b.due now := fun b now => by
    simp [Fut.due, hstage]
  obtain ⟨k, hk, hwork, hwaits⟩ := h'.woken
  refine ⟨by rw [hcells]; exact h'.good, h'.clock, by rw [hdue]; exact h'.ready, ?_, k, hk, ?_, ?_⟩
  · intro hst
    obtain ⟨hok', hdue'⟩ := h'.pending hst
    exact ⟨by simpa [Fut.Ok, hstage] using hok', by rw [hdue, hdue]; exact hdue'⟩
  · rw [hcells, hcells]
    exact hwork
  · intro hst hzero
    obtain ⟨hsettled, hlate⟩ := hwaits hst hzero
    exact ⟨by simpa [Fut.Settled, hstage] using hsettled, by rwa [hcells]⟩

/-- A `then` goes on with its second child in the poll that completes the first. -/
theorem thenPoll_sleeps (hp : Sleeps poll) {a b : RtFut} {stage : Nat}
    (hok : (Fut.then_ id a b stage).Ok t) (h : Good ((Fut.then_ id a b stage).cells + R) w.mem) :
    Eff.wp (thenPoll rtEnv poll id a b stage t out)
      (fun r w' => Polled t R (.then_ id a b stage) w.mem r w'.mem) (fun _ => True) w := by
  unfold thenPoll
  by_cases hstage : stage = 0
  · subst hstage
    obtain ⟨hoka, hfresh⟩ := hok
    rw [if_pos rfl]
    have h : Good (a.cells + (b.cells + R)) w.mem := by
      rw [← add_assoc]
      exact h
    apply Eff.wp_seq (hp t a none _ w hoka h)
    rintro ⟨st, a'⟩ w' h'
    cases st with
    | false =>
        obtain ⟨hoka', hdue⟩ := h'.pending rfl
        obtain ⟨k, hk, hwork, hwaits⟩ := h'.woken
        -- the second future has not started: no timer of it is armed
        refine ⟨?_, h'.clock, nofun, fun _ => ⟨⟨hoka', hfresh⟩, ?_⟩, k, hk, ?_, ?_⟩
        · show Good (a'.cells + b.cells + R) w'.mem
          rw [add_assoc]
          exact h'.good
        · show b.due (a'.due w.mem.clock) = b.due (a.due w.mem.clock)
          rw [hdue]
        · show workOf _ (a'.cells + b.cells) + k ≤ workOf _ (a.cells + b.cells)
          rw [workOf_add, workOf_add]
          have hwork : workOf _ a'.cells + k ≤ workOf _ a.cells := hwork
          omega
        · intro hst hzero
          obtain ⟨hsettled, hlate⟩ := hwaits hst hzero
          refine ⟨hsettled, fun i d hi => ?_⟩
          rcases armedAt_add.mp hi with hi | hi
          · exact hlate i d hi
          · exact absurd hi (hfresh.not_armed i d)
    | true =>
        -- the second future starts now, at the instant that the first one was due
        have hready : a.due w.mem.clock = w.mem.clock := h'.ready rfl
        obtain ⟨k, hk, hwork, -⟩ := h'.woken
        apply Eff.wp_seq_total (futureDrop_gone a' h'.good)
        intro _ w'' h
        obtain ⟨hgood, hclock, hwoken⟩ := h
        refine Eff.wp_mono (thenPoll_second_sleeps hp Nat.one_ne_zero (hfresh.ok t) hgood)
          (fun r w₃ h₃ => ?_) fun _ h => h
        refine h₃.trans (hclock.trans h'.clock) ?_ ⟨k, hwoken.trans hk, ?_⟩
        · show b.due w.mem.clock = b.due (a.due w.mem.clock)
          rw [hready]
        · show workOf _ (0 + b.cells) + k ≤ workOf _ (a.cells + b.cells)
          rw [zero_add, workOf_add]
          omega
  · rw [if_neg hstage]
    refine thenPoll_second_sleeps hp hstage ?_ ?_
    · simpa [Fut.Ok, hstage] using hok
    · simpa [Fut.cells, owned, hstage] using h

/-- What an arm of `join_poll` makes of a child, `r`, and the reactor. -/
structure ArmPolled (t : TaskId) (R : Multiset Cell) (done : Bool) (child : RtFut) (m : Reactor)
    (r : Bool × RtFut) (m' : Reactor) : Prop where
  good  : Good (owned (!r.1) r.2.cells + R) m'
  clock : m'.clock = m.clock
  due   : (if r.1 then m.clock else r.2.due m.clock) = if done then m.clock else child.due m.clock
  ok    : r.1 = false → r.2.Ok t
  woken : ∃ k, m'.woken = m.woken ++ List.replicate k t ∧
    workOf m.clock (owned (!r.1) r.2.cells) + k ≤ workOf m.clock (owned (!done) child.cells) ∧
      (r.1 = false → k = 0 → r.2.Waits m.clock)

theorem joinArm_sleeps (hp : Sleeps poll) {child : RtFut} {done : Bool}
    (hok : done = false → child.Ok t) (h : Good (owned (!done) child.cells + R) w.mem) :
    Eff.wp (joinArm rtEnv poll child done t out)
      (fun r w' => ArmPolled t R done child w.mem r w'.mem) (fun _ => True) w := by
  unfold joinArm
  cases done with
  | true => exact ⟨h, rfl, rfl, nofun, 0, woken_zero _, Nat.le_refl _, nofun⟩
  | false =>
      apply Eff.wp_seq (hp t child out R w (hok rfl) h)
      rintro ⟨st, child'⟩ w' h'
      obtain ⟨k, hk, hwork, hwaits⟩ := h'.woken
      cases st with
      | false =>
          obtain ⟨hok', hdue⟩ := h'.pending rfl
          exact ⟨h'.good, h'.clock, hdue, fun _ => hok', k, hk, hwork, hwaits⟩
      | true =>
          apply Eff.wp_seq_total (futureDrop_gone child' h'.good)
          intro _ w'' h
          obtain ⟨hgood, hclock, hwoken⟩ := h
          refine ⟨by simpa [owned] using hgood, hclock.trans h'.clock, (h'.ready rfl).symm, nofun, k,
            hwoken.trans hk, ?_, nofun⟩
          show workOf _ 0 + k ≤ workOf _ child.cells
          rw [workOf_zero]
          exact Nat.le_trans (Nat.add_le_add_right (Nat.zero_le _) k) hwork

/-- A `join2` is due when the later one of its children is. -/
theorem joinPoll_sleeps (hp : Sleeps poll) {a b : RtFut} {aSize : Nat} {aDone bDone : Bool}
    (hok : (Fut.join2 id a b aSize aDone bDone).Ok t)
    (h : Good ((Fut.join2 id a b aSize aDone bDone).cells + R) w.mem) :
    Eff.wp (joinPoll rtEnv poll id a b aSize aDone bDone t out)
      (fun r w' => Polled t R (.join2 id a b aSize aDone bDone) w.mem r w'.mem) (fun _ => True)
      w := by
  rw [Fut.cells, add_assoc] at h
  apply Eff.wp_seq (joinArm_sleeps hp hok.1 h)
  rintro ⟨aDone', a'⟩ w' ha
  have h' := ha.good
  rw [add_left_comm] at h'
  apply Eff.wp_seq (joinArm_sleeps hp hok.2 h')
  rintro ⟨bDone', b'⟩ w'' hb
  have hbdue := hb.due
  rw [ha.clock] at hbdue
  have hadue := ha.due
  obtain ⟨ka, hka, hworka, hwaitsa⟩ := ha.woken
  obtain ⟨kb, hkb, hworkb, hwaitsb⟩ := hb.woken
  rw [ha.clock] at hworkb hwaitsb
  -- the later of the two instants counts
  constructor
  case good =>
    have hgood := hb.good
    rw [add_left_comm, ← add_assoc] at hgood
    exact hgood
  case clock => exact hb.clock.trans ha.clock
  case ready =>
    intro hst
    obtain ⟨hat, hbt⟩ : aDone' = true ∧ bDone' = true := by simpa using hst
    subst hat hbt
    show max _ _ = _
    rw [← hadue, ← hbdue]
    exact Nat.max_self _
  case pending =>
    refine fun _ => ⟨⟨ha.ok, hb.ok⟩, ?_⟩
    show max _ _ = max _ _
    rw [← hadue, ← hbdue]
  case woken =>
    refine ⟨ka + kb, ?_, ?_, ?_⟩
    · rw [hkb, hka, List.append_assoc, List.replicate_append_replicate]
    · show workOf _ (owned (!aDone') a'.cells + owned (!bDone') b'.cells) + (ka + kb) ≤
        workOf _ (owned (!aDone) a.cells + owned (!bDone) b.cells)
      rw [workOf_add, workOf_add]
      have hworka : workOf _ (owned (!aDone') a'.cells) + ka ≤ _ := hworka
      have hworkb : workOf _ (owned (!bDone') b'.cells) + kb ≤ _ := hworkb
      omega
    · intro hst hzero
      have hwa : aDone' = false → a'.Waits w.mem.clock := fun hat => hwaitsa hat (by omega)
      have hwb : bDone' = false → b'.Waits w.mem.clock := fun hbt => hwaitsb hbt (by omega)
      refine ⟨⟨fun hat => (hwa hat).1, fun hbt => (hwb hbt).1, hst⟩, fun i d hi => ?_⟩
      rcases armedAt_add.mp hi with hi | hi
      · obtain ⟨hat, hi⟩ := armedAt_owned hi
        exact (hwa (by simpa using hat)).2 i d hi
      · obtain ⟨hbt, hi⟩ := armedAt_owned hi
        exact (hwb (by simpa using hbt)).2 i d hi

/-- A tree in front of others is not ready early. -/
theorem Good.le_due {C : Multiset Cell} {m : Reactor} {f : RtFut} (h : Good (f.cells + C) m)
    (hok : f.Ok t) : m.clock ≤ f.due m.clock :=
  hok.le_due fun i d hi => (h.armed i d (armedAt_add.mpr (.inl hi))).1

/-- A `select2` is due when the earlier one of its children is. -/
theorem selectPoll_sleeps (hp : Sleeps poll) {a b : RtFut} (hok : (Fut.select2 id a b).Ok t)
    (h : Good ((Fut.select2 id a b).cells + R) w.mem) :
    Eff.wp (selectPoll poll id a b t out)
      (fun r w' => Polled t R (.select2 id a b) w.mem r w'.mem) (fun _ => True) w := by
  obtain ⟨hoka, hokb⟩ := hok
  rw [Fut.cells, add_assoc] at h
  have hb : w.mem.clock ≤ b.due w.mem.clock := by
    rw [add_left_comm] at h
    exact h.le_due hokb
  apply Eff.wp_seq (hp t a out _ w hoka h)
  rintro ⟨st, a'⟩ w' ha
  obtain ⟨ka, hka, hworka, hwaitsa⟩ := ha.woken
  have hworka : workOf w.mem.clock a'.cells + ka ≤ workOf w.mem.clock a.cells := hworka
  cases st with
  | true =>
      -- the second arm was not polled, and is not due earlier than now
      refine ⟨?_, ha.clock, fun _ => ?_, nofun, ka, hka, ?_, nofun⟩
      · show Good (a'.cells + b.cells + R) w'.mem
        rw [add_assoc]
        exact ha.good
      · show min _ _ = _
        rw [ha.ready rfl]
        exact Nat.min_eq_left hb
      · show workOf _ (a'.cells + b.cells) + ka ≤ workOf _ (a.cells + b.cells)
        rw [workOf_add, workOf_add]
        omega
  | false =>
      obtain ⟨hoka', hadue⟩ := ha.pending rfl
      have ha' := ha.good.le_due hoka'
      have h' := ha.good
      rw [add_left_comm] at h'
      apply Eff.wp_seq (hp t b out _ w' hokb h')
      rintro ⟨st, b'⟩ w'' hb'
      obtain ⟨kb, hkb, hworkb, hwaitsb⟩ := hb'.woken
      -- both arms are polled at one time
      have hready := hb'.ready
      have hpending := hb'.pending
      rw [ha.clock] at hworkb hready hpending hwaitsb
      have hadue : a'.due w.mem.clock = a.due w.mem.clock := hadue
      constructor
      case good =>
        have hgood := hb'.good
        rw [add_left_comm, ← add_assoc] at hgood
        exact hgood
      case clock => exact hb'.clock.trans ha.clock
      case ready =>
        intro hst
        show min _ _ = _
        rw [hready hst, ← hadue]
        exact Nat.min_eq_right (by rwa [ha.clock] at ha')
      case pending =>
        intro hst
        obtain ⟨hokb', hbdue⟩ := hpending hst
        refine ⟨⟨hoka', hokb'⟩, ?_⟩
        show min _ _ = min _ _
        rw [hadue, ← hbdue]
      case woken =>
        refine ⟨ka + kb, ?_, ?_, ?_⟩
        · rw [hkb, hka, List.append_assoc, List.replicate_append_replicate]
        · show workOf _ (a'.cells + b'.cells) + (ka + kb) ≤ workOf _ (a.cells + b.cells)
          rw [workOf_add, workOf_add]
          have hworkb : workOf _ b'.cells + kb ≤ _ := hworkb
          omega
        · intro hst hzero
          have hwa : a'.Waits w.mem.clock := hwaitsa rfl (by omega)
          have hwb : b'.Waits w.mem.clock := hwaitsb hst (by omega)
          refine ⟨⟨hwa.1, hwb.1⟩, fun i d hi => ?_⟩
          rcases armedAt_add.mp hi with hi | hi
          · exact hwa.2 i d hi
          · exact hwb.2 i d hi

theorem nodePoll_sleeps (hp : Sleeps poll) (n : Nat) : Sleeps (nodePoll rtEnv poll n) := by
  intro t f out R w hok h
  cases f with
  | null => exact hok.elim
  | leaf id l =>
      rw [leaf_cells] at h
      exact leaf_polled hok h
  | map id inner fn => exact mapPoll_sleeps hp hok h
  | then_ id a b stage => exact thenPoll_sleeps hp hok h
  | join2 id a b aSize aDone bDone => exact joinPoll_sleeps hp hok h
  | select2 id a b => exact selectPoll_sleeps hp hok h
  | sm => exact hok.elim

end Combinators

/-- **Polls keep the instant**: a tree is `Ready` at its instant, and before it a poll leaves the instant
    as it was, with the task woken or everything waiting. -/
theorem futurePoll_sleeps (n : Nat) : Sleeps (futurePoll rtEnv n) := by
  induction n with
  | zero => exact fun t f out R w hok h => trivial
  | succ n ih =>
      intro t f out R w hok h
      unfold futurePoll
      split
      · trivial
      · rw [Eff.wp_bind, wp_note]
        refine Eff.wp_seq (nodePoll_sleeps ih n t f out R _ hok h) ?_
        rintro ⟨st, f'⟩ w' h'
        cases st <;> exact h'

end CustLib.Exec
