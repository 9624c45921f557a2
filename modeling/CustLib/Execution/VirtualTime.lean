import Mathlib.Algebra.Order.BigOperators.Group.Multiset
import Mathlib.Data.List.MinMax
import CustLib.Execution.Parking
import CustLib.Execution.Turns

/-!
# Virtual time

A runtime on a fake clock completes every plan at the instant that the plan denotes, whatever other
tasks run beside it (`virtual_time`).

`Between` is the invariant of `executor_drive` between two polls. Every task that is not runnable waits
for a timer, so when the queue is empty the park hook moves the clock to the earliest deadline, and no
further: nothing is missed. Each poll and each parking uses up some of what the tasks can still do
(`left`), so the loop ends.
-/

namespace CustLib.Exec

open CustLib.Fifo (enqueue)

/-! ## The cells of all tasks

The reactor knows boxes, and the trees know which of them are theirs. The cells of all live tasks are
the link between the two, and a poll changes those of one task only.
-/

def allCells (futs : TaskId → RtFut) (live : List TaskId) : Multiset Cell :=
  (live : Multiset TaskId).bind fun t => (futs t).cells

theorem armedAt_all {futs : TaskId → RtFut} {live : List TaskId} {id deadline : Nat} :
    ArmedAt (allCells futs live) id deadline ↔ ∃ t ∈ live, ArmedAt (futs t).cells id deadline := by
  constructor
  · intro h
    obtain ⟨dur, waker, hc⟩ := h
    obtain ⟨t, ht, hc⟩ := Multiset.mem_bind.mp hc
    exact ⟨t, ht, dur, waker, hc⟩
  · intro h
    obtain ⟨t, ht, dur, waker, hc⟩ := h
    exact ⟨dur, waker, Multiset.mem_bind.mpr ⟨t, ht, hc⟩⟩

/-- One task and the others. -/
theorem allCells_erase {futs : TaskId → RtFut} {live : List TaskId} {t : TaskId} (ht : t ∈ live) :
    (futs t).cells + allCells futs (live.erase t) = allCells futs live :=
  bind_erase (fun t => (futs t).cells) ht

theorem allCells_update {futs : TaskId → RtFut} {live : List TaskId} {t : TaskId} (ht : t ∉ live)
    (f : RtFut) : allCells (Function.update futs t f) live = allCells futs live :=
  bind_update (fun _ f => f.cells) ht f

/-- The tree of one task has changed. -/
theorem allCells_set {futs : TaskId → RtFut} {live : List TaskId} {t : TaskId} (hnodup : live.Nodup)
    (ht : t ∈ live) (f : RtFut) :
    allCells (Function.update futs t f) live = f.cells + allCells futs (live.erase t) :=
  bind_set (fun _ f => f.cells) hnodup ht f

/-- The timers of a task's tree wake this task. -/
theorem Fut.Ok.waker_eq {t : TaskId} {f : RtFut} (h : f.Ok t) {id dur deadline : Nat}
    {waker : TaskId} (hc : (id, RtLeaf.sleep dur true deadline waker) ∈ f.cells) : waker = t := by
  have howned : ∀ {c : Bool} {C : Multiset Cell} {x : Cell}, x ∈ owned c C → c = true ∧ x ∈ C := by
    intro c C x hx
    cases c with
    | true => exact ⟨rfl, hx⟩
    | false => exact absurd hx (Multiset.notMem_zero _)
  induction f with
  | null => exact h.elim
  | leaf i l =>
      cases Multiset.mem_singleton.mp hc
      exact h rfl
  | map i inner fn ih => exact ih h hc
  | then_ i a b stage iha ihb =>
      by_cases hstage : stage = 0
      · subst hstage
        rcases Multiset.mem_add.mp hc with hc | hc
        · exact iha h.1 hc
        · exact absurd ⟨dur, waker, hc⟩ (h.2.not_armed id deadline)
      · simp only [Fut.Ok, Fut.cells, owned, hstage, if_false, decide_false, Bool.false_eq_true,
          zero_add] at h hc
        exact ihb h hc
  | join2 i a b aSize aDone bDone iha ihb =>
      rcases Multiset.mem_add.mp hc with hc | hc
      · obtain ⟨hdone, hc⟩ := howned hc
        exact iha (h.1 (by simpa using hdone)) hc
      · obtain ⟨hdone, hc⟩ := howned hc
        exact ihb (h.2 (by simpa using hdone)) hc
  | select2 i a b iha ihb =>
      rcases Multiset.mem_add.mp hc with hc | hc
      · exact iha h.1 hc
      · exact ihb h.2 hc
  | sm => exact h.elim

/-! ## Between two polls

The invariant of the run. Each live task is to be ready at a fixed instant; it is in the queue, or it
waits for a timer that is pending. A poll either completes its task, at exactly its instant, or leaves
it waiting.
-/

structure Between (start n : Nat) (finish : TaskId → Nat) (rt : Runtime) (queue live : List TaskId) :
    Prop where
  stands    : Stands rt.sys (.drive .run) queue live n
  runnable  : ∀ t ∈ queue, t ∈ live
  good      : Good (allCells rt.futs live) rt.world.mem
  plain     : ∀ t ∈ live, (rt.futs t).Plain
  ok        : ∀ t ∈ live, (rt.futs t).Ok t
  due       : ∀ t ∈ live, (rt.futs t).due rt.world.mem.clock = finish t
  waits     : ∀ t ∈ live, t ∉ queue → (rt.futs t).Waits rt.world.mem.clock
  completed : ∃ done : List TaskId, rt.completed = done.map (fun t => (t, finish t)) ∧
    (done ++ live).Perm (List.range n) ∧ ∀ t ∈ done, finish t ≤ rt.world.mem.clock
  started   : start ≤ rt.world.mem.clock
  reached   : rt.world.mem.clock = start ∨ ∃ t < n, rt.world.mem.clock ≤ finish t

/-- How much the tasks can still do. -/
def left (rt : Runtime) (queue live : List TaskId) : Nat :=
  2 * workOf rt.world.mem.clock (allCells rt.futs live) + queue.length

variable {start n : Nat} {finish : TaskId → Nat} {rt : Runtime} {queue live : List TaskId}
  {t : TaskId} {s : Sys} {f : RtFut} {w : World Reactor} {k : Nat}

/-- A poll of a pending tree returns. -/
theorem poll_spec {R : Multiset Cell} (out : Option Nat) (hplain : f.Plain) (hok : f.Ok t)
    (h : Good (f.cells + R) w.mem) :
    ∃ st f' w', f.poll rtEnv t out w = (some (st, f'), w') ∧ f'.Plain ∧
      Polled t R f w.mem (st, f') w'.mem := by
  have htotal := futurePoll_total rtEnv f.height f t out w ⟨hplain, Nat.le_refl _⟩
  have hsleeps := futurePoll_sleeps f.height t f out R w hok h
  have hboth := Eff.wp_mono (Eff.wp_and htotal hsleeps) (fun _ _ h => h) fun _ h => h.1
  obtain ⟨⟨st, f'⟩, w', hrun, hfits, hpolled⟩ := Eff.wp_total hboth
  exact ⟨st, f', w', hrun, hfits.1, hpolled⟩

theorem mem_woken {u : TaskId} :
    u ∈ (List.replicate k t).foldl enqueue queue ↔ u ∈ queue ∨ (u = t ∧ k ≠ 0) := by
  rw [mem_foldl_enqueue, List.mem_replicate, and_comm (a := u = t)]

/-- The polled task was pending, and is in the queue again if it has woken itself. -/
theorem Between.pend (h : Between start n finish rt (t :: queue) live)
    (hstands : Stands s (.drive .run) ((List.replicate k t).foldl enqueue queue) live n)
    (hplain : f.Plain) (hok : f.Ok t) (hdue : f.due rt.world.mem.clock = finish t)
    (hgood : Good (f.cells + allCells rt.futs (live.erase t)) w.mem)
    (hclock : w.mem.clock = rt.world.mem.clock) (hwaits : k = 0 → f.Waits rt.world.mem.clock) :
    Between start n finish ⟨s, Function.update rt.futs t f, w, rt.completed⟩
      ((List.replicate k t).foldl enqueue queue) live := by
  have ht : t ∈ live := h.runnable t List.mem_cons_self
  -- what holds of all trees is kept, if it holds of the new one
  have hset : ∀ {P : TaskId → RtFut → Prop}, P t f → (∀ u ∈ live, u ≠ t → P u (rt.futs u)) →
      ∀ u ∈ live, P u (Function.update rt.futs t f u) := by
    intro P hself hother u hu
    by_cases heq : u = t
    · rw [heq, Function.update_self]
      exact hself
    · rw [Function.update_of_ne heq]
      exact hother u hu heq
  constructor
  case stands => exact hstands
  case runnable =>
    intro u hu
    rcases mem_woken.mp hu with hu | ⟨rfl, -⟩
    · exact h.runnable u (List.mem_cons_of_mem t hu)
    · exact ht
  case good =>
    show Good (allCells (Function.update rt.futs t f) live) w.mem
    rwa [allCells_set h.stands.live_nodup ht]
  case plain => exact hset hplain fun u hu _ => h.plain u hu
  case ok => exact hset hok fun u hu _ => h.ok u hu
  case due =>
    rw [hclock]
    exact hset (P := fun u f => f.due rt.world.mem.clock = finish u) hdue fun u hu _ => h.due u hu
  case waits =>
    rw [hclock]
    refine hset (P := fun u f => u ∉ _ → f.Waits rt.world.mem.clock) ?_ ?_
    · intro hnot
      -- a task that has not woken itself waits for a timer
      exact hwaits (by simpa [mem_woken] using fun hk => hnot (mem_woken.mpr (.inr ⟨rfl, hk⟩)))
    · intro u hu hne hnot
      refine h.waits u hu fun hmem => hnot (mem_woken.mpr (.inl ?_))
      exact (List.mem_cons.mp hmem).resolve_left hne
  case completed =>
    rw [hclock]
    exact h.completed
  case started =>
    rw [hclock]
    exact h.started
  case reached =>
    rw [hclock]
    exact h.reached

/-- The polled task was ready, and is gone. -/
theorem Between.complete (h : Between start n finish rt (t :: queue) live)
    (hstands : Stands s (.drive .run) (((List.replicate k t).foldl enqueue queue).erase t)
      (live.erase t) n)
    (hgood : Good (allCells rt.futs (live.erase t)) w.mem)
    (hclock : w.mem.clock = rt.world.mem.clock) (hready : rt.world.mem.clock = finish t) :
    Between start n finish
      ⟨s, Function.update rt.futs t f, w, rt.completed ++ [(t, rt.world.mem.clock)]⟩
      (((List.replicate k t).foldl enqueue queue).erase t) (live.erase t) := by
  have ht : t ∈ live := h.runnable t List.mem_cons_self
  have hnodup := h.stands.live_nodup
  -- the trees of the other tasks are as they were
  have hold : ∀ {P : TaskId → RtFut → Prop}, (∀ u ∈ live, u ≠ t → P u (rt.futs u)) →
      ∀ u ∈ live.erase t, P u (Function.update rt.futs t f u) := by
    intro P hother u hu
    obtain ⟨hne, hu⟩ := hnodup.mem_erase_iff.mp hu
    rw [Function.update_of_ne hne]
    exact hother u hu hne
  constructor
  case stands => exact hstands
  case runnable =>
    intro u hu
    have hqueue := nodup_foldl_enqueue (List.replicate k t) h.stands.queue_nodup.of_cons
    obtain ⟨hne, hu⟩ := hqueue.mem_erase_iff.mp hu
    rcases mem_woken.mp hu with hu | ⟨rfl, -⟩
    · exact hnodup.mem_erase_iff.mpr ⟨hne, h.runnable u (List.mem_cons_of_mem t hu)⟩
    · exact absurd rfl hne
  case good =>
    show Good (allCells (Function.update rt.futs t f) (live.erase t)) w.mem
    rwa [allCells_update hnodup.not_mem_erase]
  case plain => exact hold fun u hu _ => h.plain u hu
  case ok => exact hold fun u hu _ => h.ok u hu
  case due =>
    rw [hclock]
    exact hold (P := fun u f => f.due rt.world.mem.clock = finish u) fun u hu _ => h.due u hu
  case waits =>
    rw [hclock]
    apply hold (P := fun u f => u ∉ _ → f.Waits rt.world.mem.clock)
    intro u hu hne hnot
    refine h.waits u hu fun hmem => hnot ?_
    rw [List.mem_erase_of_ne hne, mem_woken]
    exact .inl ((List.mem_cons.mp hmem).resolve_left hne)
  case completed =>
    -- `t` goes from the live tasks to the ones that are done
    obtain ⟨done, hdone, hperm, hpast⟩ := h.completed
    rw [hclock]
    refine ⟨done ++ [t], by simp [hdone, hready], ?_, ?_⟩
    · have hsplit := (List.perm_cons_erase ht).symm.append_left done
      simpa using hsplit.trans hperm
    · intro u hu
      rcases List.mem_append.mp hu with hu | hu
      · exact hpast u hu
      · rw [List.mem_singleton.mp hu, ← hready]
  case started =>
    rw [hclock]
    exact h.started
  case reached =>
    rw [hclock]
    exact h.reached

/-- The turn of the executor between two polls. -/
theorem turn_drive {c : Caller} {s' : Sys} (hpc : rt.sys.pc = .drive c)
    (hs : step rt.sys .drive = some s') : rt.turn = some { rt with sys := s' } := by
  simp [Runtime.turn, hpc, hs]

/-- The turn in which a task is polled. -/
theorem turn_polling {c : Caller} {s' : Sys} {st : Bool} (hpc : rt.sys.pc = .polling c t)
    (hpoll : (rt.futs t).poll rtEnv t ((rt.sys.ex.tasks t).bind Task.out)
      { rt.world with mem := { rt.world.mem with woken := [] } } = (some (st, f), w))
    (hs : Machine.run step rt.sys
      (w.mem.woken.map .wake ++ [if st then .answerReady else .answerPending]) = some s') :
    rt.turn = some ⟨s', Function.update rt.futs t f, w,
      rt.completed ++ if st then [(t, w.mem.clock)] else []⟩ := by
  simp [Runtime.turn, hpc, hpoll, hs]

/-- The turn in which a completed future is dropped. -/
theorem turn_dropping {c : Caller} {s' : Sys} (hpc : rt.sys.pc = .dropping c t)
    (hdrop : futureDrop rtEnv (rt.futs t) rt.world = (some (), w))
    (hs : step rt.sys .dropped = some s') : rt.turn = some { rt with sys := s', world := w } := by
  simp [Runtime.turn, hpc, hdrop, hs]

/-- The turn in which the reactor parks. -/
theorem turn_parked {c : Caller} {s' : Sys} {progress : Bool} {m : Reactor} {woken : List TaskId}
    (hpc : rt.sys.pc = .parked c) (hpark : reactorPark rt.world.mem = (progress, m, woken))
    (hs : Machine.run step rt.sys (woken.map .wake ++ [.parkReturns progress]) = some s') :
    rt.turn = some { rt with sys := s', world := { rt.world with mem := m } } := by
  simp [Runtime.turn, hpc, hpark, hs]

/-- A poll keeps the invariant, and uses something up. -/
theorem Between.poll (h : Between start n finish rt (t :: queue) live) :
    ∃ rt' queue' live', Drives rt rt' ∧ Between start n finish rt' queue' live' ∧
      left rt' queue' live' < left rt (t :: queue) live := by
  have ht : t ∈ live := h.runnable t List.mem_cons_self
  have hpc := h.stands.pc_eq
  obtain ⟨s₁, hs₁, hstands₁⟩ := h.stands.poll ht
  have hpc₁ := hstands₁.pc_eq
  have hturn₁ := turn_drive hpc hs₁
  -- the tree of the task, in front of the others
  have hgood := h.good
  rw [← allCells_erase ht] at hgood
  have hgood₀ : Good ((rt.futs t).cells + allCells rt.futs (live.erase t))
      { rt.world.mem with woken := [] } :=
    ⟨hgood.sorted, hgood.pending, hgood.armed, hgood.nodup, hgood.room⟩
  obtain ⟨st, f, w, hpoll, hplain, hpolled⟩ := poll_spec
    (w := { rt.world with mem := { rt.world.mem with woken := [] } })
    ((s₁.ex.tasks t).bind Task.out) (h.plain t ht) (h.ok t ht) hgood₀
  obtain ⟨k, hk, hwork, hwaits⟩ := hpolled.woken
  have hk : w.mem.woken = List.replicate k t := hk
  have hclock : w.mem.clock = rt.world.mem.clock := hpolled.clock
  have hwork : workOf rt.world.mem.clock f.cells + k ≤
      workOf rt.world.mem.clock (rt.futs t).cells := hwork
  have hlength := length_foldl_enqueue (List.replicate k t) queue
  rw [List.length_replicate] at hlength
  have hwoken : ∀ u ∈ w.mem.woken, u ∈ live := by
    rw [hk]
    exact fun u hu => List.eq_of_mem_replicate hu ▸ ht
  cases st with
  | false =>
      obtain ⟨hok, hdue⟩ := hpolled.pending rfl
      obtain ⟨s₂, hs₂, hstands₂⟩ := hstands₁.wakes rfl hwoken fun s' h' => h'.pended
      rw [hk] at hstands₂
      have hturn₂ : Runtime.turn { rt with sys := s₁ } = _ := turn_polling hpc₁ hpoll hs₂
      rw [if_neg Bool.false_ne_true, List.append_nil] at hturn₂
      refine ⟨_, _, _, .turn (by simp [hpc]) hturn₁ (.turn (by simp [hpc₁]) hturn₂ (.refl _)),
        h.pend hstands₂ hplain hok (hdue.trans (h.due t ht)) hpolled.good hclock
          (hwaits rfl), ?_⟩
      show 2 * workOf w.mem.clock (allCells (Function.update rt.futs t f) live) + _ <
        2 * workOf _ (allCells rt.futs live) + _
      rw [hclock, allCells_set h.stands.live_nodup ht, ← allCells_erase ht, workOf_add, workOf_add,
        List.length_cons]
      omega
  | true =>
      obtain ⟨s₂, hs₂, hstands₂⟩ := hstands₁.wakes rfl hwoken fun s' h' => h'.ready
      obtain ⟨s₃, hs₃, hstands₃⟩ := hstands₂.dropped ht
      rw [hk] at hstands₃
      have hpc₂ := hstands₂.pc_eq
      have hturn₂ : Runtime.turn { rt with sys := s₁ } = _ := turn_polling hpc₁ hpoll hs₂
      rw [if_pos rfl] at hturn₂
      obtain ⟨_, w', hdrop, hgood', hclock', -⟩ := Eff.wp_total (futureDrop_gone f hpolled.good)
      rw [← Function.update_self t f rt.futs] at hdrop
      have hturn₃ : Runtime.turn
          ⟨s₂, Function.update rt.futs t f, w, rt.completed ++ [(t, w.mem.clock)]⟩ = _ :=
        turn_dropping hpc₂ hdrop hs₃
      have hready : rt.world.mem.clock = finish t := (hpolled.ready rfl).symm.trans (h.due t ht)
      have hbetween := h.complete (f := f) hstands₃ hgood' (hclock'.trans hclock) hready
      rw [← hclock] at hbetween
      refine ⟨_, _, _, .turn (by simp [hpc]) hturn₁ (.turn (by simp [hpc₁]) hturn₂
        (.turn (by simp [hpc₂]) hturn₃ (.refl _))), hbetween, ?_⟩
      show 2 * workOf w'.mem.clock (allCells (Function.update rt.futs t f) (live.erase t)) + _ <
        2 * workOf _ (allCells rt.futs live) + _
      have herase := List.length_erase_le (a := t) (l := (List.replicate k t).foldl enqueue queue)
      rw [hclock', hclock, allCells_update h.stands.live_nodup.not_mem_erase, ← allCells_erase ht,
        workOf_add, List.length_cons]
      omega

/-- The clock was moved, and the tasks that waited for this instant are in the queue. -/
theorem Between.unpark {woken : List TaskId} {m' : Reactor}
    (h : Between start n finish rt [] live) (hlive : live ≠ [])
    (hstands : Stands s (.drive .run) (woken.foldl enqueue []) live n)
    (hwoken : ∀ t ∈ woken, t ∈ live) (hp : Parked (allCells rt.futs live) rt.world.mem woken m') :
    Between start n finish { rt with sys := s, world := { rt.world with mem := m' } }
      (woken.foldl enqueue []) live := by
  have hwaits : ∀ t ∈ live, (rt.futs t).Waits rt.world.mem.clock := fun t ht =>
    h.waits t ht List.not_mem_nil
  have hle : ∀ t ∈ live, ∀ id deadline, ArmedAt (rt.futs t).cells id deadline →
      m'.clock ≤ deadline := fun t ht id deadline ha =>
    (hp.good.armed id deadline (armedAt_all.mpr ⟨t, ht, ha⟩)).1
  have hdue : ∀ t ∈ live, (rt.futs t).due m'.clock = finish t := fun t ht =>
    ((hwaits t ht).1.due_eq (h.ok t ht) hp.clock (hle t ht)).trans (h.due t ht)
  constructor
  case stands => exact hstands
  case runnable =>
    intro t ht
    exact hwoken t ((mem_foldl_enqueue.mp ht).resolve_left List.not_mem_nil)
  case good => exact hp.good
  case plain => exact h.plain
  case ok => exact h.ok
  case due => exact hdue
  case waits =>
    intro t ht hnot
    refine ⟨(hwaits t ht).1, ?_⟩
    intro id deadline h
    obtain ⟨dur, waker, hc⟩ := h
    rw [(h.ok t ht).waker_eq hc] at hc
    -- a timer that is due has woken its task
    refine Nat.not_le.mp fun hfired => hnot (mem_foldl_enqueue.mpr (.inr ?_))
    exact (hp.woken t).mpr ⟨id, dur, deadline, Multiset.mem_bind.mpr ⟨t, ht, hc⟩, hfired⟩
  case completed =>
    obtain ⟨done, hdone, hperm, hpast⟩ := h.completed
    exact ⟨done, hdone, hperm, fun t ht => Nat.le_trans (hpast t ht) hp.clock⟩
  case started => exact Nat.le_trans h.started hp.clock
  case reached =>
    obtain ⟨t, ht⟩ := List.exists_mem_of_ne_nil live hlive
    obtain ⟨done, -, hperm, -⟩ := h.completed
    refine .inr ⟨t, List.mem_range.mp (hperm.mem_iff.mp (List.mem_append_right done ht)), ?_⟩
    rw [← hdue t ht]
    exact (h.ok t ht).le_due (hle t ht)

/-- Parking keeps the invariant, and uses something up. -/
theorem Between.park (h : Between start n finish rt [] live) (hlive : live ≠ []) :
    ∃ rt' queue', Drives rt rt' ∧ Between start n finish rt' queue' live ∧
      left rt' queue' live < left rt [] live := by
  have hpc := h.stands.pc_eq
  have hwaits : ∀ t ∈ live, (rt.futs t).Waits rt.world.mem.clock := fun t ht =>
    h.waits t ht List.not_mem_nil
  have hlate : ∀ id deadline, ArmedAt (allCells rt.futs live) id deadline →
      rt.world.mem.clock < deadline := by
    intro id deadline ha
    obtain ⟨t, ht, ha⟩ := armedAt_all.mp ha
    exact (hwaits t ht).2 id deadline ha
  have hsome : ∃ id deadline, ArmedAt (allCells rt.futs live) id deadline := by
    obtain ⟨t, ht⟩ := List.exists_mem_of_ne_nil live hlive
    obtain ⟨id, deadline, ha⟩ := (hwaits t ht).1.armed
    exact ⟨id, deadline, armedAt_all.mpr ⟨t, ht, ha⟩⟩
  -- all tasks wait for timers, so the clock goes on to the earliest one
  obtain ⟨woken, m', hpark, hp⟩ := reactorPark_spec h.good hlate hsome
  have hwoken : ∀ t ∈ woken, t ∈ live := by
    intro t ht
    obtain ⟨id, dur, deadline, hc, -⟩ := (hp.woken t).mp ht
    obtain ⟨u, hu, hc⟩ := Multiset.mem_bind.mp hc
    rwa [(h.ok u hu).waker_eq hc]
  obtain ⟨s₁, hs₁, hstands₁⟩ := h.stands.park hlive
  have hpc₁ := hstands₁.pc_eq
  obtain ⟨s₂, hs₂, hstands₂⟩ := hstands₁.wakes rfl hwoken fun s' h' => h'.resumed
  have hturn₁ := turn_drive hpc hs₁
  have hturn₂ : Runtime.turn { rt with sys := s₁ } = _ := turn_parked hpc₁ hpark hs₂
  refine ⟨_, _, .turn (by simp [hpc]) hturn₁ (.turn (by simp [hpc₁]) hturn₂ (.refl _)),
    h.unpark hlive hstands₂ hwoken hp, ?_⟩
  show 2 * workOf m'.clock (allCells rt.futs live) + _ < 2 * workOf _ (allCells rt.futs live) + _
  have hwork := hp.work
  have hlength := length_foldl_enqueue woken []
  have hpos := List.length_pos_iff.mpr hp.some
  rw [List.length_nil] at hlength ⊢
  omega

/-- The loop drives every task to its end. -/
theorem Between.drives (h : Between start n finish rt queue live) :
    ∃ rt', Drives rt rt' ∧ Between start n finish rt' [] [] := by
  induction hleft : left rt queue live using Nat.strongRecOn generalizing rt queue live with
  | _ k ih =>
      cases queue with
      | cons t queue =>
          obtain ⟨rt', queue', live', hdrives, h', hless⟩ := h.poll
          obtain ⟨rt'', hdrives', h''⟩ := ih _ (hleft ▸ hless) h' rfl
          exact ⟨rt'', hdrives.trans hdrives', h''⟩
      | nil =>
          by_cases hlive : live = []
          · subst hlive
            exact ⟨rt, .refl rt, h⟩
          · obtain ⟨rt', queue', hdrives, h', hless⟩ := h.park hlive
            obtain ⟨rt'', hdrives', h''⟩ := ih _ (hleft ▸ hless) h' rfl
            exact ⟨rt'', hdrives.trans hdrives', h''⟩

/-! ## Spawning

The constructors build the tree of a plan without touching the reactor, so all plans start at the
reading of the clock at which the run begins.
-/

structure Planned (p : Plan) (f : RtFut) : Prop where
  fresh : f.Fresh
  plain : f.Plain
  due   : ∀ now, f.due now = now + p.time
  load  : (f.cells.map load).sum = p.sleeps

/-- No allocation is refused. -/
theorem pairIn_run (box : Nat → RtFut → RtFut → RtFut) (a b : RtFut) (w : World Reactor) :
    pairIn rtEnv box a b w =
      (some (box w.next a b),
        ⟨w.mem, w.next + 1, w.requests + 1, w.log ++ [.born w.next]⟩) := rfl

theorem Planned.load_add {a b : Plan} {fa fb : RtFut} (ha : Planned a fa) (hb : Planned b fb) :
    ((fa.cells + fb.cells).map CustLib.Exec.load).sum = a.sleeps + b.sleeps := by
  rw [Multiset.map_add, Multiset.sum_add, ha.load, hb.load]

/-- The constructors build the tree of the plan, and do not touch the reactor. -/
def Builds (p : Plan) : Prop :=
  ∀ w, Eff.wp (build rtEnv p.expr) (fun f w' => Planned p f ∧ w'.mem = w.mem) (fun _ => False) w

/-- A plan of two plans. -/
theorem pair_builds {a b p : Plan} {box : Nat → RtFut → RtFut → RtFut} (ha : Builds a)
    (hb : Builds b) (hbox : ∀ id fa fb, Planned a fa → Planned b fb → Planned p (box id fa fb))
    (w : World Reactor) :
    Eff.wp (do pairIn rtEnv box (← build rtEnv a.expr) (← build rtEnv b.expr))
      (fun f w' => Planned p f ∧ w'.mem = w.mem) (fun _ => False) w := by
  apply Eff.wp_seq (ha w)
  intro fa w' h
  obtain ⟨ha, hmem⟩ := h
  apply Eff.wp_seq (hb w')
  intro fb w'' h
  obtain ⟨hb, hmem'⟩ := h
  rw [Eff.wp, pairIn_run]
  exact ⟨hbox _ _ _ ha hb, hmem'.trans hmem⟩

/-- Every plan is built as it is planned. -/
theorem plan_builds (p : Plan) : Builds p := by
  induction p with
  | sleep dur => exact fun w => ⟨⟨rfl, trivial, fun _ => rfl, Multiset.sum_singleton _⟩, rfl⟩
  | yieldNow => exact fun w => ⟨⟨trivial, trivial, fun _ => rfl, Multiset.sum_singleton _⟩, rfl⟩
  | ready => exact fun w => ⟨⟨trivial, trivial, fun _ => rfl, Multiset.sum_singleton _⟩, rfl⟩
  | map inner fn ih =>
      intro w
      apply Eff.wp_seq (ih w)
      intro f w' h
      obtain ⟨hf, hmem⟩ := h
      exact ⟨⟨hf.fresh, hf.plain, hf.due, hf.load⟩, hmem⟩
  | then_ a b iha ihb =>
      apply pair_builds iha ihb
      intro id fa fb ha hb
      refine ⟨⟨rfl, ha.fresh, hb.fresh⟩, ⟨ha.plain, hb.plain⟩, fun now => ?_, ha.load_add hb⟩
      show fb.due (fa.due now) = now + (a.time + b.time)
      rw [ha.due, hb.due, Nat.add_assoc]
  | join2 a size b iha ihb =>
      apply pair_builds iha ihb
      intro id fa fb ha hb
      refine ⟨⟨rfl, rfl, ha.fresh, hb.fresh⟩, ⟨ha.plain, hb.plain⟩, fun now => ?_, ha.load_add hb⟩
      show max (fa.due now) (fb.due now) = now + max a.time b.time
      rw [ha.due, hb.due, Nat.add_max_add_left]
  | select2 a b iha ihb =>
      apply pair_builds iha ihb
      intro id fa fb ha hb
      refine ⟨⟨ha.fresh, hb.fresh⟩, ⟨ha.plain, hb.plain⟩, fun now => ?_, ha.load_add hb⟩
      show min (fa.due now) (fb.due now) = now + min a.time b.time
      rw [ha.due, hb.due, Nat.add_min_add_left]

/-- The leaves of a tree are nodes that it owns. -/
theorem cells_le_custody (f : RtFut) : f.cells.map Prod.fst ≤ f.custody := by
  have howned : ∀ {c : Bool} {C : Multiset Cell} {ids : Multiset Nat}, C.map Prod.fst ≤ ids →
      (owned c C).map Prod.fst ≤ owned c ids := by
    intro c C ids h
    cases c with
    | true => exact h
    | false => exact Multiset.zero_le _
  have hpair : ∀ {C D : Multiset Cell} {c d : Multiset Nat} {id : Nat}, C.map Prod.fst ≤ c →
      D.map Prod.fst ≤ d → (C + D).map Prod.fst ≤ id ::ₘ (c + d) := by
    intro C D c d id hC hD
    rw [Multiset.map_add]
    exact (add_le_add hC hD).trans (Multiset.le_cons_self _ id)
  induction f with
  | null => exact Multiset.zero_le _
  | leaf id l => exact le_of_eq (Multiset.map_singleton _ _)
  | map id inner fn ih => exact ih.trans (Multiset.le_cons_self _ id)
  | then_ id a b stage iha ihb => exact hpair (howned iha) ihb
  | join2 id a b aSize aDone bDone iha ihb => exact hpair (howned iha) (howned ihb)
  | select2 id a b iha ihb => exact hpair iha ihb
  | sm id states state cur curOut curNext haveCur ih =>
      exact (howned ih).trans (Multiset.le_cons_self _ id)

structure Spawned (start : Nat) (plans : List Plan) (rt : Runtime) : Prop where
  stands    : Stands rt.sys .idle (List.range plans.length) (List.range plans.length) plans.length
  mem       : rt.world.mem = ⟨start, [], fun _ => false, []⟩
  own       : Own ((List.range plans.length : Multiset TaskId).bind fun t => (rt.futs t).tokens)
    rt.world
  planned   : ∀ t p, plans[t]? = some p → Planned p (rt.futs t)
  load      : ((allCells rt.futs (List.range plans.length)).map load).sum =
    (plans.map Plan.sleeps).sum
  completed : rt.completed = []

theorem spawned_init (start : Nat) : Spawned start [] (Runtime.init start) :=
  ⟨.init start, rfl, Custody.Owns.nil, nofun, rfl, rfl⟩

/-- What the trees of all tasks have, when one more is spawned. -/
theorem bind_spawned {α : Type} (g : RtFut → Multiset α) (futs : TaskId → RtFut) (n : Nat)
    (f : RtFut) :
    ((List.range (n + 1) : Multiset TaskId).bind fun t => g (Function.update futs n f t)) =
      g f + (List.range n : Multiset TaskId).bind fun t => g (futs t) := by
  rw [List.range_succ]
  exact bind_snoc (fun _ f => g f) List.not_mem_range_self f

theorem Spawned.spawn {plans : List Plan} (h : Spawned start plans rt) (p : Plan) :
    ∃ rt', rt.spawn p.expr = some rt' ∧ Spawned start (plans ++ [p]) rt' := by
  -- the constructors return what the plan says, and own its boxes
  obtain ⟨f, w, hbuild, ⟨hplanned, hmem⟩, hown⟩ :=
    Eff.wp_total (Eff.wp_mono (Eff.wp_and (plan_builds p rt.world) (build_spec rtEnv p.expr h.own))
      (fun _ _ h => h) fun _ h => h.1)
  obtain ⟨s, hs, hstands⟩ := h.stands.spawn rfl rt.sys.nextTask
  have hnext := h.stands.next_eq
  refine ⟨⟨s, Function.update rt.futs plans.length f, w, rt.completed⟩, ?_, ?_⟩
  · rw [hnext] at hs
    simp [Runtime.spawn, hbuild, hnext, hs]
  · have hlength : (plans ++ [p]).length = plans.length + 1 := by simp
    constructor
    case stands =>
      rw [hlength, List.range_succ]
      exact hstands
    case mem => exact hmem.trans h.mem
    case own =>
      rw [hlength]
      show Own ((List.range _ : Multiset TaskId).bind fun t =>
        (Function.update rt.futs plans.length f t).tokens) w
      rw [bind_spawned Fut.tokens]
      exact hown
    case planned =>
      intro t q ht
      show Planned q (Function.update rt.futs plans.length f t)
      by_cases heq : t = plans.length
      · rw [heq, List.getElem?_concat_length] at ht
        cases ht
        rw [heq, Function.update_self]
        exact hplanned
      · have hlt : t < plans.length := by
          obtain ⟨hlt, -⟩ := List.getElem?_eq_some_iff.mp ht
          rw [hlength] at hlt
          exact Nat.lt_of_le_of_ne (Nat.le_of_lt_succ hlt) heq
        rw [Function.update_of_ne heq]
        rw [List.getElem?_append_left hlt] at ht
        exact h.planned t q ht
    case load =>
      rw [hlength]
      show (((List.range _ : Multiset TaskId).bind fun t =>
        (Function.update rt.futs plans.length f t).cells).map _).sum = _
      have hload := h.load
      unfold allCells at hload
      rw [bind_spawned Fut.cells, Multiset.map_add, Multiset.sum_add, hplanned.load, hload,
        List.map_append, List.sum_append, add_comm]
      simp
    case completed => exact h.completed

/-- The plans are spawned one after the other. -/
theorem spawn_all (plans : List Plan) {done : List Plan} (h : Spawned start done rt) :
    ∃ rt', (plans.map Plan.expr).foldlM Runtime.spawn rt = some rt' ∧
      Spawned start (done ++ plans) rt' := by
  induction plans generalizing done rt with
  | nil => exact ⟨rt, rfl, by simpa using h⟩
  | cons p plans ih =>
      obtain ⟨rt', hspawn, h'⟩ := h.spawn p
      obtain ⟨rt'', hrest, h''⟩ := ih h'
      exact ⟨rt'', by simpa [hspawn] using hrest, by simpa using h''⟩

/-! ## The whole run

From the invariant by induction on what is left to do. At the end no task is live and no timer is
pending, and the clock reads the latest of the instants, if there was any task.
-/

/-- The instant at which a task completes. -/
def finishOf (start : Nat) (plans : List Plan) (t : TaskId) : Nat :=
  start + (plans[t]?).elim 0 Plan.time

/-- The leaves of all tasks are different nodes. -/
theorem Spawned.nodup {plans : List Plan} (h : Spawned start plans rt) :
    ((allCells rt.futs (List.range plans.length)).map Prod.fst).Nodup := by
  have hown := Custody.Owns.nodup h.own
  rw [Multiset.map_bind] at hown
  refine Multiset.nodup_of_le ?_ hown
  rw [allCells, Multiset.map_bind]
  have hcells : ∀ t ∈ (List.range plans.length : Multiset TaskId),
      (rt.futs t).cells.map Prod.fst ≤ (rt.futs t).tokens.map Custody.Token.id := by
    intro t _
    rw [over_tokens (rt.futs t)]
    exact cells_le_custody (rt.futs t)
  exact Multiset.sum_map_le_sum_map _ _ hcells

/-- Every tree is fresh, so the reactor has nothing to do. -/
theorem Spawned.good {plans : List Plan} (h : Spawned start plans rt)
    (hbound : start + (plans.map Plan.sleeps).sum < 2 ^ 64) :
    Good (allCells rt.futs (List.range plans.length)) rt.world.mem := by
  have hnone : ∀ id deadline, ¬ ArmedAt (allCells rt.futs (List.range plans.length)) id deadline := by
    intro id deadline ha
    obtain ⟨t, ht, ha⟩ := armedAt_all.mp ha
    have hplan := List.getElem?_eq_getElem (List.mem_range.mp ht)
    exact (h.planned t _ hplan).fresh.not_armed id deadline ha
  rw [h.mem]
  constructor
  case sorted => exact List.Pairwise.nil
  case pending =>
    refine (Multiset.eq_zero_of_forall_notMem ?_).symm
    rintro ⟨id, deadline, waker⟩ ht
    obtain ⟨-, dur, hc⟩ := mem_timerOf.mp ht
    exact hnone id deadline ⟨dur, waker, hc⟩
  case armed => exact fun id deadline ha => absurd ha (hnone id deadline)
  case nodup => exact h.nodup
  case room =>
    refine ⟨start, Nat.le_refl _, fun id deadline ha => absurd ha (hnone id deadline), ?_⟩
    rwa [h.load]

/-- When nothing has run yet, the invariant of the run holds. -/
theorem Spawned.between {plans : List Plan} (h : Spawned start plans rt)
    (hbound : start + (plans.map Plan.sleeps).sum < 2 ^ 64)
    (hs : Stands s (.drive .run) (List.range plans.length) (List.range plans.length) plans.length) :
    Between start plans.length (finishOf start plans) { rt with sys := s }
      (List.range plans.length) (List.range plans.length) := by
  have hplanned : ∀ t ∈ List.range plans.length, ∃ p, plans[t]? = some p ∧ Planned p (rt.futs t) := by
    intro t ht
    have hplan := List.getElem?_eq_getElem (List.mem_range.mp ht)
    exact ⟨_, hplan, h.planned t _ hplan⟩
  have hclock : rt.world.mem.clock = start := by rw [h.mem]
  constructor
  case stands => exact hs
  case runnable => exact fun t ht => ht
  case good => exact h.good hbound
  case plain =>
    intro t ht
    obtain ⟨p, -, hp⟩ := hplanned t ht
    exact hp.plain
  case ok =>
    intro t ht
    obtain ⟨p, -, hp⟩ := hplanned t ht
    exact hp.fresh.ok t
  case due =>
    intro t ht
    obtain ⟨p, hplan, hp⟩ := hplanned t ht
    show (rt.futs t).due rt.world.mem.clock = start + (plans[t]?).elim 0 Plan.time
    rw [hp.due, hclock, hplan]
    rfl
  case waits => exact fun t ht hnot => absurd ht hnot
  case completed => exact ⟨[], h.completed, List.Perm.refl _, nofun⟩
  case started => exact Nat.le_of_eq hclock.symm
  case reached => exact .inl hclock

/-- When no task is left, the clock reads the latest of their instants. -/
theorem Between.clock_eq {plans : List Plan}
    (h : Between start plans.length (finishOf start plans) rt [] []) :
    rt.world.mem.clock = start + (plans.map Plan.time).foldr max 0 := by
  obtain ⟨done, -, hperm, hpast⟩ := h.completed
  apply Nat.le_antisymm
  · rcases h.reached with heq | ⟨t, ht, hle⟩
    · omega
    · refine Nat.le_trans hle (Nat.add_le_add_left ?_ start)
      rw [List.getElem?_eq_getElem ht]
      exact List.le_max_of_le (List.mem_map_of_mem (List.getElem_mem ht)) (Nat.le_refl _)
  · have hstarted := h.started
    have hmax : (plans.map Plan.time).foldr max 0 ≤ rt.world.mem.clock - start := by
      apply List.max_le_of_forall_le _ _
      intro x hx
      obtain ⟨p, hp, rfl⟩ := List.mem_map.mp hx
      obtain ⟨t, ht, rfl⟩ := List.getElem_of_mem hp
      rw [List.append_nil] at hperm
      have hdone := hpast t (hperm.mem_iff.mpr (List.mem_range.mpr ht))
      rw [finishOf, List.getElem?_eq_getElem ht] at hdone
      have hdone : start + plans[t].time ≤ rt.world.mem.clock := hdone
      omega
    omega

/-- **Virtual time.** The run ends, with every task completed at the instant that its plan denotes. The
    clock then reads the latest of these instants, no task is live, and no timer is left. -/
theorem virtual_time (start : Nat) (plans : List Plan)
    (hbound : start + (plans.map Plan.sleeps).sum < 2 ^ 64) :
    ∃ rt n, (∀ m, n ≤ m → runPlans start plans m = some rt) ∧
      rt.completed.Perm (plans.mapIdx fun t p => (t, start + p.time)) ∧
      rt.world.mem.clock = start + (plans.map Plan.time).foldr max 0 ∧
      rt.sys.ex.live = 0 ∧ rt.world.mem.pending = [] := by
  obtain ⟨rt, hspawn, hspawned⟩ := spawn_all plans (spawned_init start)
  rw [List.nil_append] at hspawned
  obtain ⟨s, hrun, hstands⟩ := hspawned.stands.run
  obtain ⟨rt', hdrives, h⟩ := (hspawned.between hbound hstands).drives
  obtain ⟨s', hstop, hidle⟩ := h.stands.stop
  have hturn := turn_drive h.stands.pc_eq hstop
  have hend : Drives { rt with sys := s } { rt' with sys := s' } :=
    hdrives.trans (.turn (by simp [h.stands.pc_eq]) hturn (.refl _))
  obtain ⟨n, hn⟩ := hend.returns hidle.pc_eq
  refine ⟨{ rt' with sys := s' }, n, fun m hm => ?_, ?_, h.clock_eq, hidle.live_eq, ?_⟩
  · simp [runPlans, hspawn, Runtime.run, hrun, hn m hm]
  -- no task is live at the end, so all are done, each at its time
  · obtain ⟨done, hdone, hperm, -⟩ := h.completed
    show rt'.completed.Perm _
    rw [List.append_nil] at hperm
    have hlist : (List.range plans.length).map (fun t => (t, finishOf start plans t)) =
        plans.mapIdx fun t p => (t, start + p.time) := by
      apply List.ext_getElem
      · simp
      · intro i hi hi'
        have hlt : i < plans.length := by simpa using hi
        simp [finishOf, hlt]
    rw [hdone, ← hlist]
    exact hperm.map _
  · have hpending := h.good.pending
    exact Multiset.coe_eq_zero _ |>.mp hpending

/-- A sleep beside a race, whose loser leaves its timer, and a sequence that passes time twice. -/
theorem virtual_time_three :
    ∃ rt n, (∀ m, n ≤ m → runPlans 7 [.sleep 10, .select2 (.sleep 3) (.sleep 1000),
        .then_ (.join2 .yieldNow 0 (.sleep 5)) (.map (.sleep 6) none)] m = some rt) ∧
      rt.completed.Perm [(0, 17), (1, 10), (2, 18)] ∧ rt.world.mem.clock = 18 ∧
      rt.sys.ex.live = 0 ∧ rt.world.mem.pending = [] :=
  virtual_time 7 [.sleep 10, .select2 (.sleep 3) (.sleep 1000),
    .then_ (.join2 .yieldNow 0 (.sleep 5)) (.map (.sleep 6) none)] (by decide)

end CustLib.Exec
