import CustLib.Execution.Runtime
import CustLib.Execution.Sched

/-!
# Turns of a runtime

`Stands` is what a runtime needs to know of its executor: where it stands, which tasks are runnable,
which are live, and the number of the next. There is a lemma for each step that a runtime makes, which
says that the step is there and how the executor stands after it. They are consequences of the
refinement `sim_step`.

`Drives rt rt'` says that `executor_drive` comes from `rt` to `rt'`.
-/

namespace CustLib.Exec

open CustLib.Fifo (enqueue mem_enqueue nodup_enqueue)

/-! ## What a runtime needs of its executor

The scheduler has everything that matters to a runtime, so the executor is known by the scheduler that
it refines. Each of the lemmas is one step of `executor_drive` that is there, and what the scheduler
shows afterwards.
-/

/-- The scheduler stands at `pc`; `queue` are its runnable tasks, `live` its live ones, and `next` is the
    next task box. -/
structure Shown (v : Sched) (pc : Pc) (queue live : List TaskId) (next : TaskId) : Prop where
  pc    : v.pc = pc
  queue : v.queue = queue
  jobs  : ∀ t, (v.jobs t).isSome ↔ t ∈ live
  nodup : live.Nodup
  count : v.live = live.length
  park  : v.park = true
  next  : v.nextTask = next

/-- The same of the executor. -/
def Stands (s : Sys) (pc : Pc) (queue live : List TaskId) (next : TaskId) : Prop :=
  ∃ v, Sim s v ∧ v.Ok ∧ Shown v pc queue live next

namespace Stands

variable {s : Sys} {pc : Pc} {c : Caller} {t : TaskId} {queue live : List TaskId} {next : TaskId}

theorem pc_eq (h : Stands s pc queue live next) : s.pc = pc := by
  obtain ⟨v, hsim, -, hv⟩ := h
  exact hsim.pc.trans hv.pc

theorem next_eq (h : Stands s pc queue live next) : s.nextTask = next := by
  obtain ⟨v, hsim, -, hv⟩ := h
  exact hsim.nextTask.trans hv.next

theorem live_eq (h : Stands s pc queue live next) : s.ex.live = live.length := by
  obtain ⟨v, hsim, -, hv⟩ := h
  exact hsim.live.trans hv.count

theorem queue_nodup (h : Stands s pc queue live next) : queue.Nodup := by
  obtain ⟨v, hsim, -, hv⟩ := h
  exact hv.queue ▸ hsim.queue.nodup

theorem live_nodup (h : Stands s pc queue live next) : live.Nodup := by
  obtain ⟨v, -, -, hv⟩ := h
  exact hv.nodup

/-- A fresh executor with the park hook installed. -/
theorem init (start : Nat) : Stands (Runtime.init start).sys .idle [] [] 0 := by
  obtain ⟨v, hstep, hsim⟩ := sim_step (a := .setPark true) sim_init Sched.ok_init rfl
  have hok := Sched.ok_init.step hstep
  cases hstep
  exact ⟨_, hsim, hok, rfl, rfl, fun t => by simp [Sched.init], List.nodup_nil, rfl, rfl, rfl⟩

/-- A step that is there, and what the scheduler's step says of it. -/
theorem step_to {pc' : Pc} {queue' live' : List TaskId} {next' : TaskId} {a : Act}
    (h : Stands s pc queue live next) (hs : (step s a).isSome)
    (hstep : ∀ v v', v.Ok → Shown v pc queue live next → Sched.Step v a v' →
      Shown v' pc' queue' live' next') :
    ∃ s', step s a = some s' ∧ Stands s' pc' queue' live' next' := by
  obtain ⟨v, hsim, hok, hv⟩ := h
  obtain ⟨s', hs'⟩ := Option.isSome_iff_exists.mp hs
  obtain ⟨v', hvstep, hsim'⟩ := sim_step hsim hok hs'
  exact ⟨s', hs', v', hsim', hok.step hvstep, hstep v v' hok hv hvstep⟩

theorem spawn (h : Stands s pc queue live next) (hpc : pc.outside = true) (fut : FutId) :
    ∃ s', step s (.spawn fut true) = some s' ∧
      Stands s' pc (queue ++ [next]) (live ++ [next]) (next + 1) := by
  apply h.step_to (by simp [step, h.pc_eq, hpc])
  intro v v' hok hv hstep
  cases hstep with
  | spawn =>
      have hfresh : next ∉ live := fun hmem => by
        have hlt := hok.jobs_lt _ ((hv.jobs _).mpr hmem)
        exact Nat.lt_irrefl _ (hv.next ▸ hlt)
      constructor
      case pc => exact hv.pc
      case queue => simp [Sched.push, hv.queue, hv.next]
      case jobs =>
        intro t
        by_cases ht : t = next
        · simp [Sched.push, ht, hv.next]
        · simp [Sched.push, ht, hv.next, hv.jobs]
      case nodup =>
        rw [List.nodup_append]
        exact ⟨hv.nodup, List.nodup_singleton _,
          fun t ht u hu heq => hfresh (List.mem_singleton.mp hu ▸ heq ▸ ht)⟩
      case count => simp [Sched.push, hv.count]
      case park => exact hv.park
      case next => simp [Sched.push, hv.next]

theorem run (h : Stands s .idle queue live next) :
    ∃ s', step s .run = some s' ∧ Stands s' (.drive .run) queue live next := by
  apply h.step_to (by simp [step, h.pc_eq])
  intro v v' hok hv hstep
  cases hstep with
  | run => exact { hv with pc := rfl }

theorem poll (h : Stands s (.drive c) (t :: queue) live next) (ht : t ∈ live) :
    ∃ s', step s .drive = some s' ∧ Stands s' (.polling c t) queue live next := by
  apply h.step_to (by simp [step, h.pc_eq])
  intro v v' hok hv hstep
  cases hstep with
  | poll hpc hq hjob =>
      cases hv.pc.symm.trans hpc
      cases hv.queue.symm.trans hq
      exact { hv with pc := rfl, queue := rfl }
  | crash hpc hq hjob =>
      cases hv.queue.symm.trans hq
      exact absurd ((hv.jobs t).mpr ht) (by simp [hjob])
  | stop hpc hq => cases hv.queue.symm.trans hq
  | park hpc hq => cases hv.queue.symm.trans hq

theorem park (h : Stands s (.drive c) [] live next) (hlive : live ≠ []) :
    ∃ s', step s .drive = some s' ∧ Stands s' (.parked c) [] live next := by
  apply h.step_to (by simp [step, h.pc_eq])
  intro v v' hok hv hstep
  cases hstep with
  | poll hpc hq hjob => cases hv.queue.symm.trans hq
  | crash hpc hq hjob => cases hv.queue.symm.trans hq
  | stop hpc hq hwhy =>
      rcases hwhy with hzero | hnone
      · rw [hv.count] at hzero
        exact absurd (List.length_eq_zero_iff.mp hzero) hlive
      · cases hv.park.symm.trans hnone
  | park hpc hq =>
      cases hv.pc.symm.trans hpc
      exact { hv with pc := rfl }

theorem stop (h : Stands s (.drive c) [] [] next) :
    ∃ s', step s .drive = some s' ∧ Stands s' .idle [] [] next := by
  apply h.step_to (by simp [step, h.pc_eq])
  intro v v' hok hv hstep
  cases hstep with
  | poll hpc hq hjob => cases hv.queue.symm.trans hq
  | crash hpc hq hjob => cases hv.queue.symm.trans hq
  | stop hpc hq hwhy => exact { hv with pc := rfl }
  | park hpc hq hlive => exact absurd hv.count hlive

theorem pended (h : Stands s (.polling c t) queue live next) :
    ∃ s', step s .answerPending = some s' ∧ Stands s' (.drive c) queue live next := by
  apply h.step_to (by simp [step, h.pc_eq])
  intro v v' hok hv hstep
  cases hstep with
  | pended hpc =>
      cases hv.pc.symm.trans hpc
      exact { hv with pc := rfl }

theorem ready (h : Stands s (.polling c t) queue live next) :
    ∃ s', step s .answerReady = some s' ∧ Stands s' (.dropping c t) (queue.erase t) live next := by
  apply h.step_to (by simp [step, h.pc_eq])
  intro v v' hok hv hstep
  cases hstep with
  | ready hpc hjob =>
      cases hv.pc.symm.trans hpc
      exact { hv with pc := rfl, queue := congrArg (List.erase · t) hv.queue }

theorem dropped (h : Stands s (.dropping c t) queue live next) (ht : t ∈ live) :
    ∃ s', step s .dropped = some s' ∧ Stands s' (.drive c) queue (live.erase t) next := by
  apply h.step_to (by simp [step, h.pc_eq])
  intro v v' hok hv hstep
  cases hstep with
  | freed hpc =>
      cases hv.pc.symm.trans hpc
      refine { hv with pc := rfl, jobs := fun u => ?_, nodup := hv.nodup.erase t, count := ?_ }
      · rw [hv.nodup.mem_erase_iff, ← hv.jobs]
        by_cases hu : u = t
        · simp [hu]
        · simp [hu]
      · show v.live - 1 = _
        rw [hv.count, List.length_erase_of_mem ht]

theorem resumed (h : Stands s (.parked c) queue live next) :
    ∃ s', step s (.parkReturns true) = some s' ∧ Stands s' (.drive c) queue live next := by
  apply h.step_to (by simp [step, h.pc_eq])
  intro v v' hok hv hstep
  cases hstep with
  | resumed hpc =>
      cases hv.pc.symm.trans hpc
      exact { hv with pc := rfl }

theorem wake (h : Stands s pc queue live next) (hpc : pc.outside = true) (ht : t ∈ live) :
    ∃ s', step s (.wake t) = some s' ∧ Stands s' pc (enqueue queue t) live next := by
  have htask : (s.ex.tasks t).isSome := by
    obtain ⟨v, hsim, -, hv⟩ := h
    have hjob := (hv.jobs t).mpr ht
    rwa [← hsim.jobs, Option.isSome_map] at hjob
  apply h.step_to (by simp [step, h.pc_eq, hpc, htask])
  intro v v' hok hv hstep
  cases hstep with
  | wake hout hjob => exact { hv with queue := congrArg (enqueue · t) hv.queue }

/-- Wakes of live tasks, and then one more step. -/
theorem wakes {woken : List TaskId} (h : Stands s pc queue live next) (hpc : pc.outside = true)
    (hwoken : ∀ t ∈ woken, t ∈ live) {P : Sys → Prop} {a : Act}
    (hlast : ∀ s', Stands s' pc (woken.foldl enqueue queue) live next →
      ∃ s'', step s' a = some s'' ∧ P s'') :
    ∃ s', Machine.run step s (woken.map .wake ++ [a]) = some s' ∧ P s' := by
  induction woken generalizing s queue with
  | nil =>
      obtain ⟨s', hs', hP⟩ := hlast s h
      exact ⟨s', by simp [hs'], hP⟩
  | cons t woken ih =>
      obtain ⟨s', hs', h'⟩ := h.wake hpc (hwoken t List.mem_cons_self)
      obtain ⟨s'', hs'', hP⟩ := ih h' (fun u hu => hwoken u (List.mem_cons_of_mem t hu)) hlast
      exact ⟨s'', by simpa [hs'] using hs'', hP⟩

end Stands

/-! ## The queue after wakes

Several wakes in a row append those tasks that are not queued yet.
-/

theorem mem_foldl_enqueue {woken queue : List TaskId} {t : TaskId} :
    t ∈ woken.foldl enqueue queue ↔ t ∈ queue ∨ t ∈ woken := by
  induction woken generalizing queue with
  | nil => simp
  | cons u woken ih => simp [ih, mem_enqueue, or_assoc]

theorem length_foldl_enqueue (woken queue : List TaskId) :
    (woken.foldl enqueue queue).length ≤ queue.length + woken.length := by
  induction woken generalizing queue with
  | nil => simp
  | cons u woken ih =>
      have hone : (enqueue queue u).length ≤ queue.length + 1 := by
        unfold enqueue
        split <;> simp
      have hrest := ih (enqueue queue u)
      simp only [List.foldl_cons, List.length_cons]
      omega

theorem nodup_foldl_enqueue (woken : List TaskId) {queue : List TaskId} (h : queue.Nodup) :
    (woken.foldl enqueue queue).Nodup := by
  induction woken generalizing queue with
  | nil => exact h
  | cons u woken ih => exact ih (nodup_enqueue h u)

/-! ## Driving

`Drives` is a number of turns, whose length does not matter. It composes, and ends in the return of
`executor_drive`.
-/

def Drives (rt rt' : Runtime) : Prop :=
  ∃ k, ∀ n, Runtime.drive (n + k) rt = Runtime.drive n rt'

theorem Drives.refl (rt : Runtime) : Drives rt rt := ⟨0, fun _ => rfl⟩

theorem Drives.trans {rt rt' rt'' : Runtime} (h : Drives rt rt') (h' : Drives rt' rt'') :
    Drives rt rt'' := by
  obtain ⟨k, hk⟩ := h
  obtain ⟨k', hk'⟩ := h'
  exact ⟨k' + k, fun n => by rw [← Nat.add_assoc, hk, hk']⟩

theorem Drives.turn {rt rt' rt'' : Runtime} (hpc : rt.sys.pc ≠ .idle) (h : rt.turn = some rt')
    (h' : Drives rt' rt'') : Drives rt rt'' := by
  refine Drives.trans ⟨1, fun n => ?_⟩ h'
  rw [Runtime.drive, if_neg hpc, h, Option.bind_some]

/-- The drive loop returns. -/
theorem Drives.returns {rt rt' : Runtime} (h : Drives rt rt') (hpc : rt'.sys.pc = .idle) :
    ∃ n, ∀ m, n ≤ m → Runtime.drive m rt = some rt' := by
  obtain ⟨k, hk⟩ := h
  refine ⟨k + 1, fun m hm => ?_⟩
  obtain ⟨j, rfl⟩ := Nat.exists_eq_add_of_le hm
  rw [show k + 1 + j = j + 1 + k by omega, hk, Runtime.drive, if_pos hpc]

end CustLib.Exec
