import CustLib.Execution.Records

/-!
# The structural invariant of the executor

`executor_structure`: over every run in which polls and the park hook wake, spawn and answer as they
please, the ready queue is a ring of distinct live tasks, `live` counts the tasks that are not
completed, and every task lives and ends as `lifeStep` says. A run stays clear of freed boxes as
long as a future that has answered `Ready` does not wake its own task while it is dropped
(`QuietDrop`).
-/

namespace CustLib.Exec

open CustLib.Linked CustLib.ListHead
open CustLib.Fifo (enqueue mem_enqueue nodup_enqueue)

/-! ## Tidy schedulers

The one thing that can go wrong in the executor is a wake of a task during its own drop, which puts a
link to a dying box into the queue. `QuietDrop` is the condition that it does not happen; under it no
freed box is ever touched.
-/

/-- The drop of a completed future does not wake its own task, whose box is about to be freed. -/
def QuietDrop (pc : Pc) (a : Act) : Prop := ∀ t, pc.completing = some t → a ≠ .wake t

instance (pc : Pc) (a : Act) : Decidable (QuietDrop pc a) :=
  match h : pc.completing with
  | none   => isTrue fun t ht => by simp [h] at ht
  | some t => decidable_of_iff (a ≠ .wake t) <| by simp [QuietDrop, h]

namespace Sched

/-- The queue holds distinct live tasks, and no freed box was ever touched. -/
structure Tidy (v : Sched) : Prop where
  nodup : v.queue.Nodup
  live  : ∀ t ∈ v.queue, (v.jobs t).isSome ∧ v.pc.completing ≠ some t
  safe  : v.pc ≠ .crashed

theorem tidy_init : Tidy init := ⟨List.nodup_nil, nofun, nofun⟩

theorem Tidy.setPc {v : Sched} (h : v.Tidy) {pc : Pc} {log : List Event}
    (hpc : pc.completing = none) (hsafe : pc ≠ .crashed) : Tidy { v with pc, log } :=
  ⟨h.nodup, fun t ht => ⟨(h.live t ht).1, by simp [hpc]⟩, hsafe⟩

theorem Tidy.push {v : Sched} (hok : v.Ok) (h : v.Tidy) (job : Job) : (v.push job).Tidy := by
  have hnew : v.nextTask ∉ v.queue := fun hmem => Nat.lt_irrefl _ (hok.queue_lt _ hmem)
  refine ⟨?_, ?_, h.safe⟩
  · exact List.nodup_append.mpr ⟨h.nodup, List.nodup_singleton _, by
      rintro a ha b hb rfl
      exact hnew (List.mem_singleton.mp hb ▸ ha)⟩
  · intro t ht
    rcases List.mem_append.mp ht with ht | ht
    · have hne : t ≠ v.nextTask := fun heq => hnew (heq ▸ ht)
      refine ⟨?_, (h.live t ht).2⟩
      simpa [Sched.push, hne] using (h.live t ht).1
    · obtain rfl := List.mem_singleton.mp ht
      exact ⟨by simp [Sched.push], fun hc => Nat.lt_irrefl _ (hok.jobs_lt _ (hok.completing hc))⟩

/-- A step that wakes no dying task keeps the scheduler tidy. -/
theorem Tidy.step {v v' : Sched} {a : Act} (hok : v.Ok) (h : v.Tidy) (hquiet : QuietDrop v.pc a)
    (hs : Step v a v') : v'.Tidy := by
  cases hs with
  | setPark b hpc => exact ⟨h.nodup, h.live, h.safe⟩
  | run hpc => exact h.setPc rfl (by simp)
  | spawn hpc => exact h.push hok _
  | spawn_fails hpc => exact ⟨h.nodup, h.live, h.safe⟩
  | blockOn hpc =>
      have hok' : v.openFrame.Ok := ⟨hok.queue_lt, hok.jobs_lt, hok.polling, hok.dropping⟩
      exact (Tidy.push hok' ⟨h.nodup, h.live, h.safe⟩ _).setPc rfl (by simp)
  | blockOn_fails hpc => exact ⟨h.nodup, h.live, h.safe⟩
  | @wake t job hpc hjob =>
      refine ⟨nodup_enqueue h.nodup t, ?_, h.safe⟩
      intro u hu
      rcases mem_enqueue.mp hu with hu | rfl
      · exact h.live u hu
      -- a task is not woken by its own drop
      · exact ⟨by simp [hjob], fun hc => hquiet u hc rfl⟩
  | @poll c t q job hpc hq hjob =>
      have hnodup := h.nodup
      rw [hq] at hnodup
      refine ⟨(List.nodup_cons.mp hnodup).2, ?_, by simp⟩
      intro u hu
      exact ⟨(h.live u (by simp [hq, hu])).1, by simp [Pc.completing]⟩
  | @crash c t q hpc hq hjob =>
      -- there is no job to miss: what is in the queue is live
      have hlive := (h.live t (by simp [hq])).1
      simp [hjob] at hlive
  | stop hpc hq hwhy => exact h.setPc rfl (by simp)
  | park hpc hq hlive hpark => exact h.setPc rfl (by simp)
  | pended hpc => exact h.setPc rfl (by simp)
  | @ready c t job hpc hjob =>
      refine ⟨h.nodup.erase t, ?_, by simp⟩
      intro u hu
      have hut : u ≠ t := fun heq => h.nodup.not_mem_erase (heq ▸ hu)
      exact ⟨(h.live u (List.mem_of_mem_erase hu)).1, by simp [Pc.completing, Ne.symm hut]⟩
  | @freed c t hpc =>
      refine ⟨h.nodup, ?_, by simp⟩
      intro u hu
      obtain ⟨hjob, hc⟩ := h.live u hu
      have hut : u ≠ t := by
        rintro rfl
        exact hc (by rw [hpc]; rfl)
      exact ⟨by simpa [hut] using hjob, by simp [Pc.completing]⟩
  | resumed hpc => exact h.setPc rfl (by simp)
  | stalled hpc => exact h.setPc rfl (by simp)

/-- A task in the queue has not answered `Ready`. -/
theorem Tidy.not_ready {v : Sched} (hok : v.Ok) (hlife : v.Life) (h : v.Tidy) {t : TaskId}
    (ht : t ∈ v.queue) : .ready t ∉ v.log := by
  obtain ⟨hjob, hc⟩ := h.live t ht
  have hcount := (phase_counts (hlife t)).1
  rw [phase_live hok hjob hc] at hcount
  exact List.count_eq_zero.mp hcount

end Sched

/-! ## The invariant of the executor

Everything that the claim about the structure asks for, at every point of a run: the ring, the flags,
the counter and the lives of the tasks.
-/

structure WellFormed (s : Sys) : Prop where
  /-- No freed box was touched, and no pointer was null. -/
  safe : s.pc ≠ .crashed
  /-- The ready queue is a ring of distinct live tasks, and holds a task iff its flag says so. -/
  queue : ∃ q : List TaskId, IsRing s.ex.links .ready (q.map .link) ∧ q.Nodup ∧
    (∀ t, t ∈ q ↔ ∃ task, s.ex.tasks t = some task ∧ task.queued = true) ∧
    ∀ t ∈ q, .ready t ∉ s.log
  /-- No task is pushed twice, and a task's box is allocated until it is completed. -/
  boxes : (pushedTasks s.log).Nodup ∧
    ∀ t, (s.ex.tasks t).isSome ↔ t ∈ pushedTasks s.log ∧ .freed t ∉ s.log
  /-- `live` counts the tasks pushed and not yet completed. -/
  live : s.ex.live = (pushedTasks s.log).countP fun t => .freed t ∉ s.log
  /-- A future is polled only while it has not answered `Ready`. -/
  polled : ∀ t pre post, s.log = pre ++ .polled t :: post → .ready t ∉ pre
  /-- A task whose future has answered is unlinked, its `done` flag is set, its future was dropped
      once, and its box is freed once, when the drop has returned. -/
  answered : ∀ t, .ready t ∈ s.log →
    (∀ task, s.ex.tasks t = some task → task.queued = false) ∧
    (∀ f, .pushed t (some f) ∈ s.log → s.flags f = true) ∧
    s.log.count (.dropped t) = 1 ∧
    s.log.count (.freed t) = if s.pc.completing = some t then 0 else 1
  /-- A task whose future has not answered was neither dropped nor freed. -/
  unanswered : ∀ t, .ready t ∉ s.log →
    s.log.count (.dropped t) = 0 ∧ s.log.count (.freed t) = 0

/-- **The structural invariant of the executor.** Every state that a run reaches is well formed,
    whatever the futures answer, wake and spawn and whatever the park hook does. -/
theorem executor_structure {as : List Act} {s : Sys}
    (h : Machine.RunIn step (fun s a => QuietDrop s.pc a) Sys.init as s) : WellFormed s := by
  obtain ⟨v, hsim, hok, hlife, htally, hrec, htidy⟩ :=
    runIn_sched (Q := fun v a => QuietDrop v.pc a)
      (I := fun v => v.Life ∧ v.Tally ∧ v.Records ∧ v.Tidy)
      (fun s v a hsim hquiet => hsim.pc ▸ hquiet)
      ⟨Sched.life_init, Sched.tally_init, Sched.records_init, Sched.tidy_init⟩
      (fun v a v' hok ⟨hlife, htally, hrec, htidy⟩ hquiet hs =>
        ⟨hlife.step hok hs, htally.step hok hs, hrec.step hlife hs, htidy.step hok hquiet hs⟩) h
  -- `queued` says of a task whether it is in the queue
  have hmem : ∀ t, t ∈ v.queue ↔ ∃ task, s.ex.tasks t = some task ∧ task.queued = true := by
    intro t
    constructor
    · intro ht
      obtain ⟨job, hjob⟩ := Option.isSome_iff_exists.mp (htidy.live t ht).1
      obtain ⟨task, htask, -⟩ := hsim.task hjob
      exact ⟨task, htask, (hsim.queue.queued t task htask).mpr ht⟩
    · rintro ⟨task, htask, hqd⟩
      exact (hsim.queue.queued t task htask).mp hqd
  constructor
  case safe => exact hsim.pc ▸ htidy.safe
  case queue =>
    refine ⟨v.queue, hsim.queue.ring, htidy.nodup, hmem, ?_⟩
    rw [hsim.log]
    exact fun t ht => htidy.not_ready hok hlife ht
  case boxes =>
    rw [hsim.log, htally.pushed]
    refine ⟨List.nodup_range, fun t => ?_⟩
    rw [List.mem_range, ← hlife.isSome_iff hok, ← hsim.jobs t, Option.isSome_map]
  case live =>
    rw [hsim.live, hsim.log]
    exact htally.live_eq hok hlife
  case polled =>
    intro t pre post hlog
    exact (ready_notMem_of_live (live_before (.inl rfl) (hlog ▸ hsim.log ▸ hlife t))).1
  case answered =>
    intro t ht
    rw [hsim.log] at ht
    rw [hsim.log, hsim.flags, hsim.pc]
    refine ⟨?_, fun f hf => hrec.answered t f ht hf, hlife.completed hok ht⟩
    intro task htask
    rw [Bool.eq_false_iff]
    exact fun hqd => htidy.not_ready hok hlife ((hmem t).mpr ⟨task, htask, hqd⟩) ht
  case unanswered =>
    rw [hsim.log]
    exact fun t ht => hlife.not_completed ht

/-- A `block_on` whose task spawns another one and wakes itself before it answers `Ready`. -/
theorem executor_structure_self_wake :
    ∃ s, Machine.run step Sys.init
        [.blockOn 5 none true, .drive, .spawn 6 true, .wake 0, .answerReady, .dropped, .drive] =
          some s ∧ s.pc = .polling (.blockOn 0) 1 ∧ s.ex.live = 1 ∧ WellFormed s := by
  have h : Machine.RunIn step (fun s a => QuietDrop s.pc a) Sys.init
      [.blockOn 5 none true, .drive, .spawn 6 true, .wake 0, .answerReady, .dropped, .drive] _ :=
    .of_guarded rfl
  exact ⟨_, h.run, rfl, rfl, executor_structure h⟩

end CustLib.Exec
