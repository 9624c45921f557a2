import CustLib.Execution.Drive

/-!
# The abstract scheduler

What the executor is for: a first-in first-out queue of runnable tasks. `Sched` keeps the queue as a
list and forgets the pointers and the `queued` flags; `Sched.Step` says everything a step can do to
it. The executor refines it (`sim_step`), so an invariant of the scheduler holds of every run of the
executor (`runIn_sched`).
-/

namespace CustLib.Exec

open CustLib.Linked CustLib.ListHead
open CustLib.Fifo (enqueue mem_enqueue)

/-! ## The scheduler

Jobs instead of task boxes, a list instead of the ring, and the same points of control. What the program
decides is left to it, so `Step` is a relation.
-/

/-- What the scheduler remembers of a live task. -/
structure Job where
  fut  : FutId
  out  : Option Nat
  done : Option FrameId
  deriving DecidableEq, Repr

def Task.job (task : Task) : Job := ⟨task.fut, task.out, task.done⟩

structure Sched where
  queue     : List TaskId
  jobs      : TaskId → Option Job
  live      : Nat
  park      : Bool
  flags     : FrameId → Bool
  pc        : Pc
  nextTask  : TaskId
  nextFrame : FrameId
  log       : List Event

namespace Sched

def init : Sched where
  queue     := []
  jobs      := fun _ => none
  live      := 0
  park      := false
  flags     := fun _ => false
  pc        := .idle
  nextTask  := 0
  nextFrame := 0
  log       := []

def push (v : Sched) (job : Job) : Sched :=
  { v with queue := v.queue ++ [v.nextTask],
           jobs := Function.update v.jobs v.nextTask (some job),
           live := v.live + 1, flags := writeDone v.flags job.done false,
           nextTask := v.nextTask + 1, log := v.log ++ [.pushed v.nextTask job.done] }

def stop (v : Sched) (c : Caller) (why : Event) : Sched :=
  { v with pc := .idle, log := v.log ++ why :: returnEvents v.flags c }

def openFrame (v : Sched) : Sched :=
  { v with nextFrame := v.nextFrame + 1, flags := Function.update v.flags v.nextFrame false }

inductive Step : Sched → Act → Sched → Prop
  | setPark {v} (b) : v.pc = .idle → Step v (.setPark b) { v with park := b }
  | run {v} : v.pc = .idle → Step v .run { v with pc := .drive .run }
  | spawn {v fut} : v.pc.outside = true → Step v (.spawn fut true) (v.push ⟨fut, none, none⟩)
  | spawn_fails {v fut} : v.pc.outside = true →
      Step v (.spawn fut false) { v with log := v.log ++ [.rejected fut] }
  | blockOn {v fut out} : v.pc = .idle →
      Step v (.blockOn fut out true)
        { v.openFrame.push ⟨fut, out, some v.nextFrame⟩ with pc := .drive (.blockOn v.nextFrame) }
  | blockOn_fails {v fut out} : v.pc = .idle →
      Step v (.blockOn fut out false)
        { v.openFrame with log := v.log ++ [.rejected fut, .returned v.nextFrame false] }
  | wake {v t job} : v.pc.outside = true → v.jobs t = some job →
      Step v (.wake t) { v with queue := enqueue v.queue t, log := v.log ++ [.woke t] }
  | poll {v c t q job} : v.pc = .drive c → v.queue = t :: q → v.jobs t = some job →
      Step v .drive { v with queue := q, pc := .polling c t, log := v.log ++ [.polled t] }
  | crash {v c t q} : v.pc = .drive c → v.queue = t :: q → v.jobs t = none →
      Step v .drive { v with pc := .crashed }
  | stop {v c} : v.pc = .drive c → v.queue = [] → v.live = 0 ∨ v.park = false →
      Step v .drive (v.stop c .stopped)
  | park {v c} : v.pc = .drive c → v.queue = [] → v.live ≠ 0 → v.park = true →
      Step v .drive { v with pc := .parked c, log := v.log ++ [.parked] }
  | pended {v c t} : v.pc = .polling c t →
      Step v .answerPending { v with pc := .drive c, log := v.log ++ [.pended t] }
  | ready {v c t job} : v.pc = .polling c t → v.jobs t = some job →
      Step v .answerReady
        { v with queue := v.queue.erase t, flags := writeDone v.flags job.done true,
                 pc := .dropping c t,
                 log := v.log ++ .ready t :: doneEvents job.done ++ [.dropped t] }
  | freed {v c t} : v.pc = .dropping c t →
      Step v .dropped
        { v with jobs := Function.update v.jobs t none, live := v.live - 1, pc := .drive c,
                 log := v.log ++ [.freed t] }
  | resumed {v c} : v.pc = .parked c →
      Step v (.parkReturns true) { v with pc := .drive c, log := v.log ++ [.resumed] }
  | stalled {v c} : v.pc = .parked c → Step v (.parkReturns false) (v.stop c .stalled)

/-! ## Its invariant

The part of the structure that the simulation needs: queue and live tasks have been handed out, and a
task that is at hand is live.
-/

structure Ok (v : Sched) : Prop where
  queue_lt : ∀ t ∈ v.queue, t < v.nextTask
  jobs_lt  : ∀ t, (v.jobs t).isSome → t < v.nextTask
  polling  : ∀ c t, v.pc = .polling c t → (v.jobs t).isSome
  dropping : ∀ c t, v.pc = .dropping c t → (v.jobs t).isSome

theorem ok_init : Ok init where
  queue_lt := fun _ h => nomatch h
  jobs_lt  := fun _ h => nomatch h
  polling  := fun _ _ h => nomatch h
  dropping := fun _ _ h => nomatch h

theorem Ok.push {v : Sched} (h : v.Ok) (job : Job) : (v.push job).Ok := by
  have hjob : ∀ t, (v.jobs t).isSome → ((v.push job).jobs t).isSome := by
    intro t ht
    have hne : t ≠ v.nextTask := Nat.ne_of_lt (h.jobs_lt t ht)
    simpa [Sched.push, hne] using ht
  refine ⟨?_, ?_, fun c t hpc => hjob t (h.polling c t hpc), fun c t hpc => hjob t (h.dropping c t hpc)⟩
  · intro t ht
    simp only [Sched.push, List.mem_append, List.mem_singleton] at ht ⊢
    rcases ht with ht | rfl
    · exact Nat.lt_succ_of_lt (h.queue_lt t ht)
    · exact Nat.lt_succ_self _
  · intro t ht
    simp only [Sched.push] at ht ⊢
    by_cases hne : t = v.nextTask
    · rw [hne]
      exact Nat.lt_succ_self _
    · rw [Function.update_of_ne hne] at ht
      exact Nat.lt_succ_of_lt (h.jobs_lt t ht)

/-- Every step keeps the queue and the live tasks in order. -/
theorem Ok.step {v v' : Sched} {a : Act} (h : v.Ok) (hs : Step v a v') : v'.Ok := by
  cases hs with
  | setPark b hpc => exact ⟨h.queue_lt, h.jobs_lt, h.polling, h.dropping⟩
  | run hpc => exact ⟨h.queue_lt, h.jobs_lt, nofun, nofun⟩
  | spawn hpc => exact h.push _
  | spawn_fails hpc => exact ⟨h.queue_lt, h.jobs_lt, h.polling, h.dropping⟩
  | @blockOn fut out hpc =>
      -- a frame is opened before the task is pushed
      have hp := Ok.push (v := v.openFrame) ⟨h.queue_lt, h.jobs_lt, h.polling, h.dropping⟩
        ⟨fut, out, some v.nextFrame⟩
      exact ⟨hp.queue_lt, hp.jobs_lt, nofun, nofun⟩
  | blockOn_fails hpc => exact ⟨h.queue_lt, h.jobs_lt, h.polling, h.dropping⟩
  | @wake t job hpc hjob =>
      refine ⟨?_, h.jobs_lt, h.polling, h.dropping⟩
      intro u hu
      rcases mem_enqueue.mp hu with hu | rfl
      · exact h.queue_lt u hu
      · exact h.jobs_lt u (by simp [hjob])
  | @poll c t q job hpc hq hjob =>
      refine ⟨fun u hu => h.queue_lt u (by simp [hq, hu]), h.jobs_lt, ?_, nofun⟩
      rintro c' t' heq
      cases heq
      simp [hjob]
  | crash hpc hq hjob => exact ⟨h.queue_lt, h.jobs_lt, nofun, nofun⟩
  | stop hpc hq hwhy => exact ⟨h.queue_lt, h.jobs_lt, nofun, nofun⟩
  | park hpc hq hlive hpark => exact ⟨h.queue_lt, h.jobs_lt, nofun, nofun⟩
  | pended hpc => exact ⟨h.queue_lt, h.jobs_lt, nofun, nofun⟩
  | @ready c t job hpc hjob =>
      refine ⟨fun u hu => h.queue_lt u (List.mem_of_mem_erase hu), h.jobs_lt, nofun, ?_⟩
      rintro c' t' heq
      cases heq
      simp [hjob]
  | @freed c t hpc =>
      refine ⟨h.queue_lt, ?_, nofun, nofun⟩
      intro u hu
      by_cases hne : u = t
      · simp [hne] at hu
      · exact h.jobs_lt u (by simpa [hne] using hu)
  | resumed hpc => exact ⟨h.queue_lt, h.jobs_lt, nofun, nofun⟩
  | stalled hpc => exact ⟨h.queue_lt, h.jobs_lt, nofun, nofun⟩

end Sched

/-! ## The executor refines the scheduler

`Sim` ties the pointers to the lists: the ring stands for the queue, a task box is live iff the
scheduler has a job for it, and both have the same history. Every step of the executor is a step of the
scheduler, also one that crashes.
-/

structure Sim (s : Sys) (v : Sched) : Prop where
  queue     : Queue s.ex v.queue
  jobs      : ∀ t, (s.ex.tasks t).map Task.job = v.jobs t
  live      : s.ex.live = v.live
  park      : s.ex.park = v.park
  flags     : s.flags = v.flags
  pc        : s.pc = v.pc
  nextTask  : s.nextTask = v.nextTask
  nextFrame : s.nextFrame = v.nextFrame
  log       : s.log = v.log

theorem sim_init : Sim Sys.init Sched.init :=
  ⟨queue_init, fun _ => rfl, rfl, rfl, rfl, rfl, rfl, rfl, rfl⟩

/-- A job of the scheduler is in a task box. -/
theorem Sim.task {s : Sys} {v : Sched} (h : Sim s v) {t : TaskId} {job : Job}
    (hj : v.jobs t = some job) : ∃ task, s.ex.tasks t = some task ∧ task.job = job := by
  have := h.jobs t
  rw [hj] at this
  exact Option.map_eq_some_iff.mp this

theorem Sim.job {s : Sys} {v : Sched} (h : Sim s v) {t : TaskId}
    (ht : (s.ex.tasks t).isSome) : ∃ job, v.jobs t = some job := by
  obtain ⟨task, htask⟩ := Option.isSome_iff_exists.mp ht
  exact ⟨task.job, by rw [← h.jobs t, htask]; rfl⟩

theorem Sim.no_task {s : Sys} {v : Sched} (h : Sim s v) {t : TaskId} (hj : v.jobs t = none) :
    s.ex.tasks t = none := by
  have := h.jobs t
  rw [hj] at this
  exact Option.map_eq_none_iff.mp this

/-- The box map after one box was written, seen through the scheduler. -/
theorem jobs_update {tasks tasks' : TaskId → Option Task} {jobs : TaskId → Option Job} {t : TaskId}
    {task : Option Task} {job : Option Job} (h : ∀ u, (tasks u).map Task.job = jobs u)
    (htasks : ∀ u, tasks' u = if u = t then task else tasks u) (hjob : task.map Task.job = job)
    (u : TaskId) : (tasks' u).map Task.job = Function.update jobs t job u := by
  rw [htasks u]
  by_cases hu : u = t
  · subst hu
    simp [hjob]
  · simp [hu, h u]

/-- The same when the write left the job what it was. -/
theorem jobs_same {tasks tasks' : TaskId → Option Task} {jobs : TaskId → Option Job} {t : TaskId}
    {task : Task} (h : ∀ u, (tasks u).map Task.job = jobs u)
    (htasks : ∀ u, tasks' u = if u = t then some task else tasks u) (hjob : jobs t = some task.job)
    (u : TaskId) : (tasks' u).map Task.job = jobs u := by
  rw [jobs_update h htasks rfl u, Option.map_some, ← hjob, Function.update_eq_self]

/-- A push in the executor is a push in the scheduler. -/
theorem Sim.push {s : Sys} {v : Sched} (h : Sim s v) (hok : v.Ok) (job : Job) :
    ∃ s', s.push job.fut job.out job.done = some s' ∧ Sim s' (v.push job) := by
  have hfresh : s.nextTask ∉ v.queue := by
    intro hmem
    rw [h.nextTask] at hmem
    exact Nat.lt_irrefl _ (hok.queue_lt _ hmem)
  obtain ⟨ex', hpush, hq, hlive, hpark, htasks⟩ :=
    executorPush_spec h.queue hfresh job.fut job.out job.done
  refine ⟨{ s with ex := ex', flags := writeDone s.flags job.done false,
                   nextTask := s.nextTask + 1, log := s.log ++ [.pushed s.nextTask job.done] },
    by simp [Sys.push, hpush], ?_⟩
  constructor
  case queue => simpa [Sched.push, h.nextTask] using hq
  case jobs =>
    intro u
    rw [h.nextTask] at htasks
    exact jobs_update h.jobs htasks rfl u
  case live => simp [Sched.push, hlive, h.live]
  case park => simp [Sched.push, hpark, h.park]
  case flags => simp [Sched.push, h.flags]
  case pc => exact h.pc
  case nextTask => simp [Sched.push, h.nextTask]
  case nextFrame => exact h.nextFrame
  case log => simp [Sched.push, h.nextTask, h.log]

theorem Sim.stop {s : Sys} {v : Sched} (h : Sim s v) (c : Caller) (why : Event) :
    Sim (s.stop c why) (v.stop c why) :=
  ⟨h.queue, h.jobs, h.live, h.park, h.flags, rfl, h.nextTask, h.nextFrame, by
    simp [Sys.stop, Sched.stop, h.log, h.flags]⟩

theorem Sim.setPc {s : Sys} {v : Sched} (h : Sim s v) (pc : Pc) (evs : List Event) :
    Sim { s with pc, log := s.log ++ evs } { v with pc, log := v.log ++ evs } :=
  ⟨h.queue, h.jobs, h.live, h.park, h.flags, rfl, h.nextTask, h.nextFrame, by simp [h.log]⟩

theorem Sim.emit {s : Sys} {v : Sched} (h : Sim s v) (evs : List Event) :
    Sim { s with log := s.log ++ evs } { v with log := v.log ++ evs } :=
  ⟨h.queue, h.jobs, h.live, h.park, h.flags, h.pc, h.nextTask, h.nextFrame, by simp [h.log]⟩

/-- `executor_drive` between two polls refines the scheduler. -/
theorem Sim.drive {s s' : Sys} {v : Sched} (h : Sim s v) {c : Caller} (hpc : v.pc = .drive c)
    (hs : s' = s.orCrash (s.drive c)) : ∃ v', Sched.Step v .drive v' ∧ Sim s' v' := by
  subst hs
  have hempty := h.queue.isEmpty_iff
  cases hq : v.queue with
  | nil =>
      have he : isEmpty s.ex.links .ready = true := hempty.mpr hq
      by_cases hlive : v.live = 0
      · refine ⟨_, .stop hpc hq (.inl hlive), ?_⟩
        simpa [Sys.orCrash, Sys.drive, he, h.live, hlive] using h.stop c .stopped
      · cases hpark : v.park with
        | false =>
            refine ⟨_, .stop hpc hq (.inr hpark), ?_⟩
            simpa [Sys.orCrash, Sys.drive, he, h.live, hlive, h.park, hpark]
              using h.stop c .stopped
        | true =>
            refine ⟨_, .park hpc hq hlive hpark, ?_⟩
            simpa [Sys.orCrash, Sys.drive, he, h.live, hlive, h.park, hpark]
              using h.setPc (.parked c) [.parked]
  | cons t q =>
      have hqueue : Queue s.ex (t :: q) := hq ▸ h.queue
      have he : isEmpty s.ex.links .ready = false := by
        rw [Bool.eq_false_iff, Ne, hempty, hq]
        simp
      cases hjob : v.jobs t with
      -- a task without a box is in the queue: the executor follows a dangling pointer
      | none =>
          refine ⟨_, .crash hpc hq hjob, ?_⟩
          have hnone := popReady_none hqueue (h.no_task hjob)
          simp only [Sys.orCrash, Sys.drive, he, hnone]
          exact ⟨h.queue, h.jobs, h.live, h.park, h.flags, rfl, h.nextTask, h.nextFrame, h.log⟩
      | some job =>
          refine ⟨_, .poll hpc hq hjob, ?_⟩
          obtain ⟨task, htask, hjt⟩ := h.task hjob
          obtain ⟨ex', hpop, hq', hlive, hpark, htasks⟩ := popReady_spec hqueue htask
          simp only [Sys.orCrash, Sys.drive, he, hpop]
          exact ⟨hq', jobs_same h.jobs htasks (by rw [hjob, ← hjt]; rfl), hlive.trans h.live,
            hpark.trans h.park, h.flags, rfl, h.nextTask, h.nextFrame, by simp [h.log]⟩

/-- `cexec_executor_spawn` refines the scheduler. -/
theorem Sim.spawn {s : Sys} {v : Sched} (h : Sim s v) (hok : v.Ok) (fut : FutId) (ok : Bool)
    (hpc : v.pc.outside = true) :
    ∃ v', Sched.Step v (.spawn fut ok) v' ∧ Sim (s.orCrash (s.spawn fut ok)) v' := by
  cases ok with
  | true =>
      obtain ⟨s₁, hpush, hsim⟩ := h.push hok ⟨fut, none, none⟩
      have hspawn : s.spawn fut true = some s₁ := hpush
      exact ⟨_, .spawn hpc, by rwa [Sys.orCrash, hspawn]⟩
  | false => exact ⟨_, .spawn_fails hpc, h.emit [.rejected fut]⟩

/-- A new frame of `block_on`. -/
theorem Sim.openFrame {s : Sys} {v : Sched} (h : Sim s v) :
    Sim { s with nextFrame := s.nextFrame + 1,
                 flags := Function.update s.flags s.nextFrame false } v.openFrame :=
  ⟨h.queue, h.jobs, h.live, h.park, by simp [Sched.openFrame, h.flags, h.nextFrame], h.pc,
    h.nextTask, by simp [Sched.openFrame, h.nextFrame], h.log⟩

/-- `cexec_executor_block_on` refines the scheduler: the frame is opened in both, then the push is a
    push. -/
theorem Sim.blockOn {s : Sys} {v : Sched} (h : Sim s v) (hok : v.Ok) (fut : FutId)
    (out : Option Nat) (ok : Bool) (hpc : v.pc = .idle) :
    ∃ v', Sched.Step v (.blockOn fut out ok) v' ∧ Sim (s.orCrash (s.blockOn fut out ok)) v' := by
  have hframe := h.openFrame
  cases ok with
  | true =>
      have hok' : v.openFrame.Ok := ⟨hok.queue_lt, hok.jobs_lt, hok.polling, hok.dropping⟩
      obtain ⟨s₁, hpush, hsim⟩ := hframe.push hok' ⟨fut, out, some v.nextFrame⟩
      rw [← h.nextFrame] at hpush
      refine ⟨_, .blockOn hpc, ?_⟩
      simp only [Sys.orCrash, Sys.blockOn, if_true, hpush, Option.bind_eq_bind,
        Option.bind_some, Option.pure_def, Option.getD_some]
      rw [h.nextFrame]
      simpa using hsim.setPc (.drive (.blockOn v.nextFrame)) []
  | false =>
      refine ⟨_, .blockOn_fails hpc, ?_⟩
      have hemit := hframe.emit [.rejected fut, .returned v.nextFrame false]
      rw [← h.nextFrame] at hemit ⊢
      exact hemit

/-- `task_wake` refines the scheduler. -/
theorem Sim.wake {s : Sys} {v : Sched} (h : Sim s v) {t : TaskId} (ht : (s.ex.tasks t).isSome)
    (hpc : v.pc.outside = true) :
    ∃ v', Sched.Step v (.wake t) v' ∧ Sim (s.orCrash (s.wake t)) v' := by
  obtain ⟨job, hjob⟩ := h.job ht
  obtain ⟨task, htask, hjt⟩ := h.task hjob
  obtain ⟨ex', hwake, hq, hlive, hpark, htasks⟩ := taskWake_spec h.queue htask
  refine ⟨_, .wake hpc hjob, ?_⟩
  simp only [Sys.orCrash, Sys.wake, hwake]
  exact ⟨hq, jobs_same h.jobs htasks (by rw [hjob, ← hjt]; rfl), hlive.trans h.live,
    hpark.trans h.park, h.flags, h.pc, h.nextTask, h.nextFrame, by simp [h.log]⟩

/-- What `executor_drive` does with a task that is `Ready` refines the scheduler. -/
theorem Sim.ready {s : Sys} {v : Sched} (h : Sim s v) (hok : v.Ok) {c : Caller} {t : TaskId}
    (hpc : v.pc = .polling c t) :
    ∃ v', Sched.Step v .answerReady v' ∧ Sim (s.orCrash (s.ready c t)) v' := by
  obtain ⟨job, hjob⟩ := Option.isSome_iff_exists.mp (hok.polling c t hpc)
  obtain ⟨task, htask, hjt⟩ := h.task hjob
  obtain ⟨ex', hunl, hq, hlive, hpark, htasks⟩ := unlinkQueued_spec h.queue htask
  have hself : ex'.tasks t = some { task with queued := false } := by
    rw [htasks, if_pos rfl]
  have hdone : task.done = job.done := by rw [← hjt]; rfl
  refine ⟨_, .ready hpc hjob, ?_⟩
  simp only [Sys.orCrash, Sys.ready, hunl, hself, Option.bind_eq_bind, Option.bind_some,
    Option.pure_def, Option.getD_some]
  exact ⟨hq, jobs_same h.jobs htasks (by rw [hjob, ← hjt]; rfl), hlive.trans h.live,
    hpark.trans h.park, by simp [h.flags, hdone], rfl, h.nextTask, h.nextFrame,
    by simp [h.log, hdone]⟩

/-- So does the free of its box. -/
theorem Sim.finish {s : Sys} {v : Sched} (h : Sim s v) {c : Caller} {t : TaskId}
    (hpc : v.pc = .dropping c t) : ∃ v', Sched.Step v .dropped v' ∧ Sim (s.finish c t) v' := by
  obtain ⟨hq, hlive, hpark, htasks⟩ := freeTask_spec h.queue t
  exact ⟨_, .freed hpc, hq, jobs_update h.jobs htasks rfl, by simp [Sys.finish, hlive, h.live],
    hpark.trans h.park, h.flags, rfl, h.nextTask, h.nextFrame, by simp [Sys.finish, h.log]⟩

/-- **The executor refines the scheduler.** Every step of the executor is a step of the
    scheduler. -/
theorem sim_step {s s' : Sys} {v : Sched} {a : Act} (h : Sim s v) (hok : v.Ok)
    (hs : step s a = some s') : ∃ v', Sched.Step v a v' ∧ Sim s' v' := by
  have hpc := h.pc
  cases a with
  | setPark b =>
      cases hp : s.pc <;> rw [hp] at hpc <;> simp [step, hp] at hs
      subst hs
      exact ⟨_, .setPark b hpc.symm, ⟨h.queue.ring, h.queue.queued⟩, h.jobs, h.live, rfl, h.flags,
        hp ▸ hpc, h.nextTask, h.nextFrame, h.log⟩
  | spawn fut ok =>
      -- the position of the code is that of the scheduler, so both may spawn
      simp only [step, Option.ite_none_right_eq_some, Option.some.injEq] at hs
      obtain ⟨hout, rfl⟩ := hs
      exact h.spawn hok fut ok (hpc ▸ hout)
  | run =>
      cases hp : s.pc <;> rw [hp] at hpc <;> simp [step, hp] at hs
      subst hs
      exact ⟨_, .run hpc.symm, by simpa using h.setPc (.drive .run) []⟩
  | blockOn fut out ok =>
      cases hp : s.pc <;> rw [hp] at hpc <;> simp [step, hp] at hs
      subst hs
      exact h.blockOn hok fut out ok hpc.symm
  | wake t =>
      simp only [step, Option.ite_none_right_eq_some, Option.some.injEq] at hs
      obtain ⟨⟨hout, ht⟩, rfl⟩ := hs
      exact h.wake ht (hpc ▸ hout)
  | drive =>
      cases hp : s.pc <;> rw [hp] at hpc <;> simp [step, hp] at hs
      exact h.drive hpc.symm hs.symm
  | answerPending =>
      cases hp : s.pc <;> rw [hp] at hpc <;> simp [step, hp] at hs
      subst hs
      exact ⟨_, .pended hpc.symm, h.setPc _ [_]⟩
  | answerReady =>
      cases hp : s.pc with
      | polling c t =>
          rw [hp] at hpc
          simp only [step, hp, Option.some.injEq] at hs
          subst hs
          exact h.ready hok hpc.symm
      | _ => simp [step, hp] at hs
  | dropped =>
      cases hp : s.pc with
      | dropping c t =>
          rw [hp] at hpc
          simp only [step, hp, Option.some.injEq] at hs
          subst hs
          exact h.finish hpc.symm
      | _ => simp [step, hp] at hs
  | parkReturns b =>
      cases hp : s.pc with
      | parked c =>
          rw [hp] at hpc
          cases b with
          | true =>
              simp only [step, hp, Option.some.injEq] at hs
              subst hs
              exact ⟨_, .resumed hpc.symm, h.setPc _ [_]⟩
          | false =>
              simp only [step, hp, Option.some.injEq] at hs
              subst hs
              exact ⟨_, .stalled hpc.symm, h.stop c .stalled⟩
      | _ => cases b <;> simp [step, hp] at hs

/-- An invariant of the scheduler holds of every run of the executor. Of runs whose steps all meet a
    condition, the scheduler's steps meet what it amounts to there. -/
theorem runIn_sched {P : Sys → Act → Prop} {Q : Sched → Act → Prop} {I : Sched → Prop}
    (hPQ : ∀ s v a, Sim s v → P s a → Q v a) (hinit : I Sched.init)
    (hstep : ∀ v a v', v.Ok → I v → Q v a → Sched.Step v a v' → I v') {as : List Act} {s : Sys}
    (h : Machine.RunIn step P Sys.init as s) : ∃ v, Sim s v ∧ v.Ok ∧ I v := by
  refine h.invariant (I := fun s => ∃ v, Sim s v ∧ v.Ok ∧ I v) ?_
    ⟨_, sim_init, Sched.ok_init, hinit⟩
  rintro s a s' ⟨v, hsim, hok, hI⟩ hP hs
  obtain ⟨v', hv, hsim'⟩ := sim_step hsim hok hs
  exact ⟨v', hsim', hok.step hv, hstep v a v' hok hI (hPQ s v a hsim hP) hv⟩

end CustLib.Exec
