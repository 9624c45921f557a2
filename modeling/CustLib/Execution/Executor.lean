import CustLib.Lib.Fifo
import CustLib.Std.ListHead

/-!
# `cust_execution::executor`

The single-threaded run loop. A task is a heap box with an intrusive link; the ready queue is a
`std_list_head` ring of links hanging off the executor. The functions of `executor.c` are split at
the points where control leaves the executor (a poll, a drop, the park hook), and `step` drives the
pieces from what the outside does there: any future may wake any live task, spawn, and answer
`Pending` or `Ready`; the hook may wake any live task and report progress or not.

Futures are opaque pointers here. Task boxes and stack frames are numbered in the order of their
allocation, so a box is never mistaken for a later one. `log` is a history of what happened, which
nothing in the model reads.
-/

namespace CustLib.Exec

open CustLib.Linked CustLib.ListHead
open CustLib.Fifo (enqueue mem_enqueue)

/-! ## The data

Addresses are abstract: a task box, a future and a frame of `block_on` are each a number. The heap of
task boxes is a partial function, and the links of the ready queue are in a heap of their own, over
which the functions of `CustLib.Std.ListHead` work.
-/

/-- A task box (its address). -/
abbrev TaskId := Nat

/-- A future: the `self` pointer of a `cexec_future`. -/
abbrev FutId := Nat

/-- A call of `cexec_executor_block_on`; it owns one stack local, `done`. -/
abbrev FrameId := Nat

/-- The `std_list_head`s of the ready queue: the executor's own and the one in each task. -/
inductive QNode where
  | ready
  | link (t : TaskId)
  deriving DecidableEq, Repr

/-- `struct task`, less its link (which is in the link heap) and its back reference. -/
structure Task where
  fut    : FutId
  out    : Option Nat
  done   : Option FrameId
  queued : Bool
  deriving DecidableEq, Repr

/-- `struct cexec_executor`, with the heap of task boxes it works on. Every counted task occupies
    memory, so `live` stays far below the width of `usize`. -/
structure Executor where
  links : Heap QNode
  tasks : TaskId → Option Task
  live  : Nat
  park  : Bool

/-! ## The functions of the source

`executor.c` in pieces. `task_wake` and `executor_push` are functions of the source; `popReady`,
`unlinkQueued` and `freeTask` are the parts of `executor_drive` between two calls of foreign code. A
pointer that leads nowhere, or into a box that was freed, gives `none`.
-/

def init : Executor where
  links := ListHead.init (fun _ => ⟨none, none⟩) .ready
  tasks := fun _ => none
  live  := 0
  park  := false

def Executor.setTask (ex : Executor) (t : TaskId) (task : Option Task) : Executor :=
  { ex with tasks := Function.update ex.tasks t task }

/-- `task_wake`: put the task back on the ready queue, unless it is already there. -/
def taskWake (ex : Executor) (t : TaskId) : Option Executor := do
  let task ← ex.tasks t
  if task.queued then
    return ex
  let links ← addTail ex.links (.link t) .ready
  return { ex.setTask t (some { task with queued := true }) with links }

/-- `executor_push`, once the allocator has answered with the box `t`. -/
def executorPush (ex : Executor) (t : TaskId) (fut : FutId) (out : Option Nat)
    (done : Option FrameId) : Option Executor := do
  let links ← addTail ex.links (.link t) .ready
  return { ex.setTask t (some ⟨fut, out, done, true⟩) with links, live := ex.live + 1 }

/-- The head of `executor_drive`'s inner loop: take the first node off the ready queue. -/
def popReady (ex : Executor) : Option (TaskId × Executor) := do
  match (← (ex.links .ready).next) with
  | .ready  => none
  | .link t =>
    let links ← del ex.links (.link t)
    let task ← ex.tasks t
    return (t, { ex.setTask t (some { task with queued := false }) with links })

/-- `executor_drive` on a `Ready` answer: a task that re-queued itself during the poll is
    unlinked. -/
def unlinkQueued (ex : Executor) (t : TaskId) : Option Executor := do
  let task ← ex.tasks t
  if task.queued then
    let links ← del ex.links (.link t)
    return { ex.setTask t (some { task with queued := false }) with links }
  return ex

/-- The end of a completion: one task less, and its box is deallocated. -/
def freeTask (ex : Executor) (t : TaskId) : Executor :=
  { ex.setTask t none with live := ex.live - 1 }

/-! ## The ready queue as a sequence

`Queue ex q` connects the ring of links with the list of tasks that it stands for. The `queued` flag of
a task says whether its link is in the ring, which is why a task is queued once at most.
-/

/-- The ready queue holds the tasks of `q` in this order, and a task is in it iff its flag says
    so. -/
structure Queue (ex : Executor) (q : List TaskId) : Prop where
  ring   : IsRing ex.links .ready (q.map .link)
  queued : ∀ t task, ex.tasks t = some task → (task.queued = true ↔ t ∈ q)

theorem Queue.nodup {ex : Executor} {q : List TaskId} (hq : Queue ex q) : q.Nodup :=
  List.Nodup.of_map _ (List.nodup_cons.mp hq.ring.nodup).2

theorem Queue.isEmpty_iff {ex : Executor} {q : List TaskId} (hq : Queue ex q) :
    isEmpty ex.links .ready = true ↔ q = [] := by
  rw [ListHead.isEmpty_iff hq.ring, List.map_eq_nil_iff]

theorem queue_init : Queue init [] where
  ring   := (init_spec _ _).1
  queued := fun _ _ h => nomatch h

@[simp] theorem setTask_tasks (ex : Executor) (t u : TaskId) (task : Option Task) :
    (ex.setTask t task).tasks u = if u = t then task else ex.tasks u := by
  simp [Executor.setTask, Function.update_apply]

/-- A task that is not queued is linked at the end of the queue. -/
theorem addTail_ready {ex : Executor} {q : List TaskId} (hq : Queue ex q) {t : TaskId}
    (ht : t ∉ q) : ∃ links, addTail ex.links (.link t) .ready = some links ∧
      IsRing links .ready ((q ++ [t]).map .link) := by
  have hr : IsRing ex.links .ready (q.map .link ++ []) := by simpa using hq.ring
  obtain ⟨links, hadd, hring, -⟩ :=
    addTail_spec (x := .link t) (n := .ready) hr (by simpa using ht) rfl
  exact ⟨links, hadd, by simpa using hring⟩

/-- A queued task is unlinked from the queue. -/
theorem del_ready {ex : Executor} {q : List TaskId} (hq : Queue ex q) {t : TaskId} (ht : t ∈ q) :
    ∃ links, del ex.links (.link t) = some links ∧
      IsRing links .ready ((q.erase t).map .link) := by
  obtain ⟨q₁, q₂, hnot, rfl, herase⟩ := List.exists_erase_eq ht
  have hr : IsRing ex.links .ready (q₁.map .link ++ .link t :: q₂.map .link) := by
    simpa using hq.ring
  obtain ⟨links, hdel, hring, -, -⟩ := del_spec hr
  refine ⟨links, hdel, ?_⟩
  rw [herase]
  simpa using hring

/-! ## One spec lemma for each function

What each piece does to the sequence: a wake and a push append, a pop takes the head, and the completion
of a task removes it wherever it is. None of them changes another task.
-/

/-- A wake appends its task to the queue, unless it is in it. -/
theorem taskWake_spec {ex : Executor} {q : List TaskId} (hq : Queue ex q) {t : TaskId} {task : Task}
    (ht : ex.tasks t = some task) :
    ∃ ex', taskWake ex t = some ex' ∧ Queue ex' (enqueue q t) ∧ ex'.live = ex.live ∧
      ex'.park = ex.park ∧
        ∀ u, ex'.tasks u = if u = t then some { task with queued := true } else ex.tasks u := by
  by_cases hqd : task.queued = true
  · have htq : t ∈ q := (hq.queued t task ht).mp hqd
    refine ⟨ex, by simp [taskWake, ht, hqd], by simpa [enqueue, htq] using hq, rfl, rfl, ?_⟩
    intro u
    by_cases hu : u = t
    · subst hu
      rw [if_pos rfl, ht, ← hqd]
    · rw [if_neg hu]
  · have htq : t ∉ q := fun hmem => hqd ((hq.queued t task ht).mpr hmem)
    obtain ⟨links, hadd, hring⟩ := addTail_ready hq htq
    refine ⟨{ ex.setTask t (some { task with queued := true }) with links },
      by simp [taskWake, ht, hqd, hadd], ⟨by simpa [enqueue, htq] using hring, ?_⟩, rfl, rfl,
      fun u => setTask_tasks ex t u _⟩
    intro u task' hu
    by_cases hut : u = t
    · subst hut
      simp only [setTask_tasks, if_true, Option.some.injEq] at hu
      subst hu
      simp [mem_enqueue]
    · simp only [setTask_tasks, hut, if_false] at hu
      rw [hq.queued u task' hu, mem_enqueue]
      simp [hut]

/-- A push appends a task that was not in the queue, and counts it. -/
theorem executorPush_spec {ex : Executor} {q : List TaskId} (hq : Queue ex q) {t : TaskId}
    (htq : t ∉ q) (fut : FutId) (out : Option Nat) (done : Option FrameId) :
    ∃ ex', executorPush ex t fut out done = some ex' ∧ Queue ex' (q ++ [t]) ∧
      ex'.live = ex.live + 1 ∧ ex'.park = ex.park ∧
        ∀ u, ex'.tasks u = if u = t then some ⟨fut, out, done, true⟩ else ex.tasks u := by
  obtain ⟨links, hadd, hring⟩ := addTail_ready hq htq
  refine ⟨{ ex.setTask t (some ⟨fut, out, done, true⟩) with links, live := ex.live + 1 },
    by simp [executorPush, hadd], ⟨hring, ?_⟩, rfl, rfl, fun u => setTask_tasks ex t u _⟩
  intro u task hu
  by_cases hut : u = t
  · subst hut
    simp only [setTask_tasks, if_true, Option.some.injEq] at hu
    subst hu
    simp
  · simp only [setTask_tasks, hut, if_false] at hu
    rw [hq.queued u task hu]
    simp [hut]

/-- Clearing the flag of a task that has just been unlinked. -/
theorem queue_unlinked {ex : Executor} {q : List TaskId} (hq : Queue ex q) {t : TaskId}
    (task : Task) {links : Heap QNode}
    (hring : IsRing links .ready ((q.erase t).map .link)) :
    Queue { ex.setTask t (some { task with queued := false }) with links } (q.erase t) := by
  refine ⟨hring, ?_⟩
  intro u task' hu
  by_cases hut : u = t
  · subst hut
    simp only [setTask_tasks, if_true, Option.some.injEq] at hu
    subst hu
    simp [hq.nodup.not_mem_erase]
  · simp only [setTask_tasks, hut, if_false] at hu
    rw [hq.queued u task' hu, List.mem_erase_of_ne hut]

/-- The head of the queue is taken out, and its flag cleared. -/
theorem popReady_spec {ex : Executor} {q : List TaskId} {t : TaskId} (hq : Queue ex (t :: q))
    {task : Task} (ht : ex.tasks t = some task) :
    ∃ ex', popReady ex = some (t, ex') ∧ Queue ex' q ∧ ex'.live = ex.live ∧ ex'.park = ex.park ∧
      ∀ u, ex'.tasks u = if u = t then some { task with queued := false } else ex.tasks u := by
  have hnext : (ex.links .ready).next = some (.link t) := by
    rw [hq.ring.next_anchor]
    rfl
  obtain ⟨links, hdel, hring⟩ := del_ready hq (t := t) (by simp)
  have herase : (t :: q).erase t = q := List.erase_cons_head t q
  refine ⟨{ ex.setTask t (some { task with queued := false }) with links },
    by simp [popReady, hnext, hdel, ht], ?_, rfl, rfl, fun u => setTask_tasks ex t u _⟩
  have := queue_unlinked hq task hring
  rwa [herase] at this

/-- Taking a node whose box is gone off the queue is a use after free. -/
theorem popReady_none {ex : Executor} {q : List TaskId} {t : TaskId} (hq : Queue ex (t :: q))
    (ht : ex.tasks t = none) : popReady ex = none := by
  have hnext : (ex.links .ready).next = some (.link t) := by
    rw [hq.ring.next_anchor]
    rfl
  obtain ⟨links, hdel, -⟩ := del_ready hq (t := t) (by simp)
  simp [popReady, hnext, hdel, ht]

/-- The task is taken out of the queue, wherever it is in it. -/
theorem unlinkQueued_spec {ex : Executor} {q : List TaskId} (hq : Queue ex q) {t : TaskId}
    {task : Task} (ht : ex.tasks t = some task) :
    ∃ ex', unlinkQueued ex t = some ex' ∧ Queue ex' (q.erase t) ∧ ex'.live = ex.live ∧
      ex'.park = ex.park ∧
        ∀ u, ex'.tasks u = if u = t then some { task with queued := false } else ex.tasks u := by
  by_cases hqd : task.queued = true
  · have htq : t ∈ q := (hq.queued t task ht).mp hqd
    obtain ⟨links, hdel, hring⟩ := del_ready hq htq
    exact ⟨{ ex.setTask t (some { task with queued := false }) with links },
      by simp [unlinkQueued, ht, hqd, hdel], queue_unlinked hq _ hring, rfl, rfl,
      fun u => setTask_tasks ex t u _⟩
  · have htq : t ∉ q := fun hmem => hqd ((hq.queued t task ht).mpr hmem)
    refine ⟨ex, by simp [unlinkQueued, ht, hqd], by rwa [List.erase_of_not_mem htq], rfl, rfl, ?_⟩
    intro u
    by_cases hu : u = t
    · subst hu
      have hfalse : task.queued = false := by simpa using hqd
      rw [if_pos rfl, ht, ← hfalse]
    · rw [if_neg hu]

/-- The box is gone, and one task less is counted. -/
theorem freeTask_spec {ex : Executor} {q : List TaskId} (hq : Queue ex q) (t : TaskId) :
    Queue (freeTask ex t) q ∧ (freeTask ex t).live = ex.live - 1 ∧
      (freeTask ex t).park = ex.park ∧
        ∀ u, (freeTask ex t).tasks u = if u = t then none else ex.tasks u := by
  refine ⟨⟨hq.ring, ?_⟩, rfl, rfl, fun u => setTask_tasks ex t u _⟩
  intro u task hu
  by_cases hut : u = t
  · simp [freeTask, hut] at hu
  · simp only [freeTask, setTask_tasks, hut, if_false] at hu
    exact hq.queued u task hu

end CustLib.Exec
