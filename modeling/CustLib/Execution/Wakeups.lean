import CustLib.Execution.Lifecycle

/-!
# Wake-ups

The executor serves wake-ups first in, first out: its history is one that a fair queue accepts
(`order_run`), whatever the futures and the park hook do. From it, `wakeups_served`: no wake-up is
lost, none is served twice, and tasks are polled in the order in which they were first woken.

The one way to lose a wake-up is the park hook's: `executor_drive` takes its `false` for "no
progress" and returns, also when the hook has woken a task (`wakeup_lost_by_park`).
-/

namespace CustLib.Exec

open CustLib.Fifo (enqueue)

/-! ## The history as a service

Spawns and wakes are requests, polls are services, and a completion takes its task out of the queue.
With this reading the history of a run is one that a first-in first-out queue accepts, and the ready
queue is its state.
-/

/-- What an event means to the ready queue. -/
def Event.kind : Event → Fifo.Kind TaskId
  | .pushed t _ => .ask t
  | .woke t     => .ask t
  | .polled t   => .serve t
  | .ready t    => .leave t
  | .parked     => .drained
  | .stopped    => .drained
  | _           => .other

namespace Sched

/-- The history is one of fair service, and leaves the ready queue. -/
def Order (v : Sched) : Prop := Machine.run (Fifo.step Event.kind) [] v.log = some v.queue

theorem order_init : Order init := rfl

/-- New events that the queue accepts. -/
theorem Order.of_events {v v' : Sched} (h : v.Order) (evs : List Event)
    (hlog : v'.log = v.log ++ evs)
    (hevs : Machine.run (Fifo.step Event.kind) v.queue evs = some v'.queue) : v'.Order := by
  rw [Order, hlog, Machine.run_append, h, Option.bind_some, hevs]

theorem order_return (q : List TaskId) {why : Event} (flags : FrameId → Bool) (c : Caller)
    (hwhy : Fifo.step Event.kind q why = some q) :
    Machine.run (Fifo.step Event.kind) q (why :: returnEvents flags c) = some q := by
  rw [Machine.run_cons, hwhy, Option.bind_some]
  cases c <;> rfl

/-- A task box that was just handed out is not in the queue yet. -/
theorem Ok.enqueue_next {v : Sched} (hok : v.Ok) :
    enqueue v.queue v.nextTask = v.queue ++ [v.nextTask] :=
  if_neg fun hmem => Nat.lt_irrefl _ (hok.queue_lt _ hmem)

/-- Every step is a service in order. -/
theorem Order.step {v v' : Sched} {a : Act} (hok : v.Ok) (h : v.Order) (hs : Step v a v') :
    v'.Order := by
  cases hs with
  | setPark b hpc => exact h
  | run hpc => exact h
  | spawn hpc => exact h.of_events _ rfl (congrArg some hok.enqueue_next)
  | spawn_fails hpc => exact h.of_events _ rfl rfl
  | @blockOn fut out hpc =>
      exact h.of_events [.pushed v.nextTask (some v.nextFrame)] rfl
        (congrArg some hok.enqueue_next)
  | @blockOn_fails fut out hpc =>
      exact h.of_events [.rejected fut, .returned v.nextFrame false] rfl rfl
  | wake hpc hjob => exact h.of_events _ rfl rfl
  | poll hpc hq hjob =>
      apply h.of_events _ rfl
      simp [Fifo.step, Event.kind, hq]
  | crash hpc hq hjob => exact h
  | stop hpc hq hwhy =>
      refine h.of_events _ rfl (order_return _ _ _ ?_)
      simp [Fifo.step, Event.kind, hq]
  | park hpc hq hlive hpark =>
      apply h.of_events _ rfl
      simp [Fifo.step, Event.kind, hq]
  | pended hpc => exact h.of_events _ rfl rfl
  | @ready c t job hpc hjob =>
      apply h.of_events _ (List.append_assoc _ _ _)
      cases hd : job.done <;> rfl
  | freed hpc => exact h.of_events _ rfl rfl
  | resumed hpc => exact h.of_events _ rfl rfl
  | stalled hpc => exact h.of_events _ rfl (order_return _ _ _ rfl)

end Sched

/-! ## Wake-ups are served

What follows from the library's results about such queues, in terms of events. The exception is the park
hook: when it has woken a task and answers `false`, `executor_drive` returns although its queue is not
empty.
-/

/-- A request for a poll of `t`: its spawn, or a wake. -/
def Event.requests (t : TaskId) : Event → Prop
  | .pushed u _ => u = t
  | .woke u     => u = t
  | _           => False

def Event.givesUp : Event → Prop
  | .parked | .stopped | .stalled => True
  | _ => False

/-- `t` was woken (or spawned) since its previous poll began. -/
def Woken (log : List Event) (t : TaskId) : Prop :=
  ∃ a r b, log = a ++ r :: b ∧ r.requests t ∧ .polled t ∉ b

structure WakeDiscipline (log : List Event) : Prop where
  /-- A task that is woken, and not completed by the poll it is woken in, is polled again before
      `executor_drive` parks or returns. Not promised a poll is who is woken inside a call of the
      park hook that reports no progress: this return does not wait for an earlier park. -/
  served : ∀ pre t mid e post, log = pre ++ .woke t :: mid ++ e :: post → e.givesUp →
    (e = .stalled → .parked ∈ mid) → .ready t ∉ pre ++ mid → .polled t ∈ mid
  /-- A task is polled again only if it was woken in between: many wakes, one poll. -/
  woken : ∀ pre t mid post, log = pre ++ .polled t :: mid ++ .polled t :: post → .woke t ∈ mid
  /-- Tasks are polled in the order of their first requests: when `r` is the first request of `t`
      since its previous poll, and `u` has been woken before it and is not polled yet, then `u` is
      polled before `t` is. -/
  fifo : ∀ pre r mid t u post, log = pre ++ r :: mid ++ .polled t :: post → r.requests t →
    ¬ Woken pre t → Woken pre u → .ready u ∉ pre ++ mid → .polled u ∈ mid

theorem kind_ask {e : Event} {t : TaskId} : e.kind = .ask t ↔ e.requests t := by
  cases e <;> simp [Event.kind, Event.requests]

theorem kind_serve {e : Event} {t : TaskId} : e.kind = .serve t ↔ e = .polled t := by
  cases e <;> simp [Event.kind]

theorem kind_leave {e : Event} {t : TaskId} : e.kind = .leave t ↔ e = .ready t := by
  cases e <;> simp [Event.kind]

theorem woken_of_waiting {log : List Event} {t : TaskId}
    (h : Fifo.Waiting Event.kind log t) : Woken log t := by
  obtain ⟨a, r, b, hlog, hr, hb⟩ := h
  exact ⟨a, r, b, hlog, kind_ask.mp hr, fun hmem => (hb _ hmem).1 (kind_serve.mpr rfl)⟩

/-- Until its future has answered, only polls count. -/
theorem Woken.waiting {log : List Event} {t : TaskId} (h : Woken log t) (ht : .ready t ∉ log) :
    Fifo.Waiting Event.kind log t := by
  obtain ⟨a, r, b, rfl, hr, hb⟩ := h
  refine ⟨a, r, b, rfl, kind_ask.mpr hr, fun e he => ⟨?_, ?_⟩⟩
  · exact fun hk => hb (kind_serve.mp hk ▸ he)
  · exact fun hk => ht (by simp [← kind_leave.mp hk, he])

/-- The wake-up discipline of a history that a fair queue accepts. -/
theorem wakeDiscipline_of_order {log : List Event} {q : List TaskId}
    (h : Machine.run (Fifo.step Event.kind) [] log = some q)
    (hlife : ∀ t, ∃ ph, Machine.run (lifeStep t) .unborn log = some ph) : WakeDiscipline log := by
  constructor
  case served =>
    rintro pre t mid e post rfl he hstall hready
    have hleave : ∀ e' ∈ mid, Event.kind e' ≠ .leave t := by
      intro e' he' hk
      exact hready (List.mem_append_right _ (kind_leave.mp hk ▸ he'))
    cases e with
    | parked =>
        obtain ⟨e', he', hk⟩ := Fifo.served_before_drained h rfl rfl hleave
        exact kind_serve.mp hk ▸ he'
    | stopped =>
        obtain ⟨e', he', hk⟩ := Fifo.served_before_drained h rfl rfl hleave
        exact kind_serve.mp hk ▸ he'
    | stalled =>
        -- the wake is older than the park: it was served before that
        obtain ⟨mid₁, mid₂, rfl⟩ := List.append_of_mem (hstall rfl)
        have h' : Machine.run (Fifo.step Event.kind) []
            (pre ++ .woke t :: mid₁ ++ .parked :: (mid₂ ++ .stalled :: post)) = some q := by
          simpa using h
        obtain ⟨e', he', hk⟩ := Fifo.served_before_drained h' rfl rfl
          fun e' he' => hleave e' (List.mem_append_left _ he')
        exact List.mem_append_left _ (kind_serve.mp hk ▸ he')
    | _ => exact absurd he id
  case woken =>
    rintro pre t mid post rfl
    obtain ⟨r, hr, hk⟩ := Fifo.asked_between_serves h rfl rfl
    cases r with
    | woke u =>
        obtain rfl : u = t := kind_ask.mp hk
        exact hr
    | pushed u done =>
        obtain rfl : u = t := kind_ask.mp hk
        -- a second push of the task: it is older than every poll
        obtain ⟨mid₁, mid₂, rfl⟩ := List.append_of_mem hr
        obtain ⟨ph, hph⟩ := hlife u
        have hph' : Machine.run (lifeStep u) .unborn ((pre ++ .polled u :: mid₁) ++
            .pushed u done :: (mid₂ ++ .polled u :: post)) = some ph := by
          simpa using hph
        exact absurd (by simp) (pushed_before_polled hph')
    | _ => simp [Event.kind] at hk
  case fifo =>
    rintro pre r mid t u post rfl hr ht hu hready
    have hready' : .ready u ∉ pre := fun hmem => hready (List.mem_append_left _ hmem)
    have hleave : ∀ e' ∈ mid, Event.kind e' ≠ .leave u := by
      intro e' he' hk
      exact hready (List.mem_append_right _ (kind_leave.mp hk ▸ he'))
    obtain ⟨e, he, hk⟩ := Fifo.served_in_order h (hu.waiting hready')
      (fun hw => ht (woken_of_waiting hw)) (kind_ask.mpr hr) rfl hleave
    exact kind_serve.mp hk ▸ he

/-- **No wake-up is lost, duplicated or reordered.** The history of every run of the executor keeps
    the wake-up discipline. -/
theorem wakeups_served {as : List Act} {s : Sys} (h : Machine.run step Sys.init as = some s) :
    WakeDiscipline s.log := by
  obtain ⟨v, hsim, -, hlife, horder⟩ :=
    runIn_sched (Q := fun _ _ => True) (I := fun v => v.Life ∧ v.Order) (fun _ _ _ _ => id)
      ⟨Sched.life_init, Sched.order_init⟩
      (fun v a v' hok ⟨hlife, horder⟩ _ hs => ⟨hlife.step hok hs, horder.step hok hs⟩)
      (Machine.RunIn.of_run h)
  rw [hsim.log]
  exact wakeDiscipline_of_order horder fun t => ⟨_, hlife t⟩

/-- Two tasks, of which the first wakes itself twice while it is polled. -/
theorem wakeups_served_self_wake :
    ∃ s, Machine.run step Sys.init
        [.spawn 5 true, .spawn 6 true, .run, .drive, .wake 0, .wake 0, .answerPending, .drive,
          .answerPending, .drive, .answerPending, .drive] = some s ∧
      s.log = [.pushed 0 none, .pushed 1 none, .polled 0, .woke 0, .woke 0, .pended 0, .polled 1,
        .pended 1, .polled 0, .pended 0, .stopped] ∧ WakeDiscipline s.log := by
  have h : Machine.run step Sys.init
      [.spawn 5 true, .spawn 6 true, .run, .drive, .wake 0, .wake 0, .answerPending, .drive,
        .answerPending, .drive, .answerPending, .drive] = some _ := rfl
  exact ⟨_, h, rfl, wakeups_served h⟩

/-- A park hook that wakes a task and reports no progress: `executor_drive` returns with the task on
    its queue. -/
theorem wakeup_lost_by_park :
    ∃ s, Machine.run step Sys.init
        [.setPark true, .spawn 5 true, .run, .drive, .answerPending, .drive, .wake 0,
          .parkReturns false] = some s ∧
      ¬ ∀ pre t mid e post, s.log = pre ++ .woke t :: mid ++ e :: post → e.givesUp →
        .ready t ∉ pre ++ mid → .polled t ∈ mid := by
  have h : Machine.run step Sys.init
      [.setPark true, .spawn 5 true, .run, .drive, .answerPending, .drive, .wake 0,
        .parkReturns false] = some _ := rfl
  refine ⟨_, h, fun hserved => ?_⟩
  have hpolled := hserved [.pushed 0 none, .polled 0, .pended 0, .parked] 0 [] .stalled [] rfl
    trivial (by decide)
  exact List.not_mem_nil hpolled

end CustLib.Exec
