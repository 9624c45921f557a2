import CustLib.Execution.Records
import CustLib.Execution.Wakeups

/-!
# Fair scheduling

How long a task that was woken waits for its poll, and who is polled until then. The ready queue
is first in, first out, and holds a task at most once. So until the task is polled, only tasks that
waited already are, each of them once (`FairService.bypass`): there are fewer such polls than live
tasks (`FairService.bounded`), however often the other tasks wake each other and themselves. And no task
is polled without a wake of its own (`FairService.paid`).
-/

namespace CustLib.Exec

/-! ## What is counted

Polls, requests and live tasks of a history. `FairService` bounds the first in terms of the other two.
-/

def Event.polledTask : Event → Option TaskId
  | .polled t => some t
  | _         => none

def polledTasks (log : List Event) : List TaskId := log.filterMap Event.polledTask

def liveTasks (log : List Event) : List TaskId :=
  (pushedTasks log).filter fun t => .freed t ∉ log

/-- A spawn, or a wake. -/
def Event.isRequest : Event → Bool
  | .pushed _ _ | .woke _ => true
  | _                     => false

/-- What the history says about the time that a task waits for its poll. -/
structure FairService (log : List Event) : Prop where
  /-- While `t` waits, only tasks that waited before are polled, and none of them twice. -/
  bypass : ∀ pre r mid post t, log = pre ++ r :: mid ++ post → r.requests t → .polled t ∉ mid →
    .ready t ∉ mid → (polledTasks mid).Nodup ∧ t ∉ polledTasks mid ∧
      ∀ u ∈ polledTasks mid, Woken pre u
  /-- There are fewer polls than live tasks. -/
  bounded : ∀ pre r mid post t, log = pre ++ r :: mid ++ post → r.requests t → .polled t ∉ mid →
    .ready t ∉ mid → (polledTasks mid).length < (liveTasks (pre ++ [r])).length
  /-- Every poll has a request of its own. -/
  paid : ∀ pre post, log = pre ++ post → (polledTasks pre).length ≤ pre.countP Event.isRequest

theorem polledTasks_eq (log : List Event) : polledTasks log = Fifo.served Event.kind log := by
  unfold polledTasks Fifo.served
  congr 1
  funext e
  cases e <;> rfl

theorem isRequest_eq : Event.isRequest = Fifo.asks Event.kind := by
  funext e
  cases e <;> rfl

theorem mem_polledTasks {log : List Event} {t : TaskId} : t ∈ polledTasks log ↔ .polled t ∈ log := by
  rw [polledTasks_eq, Fifo.mem_served]
  simp [kind_serve]

/-! ## Who is live

A task that was polled or woken had been pushed before and was not freed, so it is among the live ones.
-/

/-- Who has been pushed is in the record. -/
theorem pushed_of_born {log : List Event} {t : TaskId} {ph : Phase}
    (h : Machine.run (lifeStep t) .unborn log = some ph) (hph : ph ≠ .unborn) :
    t ∈ pushedTasks log := by
  induction log using List.reverseRecOn generalizing ph with
  | nil =>
      cases h
      exact absurd rfl hph
  | append_singleton log e ih =>
      obtain ⟨ph₁, h₁, hlast⟩ := Machine.run_concat_iff.mp h
      rw [pushedTasks_append, List.mem_append]
      by_cases hborn : ph₁ = .unborn
      · subst hborn
        rcases lifeStep_cases hlast with ⟨⟨done, rfl⟩, -, -⟩ | ⟨-, hph₁, -⟩ | ⟨-, hph₁, -⟩ |
          ⟨-, hph₁, -⟩ | ⟨rfl, -⟩
        · exact .inr (by simp [pushedTasks, Event.pushedTask])
        · cases hph₁
        · cases hph₁
        · cases hph₁
        · exact absurd rfl hph
      · exact .inl (ih h₁ hborn)

/-- Who is requested is live then. -/
theorem requests_live {pre post : List Event} {r : Event} {t : TaskId} {ph : Phase}
    (h : Machine.run (lifeStep t) .unborn (pre ++ r :: post) = some ph) (hr : r.requests t) :
    t ∈ liveTasks (pre ++ [r]) := by
  obtain ⟨ph₁, h₁, h₂⟩ := Machine.run_split h
  obtain ⟨ph₂, hstep, -⟩ := Option.bind_eq_some_iff.mp h₂
  have hborn : Machine.run (lifeStep t) .unborn (pre ++ [r]) = some ph₂ :=
    Machine.run_concat_iff.mpr ⟨ph₁, h₁, hstep⟩
  have hlive : ph₂ = .live ∨ ph₂ = .completing := by
    cases r with
    | pushed u done =>
        obtain rfl : u = t := hr
        grind [lifeStep]
    | woke u =>
        obtain rfl : u = t := hr
        grind [lifeStep]
    | _ => exact hr.elim
  have hfreed : .freed t ∉ pre ++ [r] := by
    apply List.count_eq_zero.mp
    rw [(phase_counts hborn).2.2]
    rcases hlive with rfl | rfl <;> rfl
  refine List.mem_filter.mpr ⟨pushed_of_born hborn ?_, by simpa using hfreed⟩
  rcases hlive with rfl | rfl <;> decide

/-- Who was woken before and is polled later is live in between. -/
theorem polled_live {pre mid post : List Event} {r : Event} {t : TaskId} {ph : Phase}
    (h : Machine.run (lifeStep t) .unborn (pre ++ r :: mid ++ .polled t :: post) = some ph)
    (hwoken : Woken pre t) : t ∈ liveTasks (pre ++ [r]) := by
  obtain ⟨a, e, b, rfl, he, -⟩ := hwoken
  obtain ⟨-, hfreed⟩ := ready_notMem_of_live (live_before (.inl rfl) h)
  have hpushed : t ∈ pushedTasks (a ++ [e]) := by
    have hrun : Machine.run (lifeStep t) .unborn
        (a ++ e :: (b ++ r :: mid ++ .polled t :: post)) = some ph := by simpa using h
    exact (List.mem_filter.mp (requests_live hrun he)).1
  refine List.mem_filter.mpr ⟨?_, ?_⟩
  · have hsplit : a ++ e :: b ++ [r] = (a ++ [e]) ++ (b ++ [r]) := by simp
    rw [hsplit, pushedTasks_append]
    exact List.mem_append_left _ hpushed
  · have hsplit : a ++ e :: b ++ r :: mid = (a ++ e :: b ++ [r]) ++ mid := by simp
    rw [hsplit] at hfreed
    exact decide_eq_true fun hmem => hfreed (List.mem_append_left _ hmem)

/-! ## Every run

The bounds are those of a first-in first-out queue without duplicates (`CustLib.Lib.Fifo`), for the
history of any run.
-/

/-- The history of a fair queue. -/
theorem fairService_of_order {log : List Event} {q : List TaskId}
    (h : Machine.run (Fifo.step Event.kind) [] log = some q)
    (hlife : ∀ t, ∃ ph, Machine.run (lifeStep t) .unborn log = some ph) : FairService log := by
  have hahead : ∀ pre r mid post t, log = pre ++ r :: mid ++ post → r.requests t →
      .polled t ∉ mid → .ready t ∉ mid → ∃ ahead : List TaskId, (polledTasks mid).Sublist ahead ∧
        ahead.Nodup ∧ t ∉ ahead ∧ ∀ u ∈ ahead, Woken pre u := by
    rintro pre r mid post t rfl hr hpolled hready
    obtain ⟨q₁, h₁, -⟩ := Machine.run_split h
    have hmid : ∀ e ∈ mid, Event.kind e ≠ .serve t ∧ Event.kind e ≠ .leave t := by
      intro e he
      exact ⟨fun hk => hpolled (kind_serve.mp hk ▸ he), fun hk => hready (kind_leave.mp hk ▸ he)⟩
    obtain ⟨ahead, hsub, hnodup, hnot, hwaiting⟩ :=
      Fifo.served_once_ahead h₁ (kind_ask.mpr hr) hmid
    exact ⟨ahead, polledTasks_eq mid ▸ hsub, hnodup, hnot,
      fun u hu => woken_of_waiting (hwaiting u hu)⟩
  have hbypass : ∀ pre r mid post t, log = pre ++ r :: mid ++ post → r.requests t →
      .polled t ∉ mid → .ready t ∉ mid → (polledTasks mid).Nodup ∧ t ∉ polledTasks mid ∧
        ∀ u ∈ polledTasks mid, Woken pre u := by
    intro pre r mid post t hlog hr hpolled hready
    obtain ⟨ahead, hsub, hnodup, hnot, hwoken⟩ := hahead pre r mid post t hlog hr hpolled hready
    exact ⟨hnodup.sublist hsub, fun hmem => hnot (hsub.subset hmem),
      fun u hu => hwoken u (hsub.subset hu)⟩
  constructor
  case bypass => exact hbypass
  case bounded =>
    intro pre r mid post t hlog hr hpolled hready
    obtain ⟨hnodup, hnot, hwoken⟩ := hbypass pre r mid post t hlog hr hpolled hready
    subst hlog
    -- `t` and those that are polled are different live tasks
    have hlive : ∀ u ∈ t :: polledTasks mid, u ∈ liveTasks (pre ++ [r]) := by
      intro u hu
      obtain ⟨ph, hph⟩ := hlife u
      rcases List.mem_cons.mp hu with rfl | hu
      · have hrun : Machine.run (lifeStep u) .unborn (pre ++ r :: (mid ++ post)) = some ph := by
          simpa using hph
        exact requests_live hrun hr
      · obtain ⟨mid₁, mid₂, rfl⟩ := List.append_of_mem (mem_polledTasks.mp hu)
        have hrun : Machine.run (lifeStep u) .unborn
            (pre ++ r :: mid₁ ++ .polled u :: (mid₂ ++ post)) = some ph := by simpa using hph
        exact polled_live hrun (hwoken u hu)
    exact ((List.nodup_cons.mpr ⟨hnot, hnodup⟩).subperm hlive).length_le
  case paid =>
    rintro pre post rfl
    obtain ⟨q₁, h₁, -⟩ := Machine.run_split h
    rw [polledTasks_eq, isRequest_eq]
    exact (Nat.le_add_right _ _).trans (Fifo.served_length_le h₁)

/-- **Tasks wait for a bounded time.** The history of every run of the executor is one of fair
    service. -/
theorem service_fair {as : List Act} {s : Sys} (h : Machine.run step Sys.init as = some s) :
    FairService s.log := by
  obtain ⟨v, hsim, -, hlife, horder⟩ :=
    runIn_sched (Q := fun _ _ => True) (I := fun v => v.Life ∧ v.Order) (fun _ _ _ _ => id)
      ⟨Sched.life_init, Sched.order_init⟩
      (fun v a v' hok ⟨hlife, horder⟩ _ hs => ⟨hlife.step hok hs, horder.step hok hs⟩)
      (Machine.RunIn.of_run h)
  rw [hsim.log]
  exact fairService_of_order horder fun t => ⟨_, hlife t⟩

/-- A task that wakes itself in every poll, beside one that was spawned later. -/
theorem service_fair_self_wake :
    ∃ s, Machine.run step Sys.init
        [.spawn 5 true, .run, .drive, .wake 0, .spawn 6 true, .wake 0, .answerPending, .drive,
          .wake 0, .answerPending, .drive, .answerReady] = some s ∧
      polledTasks s.log = [0, 0, 1] ∧ FairService s.log := by
  have h : Machine.run step Sys.init
      [.spawn 5 true, .run, .drive, .wake 0, .spawn 6 true, .wake 0, .answerPending, .drive,
        .wake 0, .answerPending, .drive, .answerReady] = some _ := rfl
  exact ⟨_, h, rfl, service_fair h⟩

end CustLib.Exec
