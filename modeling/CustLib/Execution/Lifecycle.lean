import Mathlib.Data.Finset.Card
import CustLib.Execution.Sched

/-!
# The life of a task

`lifeStep t` is the life cycle of one task as an automaton over the history: pushed, polled any
number of times, `Ready` once, then dropped, then freed. The history of every run of the executor is
accepted by it for every task, and ends in the phase the scheduler state shows (`life_step`).
From acceptance alone follow the orders and counts of events (`phase_counts`, `live_before`).
-/

namespace CustLib.Exec

/-! ## The automaton

A task passes through its phases in one direction, and may be polled any number of times while it is
live. A history that the automaton accepts has at most one `Ready`, one drop and one release of each
task.
-/

inductive Phase where
  | unborn
  | live
  | answered
  | completing
  | freed
  deriving DecidableEq, Repr

/-- How far a task has come. -/
def Phase.rank : Phase → Nat
  | .unborn     => 0
  | .live       => 1
  | .answered   => 2
  | .completing => 3
  | .freed      => 4

/-- The life cycle of the task `t`: which events its phase admits, and where they lead. Events of
    other tasks do not concern it. -/
def lifeStep (t : TaskId) (ph : Phase) : Event → Option Phase
  | .pushed u _ => if u = t then (if ph = .unborn then some .live else none) else some ph
  | .polled u   => if u = t then (if ph = .live then some .live else none) else some ph
  | .pended u   => if u = t then (if ph = .live then some .live else none) else some ph
  | .woke u     =>
      if u = t then (if ph = .live ∨ ph = .completing then some ph else none) else some ph
  | .ready u    => if u = t then (if ph = .live then some .answered else none) else some ph
  | .dropped u  => if u = t then (if ph = .answered then some .completing else none) else some ph
  | .freed u    => if u = t then (if ph = .completing then some .freed else none) else some ph
  | _           => some ph

/-- An event passes the task on to its next phase, or leaves the phase as it is. -/
theorem lifeStep_cases {t : TaskId} {ph ph' : Phase} {e : Event} (h : lifeStep t ph e = some ph') :
    ((∃ done, e = .pushed t done) ∧ ph = .unborn ∧ ph' = .live) ∨
    (e = .ready t ∧ ph = .live ∧ ph' = .answered) ∨
    (e = .dropped t ∧ ph = .answered ∧ ph' = .completing) ∨
    (e = .freed t ∧ ph = .completing ∧ ph' = .freed) ∨
    (ph' = ph ∧ e ≠ .ready t ∧ e ≠ .dropped t ∧ e ≠ .freed t ∧ (e = .polled t → ph = .live)) := by
  cases e <;> grind [lifeStep]

/-- How often each event of a life cycle has happened, by the phase it led to. -/
theorem phase_counts {t : TaskId} {log : List Event} {ph : Phase}
    (h : Machine.run (lifeStep t) .unborn log = some ph) :
    log.count (.ready t) = (if 2 ≤ ph.rank then 1 else 0) ∧
      log.count (.dropped t) = (if 3 ≤ ph.rank then 1 else 0) ∧
        log.count (.freed t) = (if 4 ≤ ph.rank then 1 else 0) := by
  induction log using List.reverseRecOn generalizing ph with
  | nil =>
      cases h
      simp [Phase.rank]
  | append_singleton log e ih =>
      obtain ⟨ph₁, h₁, hlast⟩ := Machine.run_concat_iff.mp h
      obtain ⟨ih₁, ih₂, ih₃⟩ := ih h₁
      simp only [List.count_append, ih₁, ih₂, ih₃]
      obtain ⟨⟨done, rfl⟩, rfl, rfl⟩ | ⟨rfl, rfl, rfl⟩ | ⟨rfl, rfl, rfl⟩ | ⟨rfl, rfl, rfl⟩ |
        ⟨rfl, hready, hdropped, hfreed, -⟩ := lifeStep_cases hlast
      case inr.inr.inr.inr => simp [hready, hdropped, hfreed]
      all_goals simp [Phase.rank]

/-- A live task has not answered, and so was neither dropped nor freed. -/
theorem ready_notMem_of_live {t : TaskId} {log : List Event}
    (h : Machine.run (lifeStep t) .unborn log = some .live) :
    .ready t ∉ log ∧ .freed t ∉ log := by
  obtain ⟨hready, -, hfreed⟩ := phase_counts h
  exact ⟨List.count_eq_zero.mp hready, List.count_eq_zero.mp hfreed⟩

/-- A task is live where it is polled, and where its future answers `Ready`. -/
theorem live_before {t : TaskId} {e : Event} {pre post : List Event} {ph : Phase}
    (he : e = .polled t ∨ e = .ready t)
    (h : Machine.run (lifeStep t) .unborn (pre ++ e :: post) = some ph) :
    Machine.run (lifeStep t) .unborn pre = some .live := by
  obtain ⟨ph₁, h₁, h₂⟩ := Machine.run_split h
  obtain ⟨ph₂, hstep, -⟩ := Option.bind_eq_some_iff.mp h₂
  obtain rfl : ph₁ = .live := by
    by_contra hne
    rcases he with rfl | rfl <;> simp [lifeStep, hne] at hstep
  exact h₁

/-- A task that was not pushed was not polled. -/
theorem not_polled_unborn {t : TaskId} {log : List Event}
    (h : Machine.run (lifeStep t) .unborn log = some .unborn) : .polled t ∉ log := by
  induction log using List.reverseRecOn with
  | nil => exact List.not_mem_nil
  | append_singleton log e ih =>
      obtain ⟨ph, h₁, hlast⟩ := Machine.run_concat_iff.mp h
      obtain ⟨-, -, heq⟩ | ⟨-, -, heq⟩ | ⟨-, -, heq⟩ | ⟨-, -, heq⟩ | ⟨rfl, -, -, -, hpolled⟩ :=
        lifeStep_cases hlast
      case inr.inr.inr.inr =>
        rw [List.mem_append, List.mem_singleton]
        intro hmem
        rcases hmem with hmem | heq
        · exact ih h₁ hmem
        · exact Phase.noConfusion (hpolled heq.symm)
      -- the other events lead away from `unborn`
      all_goals cases heq

/-- A task is pushed before it is polled. -/
theorem pushed_before_polled {t : TaskId} {done : Option FrameId} {pre post : List Event} {ph : Phase}
    (h : Machine.run (lifeStep t) .unborn (pre ++ .pushed t done :: post) = some ph) :
    .polled t ∉ pre := by
  obtain ⟨ph₁, h₁, h₂⟩ := Machine.run_split h
  obtain ⟨ph₂, hstep, -⟩ := Option.bind_eq_some_iff.mp h₂
  have hunborn : ph₁ = .unborn := by
    by_contra hne
    simp [lifeStep, hne] at hstep
  exact not_polled_unborn (hunborn ▸ h₁)

/-! ## The automaton follows the scheduler

The phase is a function of the scheduler state. Each kind of step has a lemma that says which events it
adds, and the phases before and after it.
-/

def Pc.completing : Pc → Option TaskId
  | .dropping _ t => some t
  | _             => none

theorem Pc.completing_eq_some {pc : Pc} {t : TaskId} :
    pc.completing = some t ↔ ∃ c, pc = .dropping c t := by
  cases pc <;> simp [Pc.completing]

namespace Sched

theorem Ok.completing {v : Sched} (h : v.Ok) {t : TaskId} (hc : v.pc.completing = some t) :
    (v.jobs t).isSome := by
  obtain ⟨c, hpc⟩ := Pc.completing_eq_some.mp hc
  exact h.dropping c t hpc

/-- The phase of a task, as the scheduler state shows it. -/
def phase (v : Sched) (t : TaskId) : Phase :=
  if v.nextTask ≤ t then .unborn
  else if v.jobs t = none then .freed
  else if v.pc.completing = some t then .completing
  else .live

/-- The history is a life cycle of every task, and ends in the phase the state shows. -/
def Life (v : Sched) : Prop := ∀ t, Machine.run (lifeStep t) .unborn v.log = some (v.phase t)

theorem life_init : Life init := fun _ => rfl

/-- A step appends events to the history, and they lead from the old phase to the new one. -/
theorem Life.of_events {v v' : Sched} (h : v.Life) (evs : List Event) (hlog : v'.log = v.log ++ evs)
    (hevs : ∀ t, Machine.run (lifeStep t) (v.phase t) evs = some (v'.phase t)) : v'.Life := by
  intro t
  rw [hlog, Machine.run_append, h t, Option.bind_some, hevs t]

theorem phase_push {v : Sched} (hok : v.Ok) (job : Job) (t : TaskId) :
    lifeStep t (v.phase t) (.pushed v.nextTask job.done) = some ((v.push job).phase t) := by
  by_cases ht : v.nextTask = t
  · subst ht
    have hpc : v.pc.completing ≠ some v.nextTask := fun hc =>
      Nat.lt_irrefl _ (hok.jobs_lt _ (hok.completing hc))
    simp [lifeStep, phase, push, hpc]
  · have hle : v.nextTask + 1 ≤ t ↔ v.nextTask ≤ t :=
      ⟨Nat.le_of_succ_le, fun h => Nat.lt_of_le_of_ne h ht⟩
    have hne : t ≠ v.nextTask := Ne.symm ht
    by_cases hunborn : v.nextTask ≤ t
    · simp [lifeStep, phase, push, ht, hunborn, hle.mpr hunborn]
    · simp [lifeStep, phase, push, ht, hne, hunborn, mt hle.mp hunborn]
      rfl

/-- A live task that is not being completed. -/
theorem phase_live {v : Sched} (hok : v.Ok) {t : TaskId} (hjob : (v.jobs t).isSome)
    (hpc : v.pc.completing ≠ some t) : v.phase t = .live := by
  have ht := hok.jobs_lt t hjob
  have hne : v.jobs t ≠ none := Option.isSome_iff_ne_none.mp hjob
  simp [phase, Nat.not_le.mpr ht, hne, hpc]

theorem phase_completing {v : Sched} (hok : v.Ok) {c : Caller} {t : TaskId}
    (hpc : v.pc = .dropping c t) : v.phase t = .completing := by
  have hjob := hok.dropping c t hpc
  have ht := hok.jobs_lt t hjob
  have hne : v.jobs t ≠ none := Option.isSome_iff_ne_none.mp hjob
  simp [phase, Nat.not_le.mpr ht, hne, hpc, Pc.completing]

/-- The events of a `Ready` answer: the task passes from live to completing. -/
theorem life_ready {t u : TaskId} {ph : Phase} {done : Option FrameId} (hph : t = u → ph = .live) :
    Machine.run (lifeStep u) ph (.ready t :: doneEvents done ++ [.dropped t]) =
      some (if t = u then .completing else ph) := by
  cases done <;> by_cases htu : t = u <;> simp [lifeStep, doneEvents, htu, hph]

/-- The return of a call is no event in the life of a task. -/
theorem life_return {t : TaskId} {ph : Phase} {why : Event} (flags : FrameId → Bool) (c : Caller)
    (hwhy : lifeStep t ph why = some ph) :
    Machine.run (lifeStep t) ph (why :: returnEvents flags c) = some ph := by
  rw [Machine.run_cons, hwhy, Option.bind_some]
  cases c <;> rfl

/-- A live task that is polled, or answers `Pending`, stays live. -/
theorem life_polled {t u : TaskId} {ph : Phase} (hph : t = u → ph = .live) :
    lifeStep u ph (.polled t) = some ph ∧ lifeStep u ph (.pended t) = some ph := by
  by_cases htu : t = u
  · simp [lifeStep, hph htu]
  · simp [lifeStep, htu]

/-- A step that leaves the tasks, and whether one is being completed, leaves the phases. -/
theorem Life.stay {v v' : Sched} (h : v.Life) (hnext : v'.nextTask = v.nextTask)
    (hjobs : v'.jobs = v.jobs) (hpc : v'.pc.completing = v.pc.completing) {evs : List Event}
    (hlog : v'.log = v.log ++ evs)
    (hevs : ∀ t, Machine.run (lifeStep t) (v.phase t) evs = some (v.phase t)) : v'.Life := by
  apply h.of_events evs hlog
  intro t
  rw [hevs t, phase, phase, hnext, hjobs, hpc]

/-- A task that is woken is live, or being completed. -/
theorem phase_woken {v : Sched} (hok : v.Ok) {t : TaskId} (hjob : (v.jobs t).isSome) :
    v.phase t = .live ∨ v.phase t = .completing := by
  by_cases hc : v.pc.completing = some t
  · obtain ⟨c, hpc⟩ := Pc.completing_eq_some.mp hc
    exact .inr (phase_completing hok hpc)
  · exact .inl (phase_live hok hjob hc)

/-- Every step goes on with the life of every task. -/
theorem Life.step {v v' : Sched} {a : Act} (hok : v.Ok) (h : v.Life) (hs : Step v a v') :
    v'.Life := by
  cases hs with
  | setPark b hpc => exact h
  | run hpc =>
      refine h.stay rfl rfl ?_ (List.append_nil _).symm fun _ => rfl
      rw [hpc]
      rfl
  | spawn hpc =>
      apply h.of_events _ rfl
      intro t
      rw [Machine.run_cons, phase_push hok]
      rfl
  | spawn_fails hpc => exact h.stay rfl rfl rfl rfl fun _ => rfl
  | @blockOn fut out hpc =>
      have hok' : v.openFrame.Ok := ⟨hok.queue_lt, hok.jobs_lt, hok.polling, hok.dropping⟩
      apply h.of_events [.pushed v.nextTask (some v.nextFrame)] rfl
      intro t
      have hp := phase_push hok' ⟨fut, out, some v.nextFrame⟩ t
      simp only [Machine.run_cons, Machine.run_nil, Option.bind_fun_some]
      simpa [phase, push, openFrame, hpc, Pc.completing] using hp
  | blockOn_fails hpc => exact h.stay rfl rfl rfl rfl fun _ => rfl
  | @wake t job hpc hjob =>
      -- a wake may come while the future of the task is dropped, too
      refine h.stay rfl rfl rfl rfl fun u => ?_
      have hph := phase_woken hok (t := t) (by simp [hjob])
      by_cases htu : t = u
      · subst htu
        simp only [Machine.run_cons, Machine.run_nil, lifeStep, if_true, hph, Option.bind_some]
      · simp [lifeStep, htu]
  | @poll c t q job hpc hq hjob =>
      refine h.stay rfl rfl ?_ rfl fun u => ?_
      · rw [hpc]
        rfl
      · have hph := phase_live hok (by simp [hjob]) (t := t) (by simp [hpc, Pc.completing])
        rw [Machine.run_cons, (life_polled (by rintro rfl; exact hph)).1]
        rfl
  | crash hpc hq hjob =>
      refine h.stay rfl rfl ?_ (List.append_nil _).symm fun _ => rfl
      rw [hpc]
      rfl
  | stop hpc hq hwhy =>
      refine h.stay rfl rfl ?_ rfl fun t => life_return v.flags _ rfl
      rw [hpc]
      rfl
  | park hpc hq hlive hpark =>
      refine h.stay rfl rfl ?_ rfl fun _ => rfl
      rw [hpc]
      rfl
  | @pended c t hpc =>
      refine h.stay rfl rfl ?_ rfl fun u => ?_
      · rw [hpc]
        rfl
      · have hph := phase_live hok (hok.polling c t hpc) (by simp [hpc, Pc.completing])
        rw [Machine.run_cons, (life_polled (by rintro rfl; exact hph)).2]
        rfl
  | @ready c t job hpc hjob =>
      -- the answer and the drop behind it move `t` on, and no other task
      apply h.of_events _ (List.append_assoc _ _ _)
      intro u
      have hph := phase_live hok (by simp [hjob]) (t := t) (by simp [hpc, Pc.completing])
      have ht := hok.jobs_lt t (by simp [hjob])
      rw [life_ready (by rintro rfl; exact hph)]
      by_cases htu : t = u
      · subst htu
        simp [phase, Pc.completing, Nat.not_le.mpr ht, hjob]
      · simp [phase, hpc, Pc.completing, htu]
  | @freed c t hpc =>
      apply h.of_events _ rfl
      intro u
      have hph := phase_completing hok hpc
      have ht := hok.jobs_lt t (hok.dropping c t hpc)
      by_cases htu : t = u
      · subst htu
        simp only [Machine.run_cons, Machine.run_nil, lifeStep, if_true, hph, Option.bind_some]
        simp [phase, Nat.not_le.mpr ht]
      · have hut : u ≠ t := Ne.symm htu
        simp [lifeStep, htu, hut, phase, hpc, Pc.completing]
  | resumed hpc =>
      refine h.stay rfl rfl ?_ rfl fun _ => rfl
      rw [hpc]
      rfl
  | stalled hpc =>
      refine h.stay rfl rfl ?_ rfl fun t => life_return v.flags _ rfl
      rw [hpc]
      rfl

/-! ## What the phases say about the history

The phase of a task is determined by the counts of its events, so what the history says of a completed
task can be read off: it was polled, answered `Ready` once, was dropped once and freed once, in this
order.
-/

/-- A box is allocated from the push of its task until it is freed. -/
theorem Life.isSome_iff {v : Sched} (hok : v.Ok) (h : v.Life) (t : TaskId) :
    (v.jobs t).isSome ↔ t < v.nextTask ∧ .freed t ∉ v.log := by
  have hcount := (phase_counts (h t)).2.2
  constructor
  · intro hjob
    have ht := hok.jobs_lt t hjob
    have hne : v.jobs t ≠ none := Option.isSome_iff_ne_none.mp hjob
    refine ⟨ht, List.count_eq_zero.mp ?_⟩
    rw [hcount, phase, if_neg (Nat.not_le.mpr ht), if_neg hne]
    split <;> rfl
  · rintro ⟨ht, hfreed⟩
    by_contra hjob
    rw [Option.not_isSome_iff_eq_none] at hjob
    rw [phase, if_neg (Nat.not_le.mpr ht), if_pos hjob, List.count_eq_zero.mpr hfreed] at hcount
    exact absurd hcount (by decide)

/-- The end of a task: once its future has answered `Ready` it is out of the queue, its future is
    dropped once and its box is freed once, as soon as the drop has returned. -/
theorem Life.completed {v : Sched} (hok : v.Ok) (h : v.Life) {t : TaskId}
    (ht : .ready t ∈ v.log) :
    v.log.count (.dropped t) = 1 ∧
      v.log.count (.freed t) = if v.pc.completing = some t then 0 else 1 := by
  obtain ⟨hready, hdropped, hfreed⟩ := phase_counts (h t)
  have hpos : v.log.count (.ready t) ≠ 0 := fun hzero => List.count_eq_zero.mp hzero ht
  rw [hready] at hpos
  rw [hdropped, hfreed]
  by_cases hc : v.pc.completing = some t
  · obtain ⟨c, hpc⟩ := Pc.completing_eq_some.mp hc
    rw [phase_completing hok hpc]
    simp [hc, Phase.rank]
  · unfold phase at hpos ⊢
    split_ifs at hpos ⊢ <;> grind [Phase.rank]

/-- Until its future has answered `Ready`, nothing of a task is dropped or freed. -/
theorem Life.not_completed {v : Sched} (h : v.Life) {t : TaskId} (ht : .ready t ∉ v.log) :
    v.log.count (.dropped t) = 0 ∧ v.log.count (.freed t) = 0 := by
  obtain ⟨hready, hdropped, hfreed⟩ := phase_counts (h t)
  rw [List.count_eq_zero.mpr ht] at hready
  have hrank : (v.phase t).rank < 2 := by
    by_contra hle
    rw [if_pos (Nat.not_lt.mp hle)] at hready
    exact absurd hready (by decide)
  exact ⟨by rw [hdropped, if_neg (by omega)], by rw [hfreed, if_neg (by omega)]⟩

end Sched

end CustLib.Exec
