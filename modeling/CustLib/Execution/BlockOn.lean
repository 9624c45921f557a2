import CustLib.Lib.History
import CustLib.Execution.Records

/-!
# What `block_on` leaves behind

`cexec_executor_block_on` hands the address of its local `done` (and its caller's `out`) to a task
on the heap. If the executor goes idle first, the call returns and the task stays, with both
pointers in it: a later run that completes the task writes through them (`dangling_return`). In runs
in which a call returns only after its future has answered `Ready`, nothing of a call is left behind
(`block_on_leaves_nothing`); any other return leaves a task with a pointer into the frame
(`return_dangles_iff`).
-/

namespace CustLib.Exec

open CustLib.ListHead
open CustLib.History (append_eq_split)

/-! ## Returns

A `block_on` call returns where `executor_drive` does: when no task is live, when the queue is empty and
there is no park hook, or when the hook has answered `false`. Only the first of them means that its
future has answered.
-/

/-- On whose behalf `executor_drive` runs. -/
def Pc.caller : Pc → Option Caller
  | .drive c | .polling c _ | .dropping c _ | .parked c => some c
  | .idle | .crashed => none

/-- The step lets the `block_on` call with the frame `f` return. -/
def Sys.Returns (s : Sys) (a : Act) (f : FrameId) : Prop :=
  (a = .drive ∧ s.pc = .drive (.blockOn f) ∧ isEmpty s.ex.links .ready = true ∧
      (s.ex.live = 0 ∨ s.ex.park = false)) ∨
    a = .parkReturns false ∧ s.pc = .parked (.blockOn f)

/-- A `block_on` call that returns in this step has had its future's `Ready`. -/
def ReturnsAnswered (s : Sys) (a : Act) : Prop :=
  ∀ f, s.Returns a f → ∀ t, .pushed t (some f) ∈ s.log → .ready t ∈ s.log

namespace Sched

def Returns (v : Sched) (a : Act) (f : FrameId) : Prop :=
  (a = .drive ∧ v.pc = .drive (.blockOn f) ∧ v.queue = [] ∧ (v.live = 0 ∨ v.park = false)) ∨
    a = .parkReturns false ∧ v.pc = .parked (.blockOn f)

def ReturnsAnswered (v : Sched) (a : Act) : Prop :=
  ∀ f, v.Returns a f → ∀ t, .pushed t (some f) ∈ v.log → .ready t ∈ v.log

theorem returns_sched {s : Sys} {v : Sched} (h : Sim s v) (a : Act) (f : FrameId) :
    s.Returns a f ↔ v.Returns a f := by
  rw [Sys.Returns, Returns, h.pc, h.live, h.park, h.queue.isEmpty_iff]

theorem returnsAnswered_sched {s : Sys} {v : Sched} {a : Act} (h : Sim s v)
    (hs : Exec.ReturnsAnswered s a) : v.ReturnsAnswered a := by
  intro f hf t ht
  rw [← h.log] at ht ⊢
  exact hs f ((returns_sched h a f).mpr hf) t ht

/-! ## Frames and tasks

The invariants of the scheduler that tie a frame to the task that was pushed for it: the flag is written
at the `Ready` of this task and at no other time, and when the call has returned the task was freed
before.
-/

/-- A `done` flag is written right after the `Ready` of the task it was handed to. -/
def Written (v : Sched) : Prop :=
  ∀ pre f post, v.log = pre ++ .setDone f :: post →
    ∃ t pre', pre = pre' ++ [.ready t] ∧ .pushed t (some f) ∈ pre'

structure Closed (v : Sched) : Prop where
  caller_lt   : ∀ f, v.pc.caller = some (.blockOn f) → f < v.nextFrame
  returned_lt : ∀ f b, .returned f b ∈ v.log → f < v.nextFrame
  answered    : ∀ pre f b post t, v.log = pre ++ .returned f b :: post →
    .pushed t (some f) ∈ v.log → .freed t ∈ pre

theorem written_init : Written init := fun _ _ _ h => by simp [init] at h

theorem closed_init : Closed init where
  caller_lt   := nofun
  returned_lt := fun _ _ h => nomatch h
  answered    := fun _ _ _ _ _ h => by simp [init] at h

/-- A step that writes no flag. -/
theorem Written.of_events {v v' : Sched} (h : v.Written) (evs : List Event)
    (hlog : v'.log = v.log ++ evs) (hevs : ∀ f, .setDone f ∉ evs) : v'.Written := by
  intro pre f post hsplit
  rw [hlog] at hsplit
  rcases append_eq_split hsplit with ⟨post', hlog'⟩ | ⟨pre', -, hevs'⟩
  · exact h pre f post' hlog'
  · exact absurd (by simp [hevs']) (hevs f)

theorem setDone_notMem_return {why : Event} (hwhy : ∀ f, why ≠ .setDone f) (flags : FrameId → Bool)
    (c : Caller) (f : FrameId) : .setDone f ∉ why :: returnEvents flags c := by
  cases c <;> simp [returnEvents, (hwhy f).symm]

/-- Every step keeps the order of answers and flags. -/
theorem Written.step {v v' : Sched} {a : Act} (hrec : v.Records) (h : v.Written)
    (hs : Step v a v') : v'.Written := by
  cases hs with
  | setPark b hpc => exact h
  | run hpc => exact h
  | spawn hpc => exact h.of_events _ rfl (by simp)
  | spawn_fails hpc => exact h.of_events _ rfl (by simp)
  | @blockOn fut out hpc =>
      exact h.of_events [.pushed v.nextTask (some v.nextFrame)] rfl (by simp)
  | @blockOn_fails fut out hpc =>
      exact h.of_events [.rejected fut, .returned v.nextFrame false] rfl (by simp)
  | wake hpc hjob => exact h.of_events _ rfl (by simp)
  | poll hpc hq hjob => exact h.of_events _ rfl (by simp)
  | crash hpc hq hjob => exact h
  | stop hpc hq hwhy => exact h.of_events _ rfl (setDone_notMem_return (by simp) _ _)
  | park hpc hq hlive hpark => exact h.of_events _ rfl (by simp)
  | pended hpc => exact h.of_events _ rfl (by simp)
  | @ready c t job hpc hjob =>
      have hpushed := hrec.job_done t job hjob
      intro pre f post hsplit
      have hsplit' : v.log ++ (.ready t :: doneEvents job.done ++ [.dropped t]) =
          pre ++ .setDone f :: post := by
        rw [← hsplit]
        exact (List.append_assoc _ _ _).symm
      rcases append_eq_split hsplit' with ⟨post', hlog⟩ | ⟨pre', rfl, hevs⟩
      · exact h pre f post' hlog
      · -- the write is the one of this answer
        cases hd : job.done with
        | none => simp [hd, doneEvents, List.cons_eq_append_iff] at hevs
        | some g =>
            simp [hd, doneEvents, List.cons_eq_append_iff] at hevs
            obtain ⟨rfl, rfl, -⟩ := hevs
            exact ⟨t, v.log, rfl, hd ▸ hpushed⟩
  | freed hpc => exact h.of_events _ rfl (by simp)
  | resumed hpc => exact h.of_events _ rfl (by simp)
  | stalled hpc => exact h.of_events _ rfl (setDone_notMem_return (by simp) _ _)

/-- What a step must respect to leave nothing of a call behind. -/
theorem Closed.of_events {v v' : Sched} (h : v.Closed) (evs : List Event)
    (hlog : v'.log = v.log ++ evs) (hframe : v.nextFrame ≤ v'.nextFrame)
    (hcaller : ∀ f, v'.pc.caller = some (.blockOn f) → f < v'.nextFrame)
    (hpush : ∀ t f, .pushed t (some f) ∈ evs → v.nextFrame ≤ f)
    (hret : ∀ f b, .returned f b ∈ evs → f < v'.nextFrame ∧
      ∀ t, .pushed t (some f) ∈ v'.log → .freed t ∈ v.log) : v'.Closed := by
  refine ⟨hcaller, ?_, ?_⟩
  · intro f b hmem
    rw [hlog, List.mem_append] at hmem
    rcases hmem with hmem | hmem
    · exact Nat.lt_of_lt_of_le (h.returned_lt f b hmem) hframe
    · exact (hret f b hmem).1
  · intro pre f b post t hsplit hp
    rw [hlog] at hsplit
    rcases append_eq_split hsplit with ⟨post', hlog'⟩ | ⟨pre', rfl, hevs⟩
    · have hlt := h.returned_lt f b (by simp [hlog'])
      rw [hlog, List.mem_append] at hp
      rcases hp with hp | hp
      · exact h.answered pre f b post' t hlog' hp
      · exact absurd (hpush t f hp) (Nat.not_le.mpr hlt)
    · exact List.mem_append_left _ ((hret f b (by simp [hevs])).2 t hp)

/-- A step in one call, or in none, that pushes no task with a frame and does not return. -/
theorem Closed.stay {v v' : Sched} (h : v.Closed) (evs : List Event) (hlog : v'.log = v.log ++ evs)
    (hframe : v'.nextFrame = v.nextFrame) (hcaller : v'.pc.caller = v.pc.caller)
    (hpush : ∀ t f, .pushed t (some f) ∉ evs) (hret : ∀ f b, .returned f b ∉ evs) : v'.Closed := by
  apply h.of_events evs hlog (Nat.le_of_eq hframe.symm)
  · intro f hc
    rw [hframe]
    exact h.caller_lt f (hcaller ▸ hc)
  · exact fun t f hmem => absurd hmem (hpush t f)
  · exact fun f b hmem => absurd hmem (hret f b)

/-- The return of a drive loop: a `block_on` call returns with it. -/
theorem Closed.stop {v : Sched} (h : v.Closed) {c : Caller} {why : Event}
    (hc : v.pc.caller = some c) (hpush : ∀ t f, why ≠ .pushed t (some f))
    (hwhy : ∀ f b, why ≠ .returned f b)
    (hans : ∀ f, c = .blockOn f → ∀ t, .pushed t (some f) ∈ v.log → .freed t ∈ v.log) :
    (v.stop c why).Closed := by
  cases c with
  | run =>
      refine h.of_events _ rfl (Nat.le_refl _) nofun ?_ ?_
      · intro t f hmem
        exact absurd (List.mem_singleton.mp hmem).symm (hpush t f)
      · intro f b hmem
        exact absurd (List.mem_singleton.mp hmem).symm (hwhy f b)
  | blockOn g =>
      have hlog : (v.stop (.blockOn g) why).log = v.log ++ [why, .returned g (v.flags g)] := rfl
      refine h.of_events _ hlog (Nat.le_refl _) nofun ?_ ?_
      · intro t f hmem
        simp [(hpush t f).symm] at hmem
      · intro f b hmem
        simp only [List.mem_cons, (hwhy f b).symm, false_or, Event.returned.injEq,
          List.not_mem_nil, or_false] at hmem
        obtain ⟨rfl, -⟩ := hmem
        refine ⟨h.caller_lt f hc, fun t hp => hans f rfl t ?_⟩
        simpa [hlog, (hpush t f).symm] using hp

/-- A step in which every return has had its answer keeps closed frames closed. -/
theorem Closed.step {v v' : Sched} {a : Act} (hok : v.Ok) (hlife : v.Life) (hrec : v.Records)
    (h : v.Closed) (hans : v.ReturnsAnswered a) (hs : Step v a v') : v'.Closed := by
  -- between two polls, an answered task is gone
  have hfreed : v.pc.completing = none → ∀ t, .ready t ∈ v.log → .freed t ∈ v.log := by
    intro hpc t ht
    have hcount := (hlife.completed hok ht).2
    rw [hpc, if_neg (by simp)] at hcount
    exact List.count_pos_iff.mp (hcount ▸ Nat.one_pos)
  cases hs with
  | setPark b hpc => exact ⟨h.caller_lt, h.returned_lt, h.answered⟩
  | run hpc => exact ⟨by simp [Pc.caller], h.returned_lt, h.answered⟩
  | spawn hpc => exact h.stay _ rfl rfl rfl (by simp) (by simp)
  | spawn_fails hpc => exact h.stay _ rfl rfl rfl (by simp) (by simp)
  | @blockOn fut out hpc =>
      refine h.of_events [.pushed v.nextTask (some v.nextFrame)] rfl (Nat.le_succ _)
        ?_ ?_ (by simp)
      · intro f hc
        obtain rfl : v.nextFrame = f := by simpa [Pc.caller] using hc
        exact Nat.lt_succ_self _
      · intro t f hmem
        obtain ⟨-, rfl⟩ : t = v.nextTask ∧ f = v.nextFrame := by simpa using hmem
        exact Nat.le_refl _
  | @blockOn_fails fut out hpc =>
      refine h.of_events [.rejected fut, .returned v.nextFrame false] rfl (Nat.le_succ _)
        ?_ (by simp) ?_
      · intro f hc
        exact Nat.lt_succ_of_lt (h.caller_lt f hc)
      · intro f b hmem
        obtain ⟨rfl, -⟩ : f = v.nextFrame ∧ b = false := by simpa using hmem
        refine ⟨Nat.lt_succ_self _, fun t hp => ?_⟩
        -- no task was handed this frame
        have hp' : .pushed t (some v.nextFrame) ∈ v.log := by simpa [openFrame] using hp
        exact absurd (hrec.frame_lt t _ hp') (Nat.lt_irrefl _)
  | wake hpc hjob => exact h.stay _ rfl rfl rfl (by simp) (by simp)
  | @poll c t q job hpc hq hjob => exact h.stay _ rfl rfl (by rw [hpc]; rfl) (by simp) (by simp)
  | crash hpc hq hjob => exact ⟨by simp [Pc.caller], h.returned_lt, h.answered⟩
  | @stop c hpc hq hwhy =>
      refine h.stop (by rw [hpc]; rfl) (by simp) (by simp) ?_
      rintro f rfl
      exact fun t ht => hfreed (by rw [hpc]; rfl) t (hans f (.inl ⟨rfl, hpc, hq, hwhy⟩) t ht)
  | @park c hpc hq hlive hpark => exact h.stay _ rfl rfl (by rw [hpc]; rfl) (by simp) (by simp)
  | @pended c t hpc => exact h.stay _ rfl rfl (by rw [hpc]; rfl) (by simp) (by simp)
  | @ready c t job hpc hjob =>
      refine h.stay _ (List.append_assoc _ _ _) rfl (by rw [hpc]; rfl) ?_ ?_
      · cases hd : job.done <;> simp [doneEvents]
      · cases hd : job.done <;> simp [doneEvents]
  | @freed c t hpc => exact h.stay _ rfl rfl (by rw [hpc]; rfl) (by simp) (by simp)
  | @resumed c hpc => exact h.stay _ rfl rfl (by rw [hpc]; rfl) (by simp) (by simp)
  | @stalled c hpc =>
      refine h.stop (by rw [hpc]; rfl) (by simp) (by simp) ?_
      rintro f rfl
      exact fun t ht => hfreed (by rw [hpc]; rfl) t (hans f (.inr ⟨rfl, hpc⟩) t ht)

end Sched

/-! ## After the return

A pointer into a frame that is gone is the defect: it stays in the task box when the call returns
without an answer, and is written through when the task completes later. `NothingLeft` excludes it for
every call of a run.
-/

/-- Once a `block_on` call has returned, no task in the executor holds its `done` pointer, the task
    that was handed its `done` and its `out` is gone and is not polled again, and its flag is not
    written again. -/
def NothingLeft (s : Sys) : Prop :=
  ∀ pre f b post, s.log = pre ++ .returned f b :: post →
    (∀ t task, s.ex.tasks t = some task → task.done ≠ some f) ∧
    (∀ t, .pushed t (some f) ∈ s.log → s.ex.tasks t = none ∧ .polled t ∉ post) ∧
    .setDone f ∉ post

/-- **`block_on` leaves nothing behind, when its future answers first.** In every run in which each
    `block_on` call that returns has had its future's `Ready`, nothing refers to the frame of a call
    that has returned. The condition is exact: a call that returns without the `Ready` leaves a task
    that holds its `done` pointer (`return_dangles_iff`). -/
theorem block_on_leaves_nothing {as : List Act} {s : Sys}
    (h : Machine.RunIn step ReturnsAnswered Sys.init as s) : NothingLeft s := by
  obtain ⟨v, hsim, hok, hlife, hrec, hwritten, hclosed⟩ :=
    runIn_sched (Q := Sched.ReturnsAnswered)
      (I := fun v => v.Life ∧ v.Records ∧ v.Written ∧ v.Closed) (fun _ _ _ => Sched.returnsAnswered_sched)
      ⟨Sched.life_init, Sched.records_init, Sched.written_init, Sched.closed_init⟩
      (fun v a v' hok ⟨hlife, hrec, hwritten, hclosed⟩ hans hs =>
        ⟨hlife.step hok hs, hrec.step hlife hs, hwritten.step hrec hs,
          hclosed.step hok hlife hrec hans hs⟩) h
  intro pre f b post hlog
  rw [hsim.log] at hlog
  have hfreed : ∀ t, .pushed t (some f) ∈ v.log → .freed t ∈ pre := fun t ht =>
    hclosed.answered pre f b post t hlog ht
  have hgone : ∀ t, .pushed t (some f) ∈ v.log → s.ex.tasks t = none := by
    intro t ht
    have hmem : .freed t ∈ v.log := by simp [hlog, hfreed t ht]
    rw [← Option.map_eq_none_iff (f := Task.job), hsim.jobs t, ← Option.not_isSome_iff_eq_none,
      hlife.isSome_iff hok]
    exact fun hlive => hlive.2 hmem
  refine ⟨?_, ?_, ?_⟩
  · intro t task htask hdone
    have hjob : v.jobs t = some task.job := by rw [← hsim.jobs t, htask]; rfl
    have hpushed := hrec.job_done t task.job hjob
    have hnone := hgone t (by rwa [← hdone])
    rw [htask] at hnone
    exact nomatch hnone
  · intro t ht
    rw [hsim.log] at ht
    refine ⟨hgone t ht, fun hpolled => ?_⟩
    obtain ⟨p₁, p₂, rfl⟩ := List.append_of_mem hpolled
    have hlive := hlife t
    rw [hlog, ← List.cons_append, ← List.append_assoc] at hlive
    exact (ready_notMem_of_live (live_before (.inl rfl) hlive)).2 (by simp [hfreed t ht])
  · intro hset
    obtain ⟨p₁, p₂, rfl⟩ := List.append_of_mem hset
    -- the write follows an answer of the call's task, which was freed before the return
    obtain ⟨t, pre', hpre, hpushed⟩ := hwritten (pre ++ .returned f b :: p₁) f p₂ (by simp [hlog])
    obtain ⟨p₀, rfl⟩ : ∃ p₀, p₁ = p₀ ++ [.ready t] := by
      rcases List.eq_nil_or_concat p₁ with rfl | ⟨p₀, e, rfl⟩
      · simp at hpre
      · rw [List.concat_eq_append, ← List.cons_append, ← List.append_assoc] at hpre
        obtain ⟨-, he⟩ := List.append_inj' hpre rfl
        exact ⟨p₀, by simpa using he⟩
    have hmem : .pushed t (some f) ∈ v.log := by
      have hp : .pushed t (some f) ∈ pre' ++ [.ready t] := List.mem_append_left _ hpushed
      rw [← hpre] at hp
      rw [hlog]
      grind
    have hlive := hlife t
    have hsplit : v.log = (pre ++ .returned f b :: p₀) ++ .ready t :: (.setDone f :: p₂) := by
      simp [hlog]
    rw [hsplit] at hlive
    exact (ready_notMem_of_live (live_before (.inr rfl) hlive)).2 (by simp [hfreed t hmem])

/-- A call whose future answers on the first poll. -/
theorem block_on_leaves_nothing_ready :
    ∃ s, Machine.run step Sys.init
        [.blockOn 5 (some 9) true, .drive, .answerReady, .dropped, .drive] = some s ∧
      s.log = [.pushed 0 (some 0), .polled 0, .ready 0, .setDone 0, .dropped 0, .freed 0, .stopped,
        .returned 0 true] ∧ NothingLeft s := by
  have hpc : ∀ {s : Sys} {a : Act}, s.pc.caller = none ∨ a ≠ .drive ∧ a ≠ .parkReturns false →
      ReturnsAnswered s a := by
    rintro s a h f (⟨rfl, hpc, -⟩ | ⟨rfl, hpc⟩) <;> simp [hpc, Pc.caller] at h
  have h : ∃ s, Machine.RunIn step ReturnsAnswered Sys.init
      [.blockOn 5 (some 9) true, .drive, .answerReady, .dropped, .drive] s ∧
      s.log = [.pushed 0 (some 0), .polled 0, .ready 0, .setDone 0, .dropped 0, .freed 0, .stopped,
        .returned 0 true] := by
    refine ⟨_, .cons (hpc (.inl rfl)) rfl (.cons ?_ rfl (.cons (hpc (.inr (by simp))) rfl
      (.cons (hpc (.inr (by simp))) rfl (.cons ?_ rfl .nil)))), rfl⟩
    · rintro f (⟨-, -, hempty, -⟩ | ⟨hact, -⟩)
      · exact absurd hempty (by decide)
      · exact nomatch hact
    · intro f _ t ht
      have ht' : .pushed t (some f) ∈
          [Event.pushed 0 (some 0), .polled 0, .ready 0, .setDone 0, .dropped 0, .freed 0] := ht
      obtain ⟨rfl, -⟩ : t = 0 ∧ f = 0 := by simpa using ht'
      decide
  obtain ⟨s, hrun, hlog⟩ := h
  exact ⟨s, hrun.run, hlog, block_on_leaves_nothing hrun⟩

/-- **What a stalled return leaves behind.** A call that returns leaves a task with its `done` pointer
    in the executor exactly when its future has not answered. -/
theorem return_dangles_iff {as : List Act} {s s' : Sys} {a : Act} {f : FrameId} {t : TaskId}
    (h : Machine.run step Sys.init as = some s) (hret : s.Returns a f)
    (ht : .pushed t (some f) ∈ s.log) (hs : step s a = some s') :
    (∃ task, s'.ex.tasks t = some task ∧ task.done = some f) ↔ .ready t ∉ s.log := by
  obtain ⟨v, hsim, hok, hlife, hrec⟩ :=
    runIn_sched (Q := fun _ _ => True) (I := fun v => v.Life ∧ v.Records) (fun _ _ _ _ => id)
      ⟨Sched.life_init, Sched.records_init⟩
      (fun v a v' hok ⟨hlife, hrec⟩ _ hs => ⟨hlife.step hok hs, hrec.step hlife hs⟩)
      (Machine.RunIn.of_run h)
  -- the return itself touches no task
  have hpc : v.pc.completing = none := by
    rw [← hsim.pc]
    rcases hret with ⟨-, hpc, -⟩ | ⟨-, hpc⟩ <;> rw [hpc] <;> rfl
  have hsame : s'.ex.tasks = s.ex.tasks := by
    rcases hret with ⟨rfl, hpc, hempty, hwhy⟩ | ⟨rfl, hpc⟩
    · simp only [step, hpc, Option.some.injEq] at hs
      subst hs
      rcases hwhy with hlive | hpark
      · simp [Sys.drive, Sys.orCrash, hempty, hlive, Sys.stop]
      · by_cases hlive : s.ex.live = 0 <;>
          simp [Sys.drive, Sys.orCrash, hempty, hlive, hpark, Sys.stop]
    · simp only [step, hpc, Option.some.injEq] at hs
      subst hs
      rfl
  rw [hsim.log] at ht ⊢
  rw [hsame]
  constructor
  · rintro ⟨task, htask, -⟩ hready
    have hjob : (v.jobs t).isSome := by rw [← hsim.jobs t, htask]; rfl
    have hcount := (hlife.completed hok hready).2
    rw [hpc, if_neg (by simp)] at hcount
    exact ((hlife.isSome_iff hok t).mp hjob).2 (List.count_pos_iff.mp (hcount ▸ Nat.one_pos))
  · intro hready
    have hfreed := List.count_eq_zero.mp (hlife.not_completed hready).2
    have hjob := (hlife.isSome_iff hok t).mpr ⟨hrec.pushed_lt t _ ht, hfreed⟩
    obtain ⟨job, hjob⟩ := Option.isSome_iff_exists.mp hjob
    obtain ⟨task, htask, rfl⟩ := hsim.task hjob
    exact ⟨task, htask, hrec.functional t _ _ (hrec.job_done t _ hjob) ht⟩

/-- A call that stalls, and a later run that completes its task: the flag in the frame of the call is
    written after the call has returned. -/
theorem dangling_return :
    ∃ s, Machine.run step Sys.init
        [.blockOn 5 (some 9) true, .drive, .answerPending, .drive, .wake 0, .run, .drive,
          .answerReady] = some s ∧ ¬ NothingLeft s := by
  have h : Machine.run step Sys.init
      [.blockOn 5 (some 9) true, .drive, .answerPending, .drive, .wake 0, .run, .drive,
        .answerReady] = some _ := rfl
  refine ⟨_, h, fun hleft => ?_⟩
  obtain ⟨-, -, hset⟩ := hleft [.pushed 0 (some 0), .polled 0, .pended 0, .stopped] 0 false
    [.woke 0, .polled 0, .ready 0, .setDone 0, .dropped 0] rfl
  exact hset (by decide)

end CustLib.Exec
