import CustLib.Execution.Lifecycle

/-!
# What the history records

Two invariants of the scheduler that tie its state to its history. `Tally`: tasks are numbered in
the order of their pushes, and `live` counts the boxes that are allocated. `Records`: a `done`
pointer leads to the frame of the `block_on` call that pushed the task, no two tasks share one, and
the flag of a call whose task has answered is set.
-/

namespace CustLib.Exec

/-! ## Pushed tasks

Task boxes are numbered by their pushes, so the pushes of a history are an initial segment of the
numbers.
-/

def Event.pushedTask : Event → Option TaskId
  | .pushed t _ => some t
  | _           => none

/-- The tasks pushed so far, in the order of their pushes. -/
def pushedTasks (log : List Event) : List TaskId := log.filterMap Event.pushedTask

@[simp] theorem pushedTasks_append (log evs : List Event) :
    pushedTasks (log ++ evs) = pushedTasks log ++ pushedTasks evs := List.filterMap_append

theorem pushedTasks_return {why : Event} (hwhy : why.pushedTask = none) (flags : FrameId → Bool)
    (c : Caller) : pushedTasks (why :: returnEvents flags c) = [] := by
  have hskip : pushedTasks (why :: returnEvents flags c) = pushedTasks (returnEvents flags c) :=
    List.filterMap_cons_none hwhy
  rw [hskip]
  cases c <;> rfl

theorem pushedTasks_ready (t : TaskId) (done : Option FrameId) :
    pushedTasks (.ready t :: doneEvents done ++ [.dropped t]) = [] := by
  cases done <;> rfl

/-- Events that neither push a task nor answer. -/
def Event.plain : Event → Bool
  | .pushed _ _ | .ready _ => false
  | _ => true

/-! ## Counting the live tasks

`live` is a counter in the executor, and the number of task boxes in the model. It goes up in a push and
down in the release of a box.
-/

/-- Giving one box back leaves one task fewer. -/
theorem countP_update {n : Nat} {jobs : TaskId → Option Job} {t : TaskId} (ht : t < n)
    (hjob : (jobs t).isSome) :
    (List.range n).countP (fun u => (Function.update jobs t none u).isSome) =
      (List.range n).countP (fun u => (jobs u).isSome) - 1 := by
  have hperm := List.perm_cons_erase (List.mem_range.mpr ht)
  have hnot : t ∉ (List.range n).erase t := (List.nodup_range).not_mem_erase
  have hrest : ((List.range n).erase t).countP (fun u => (Function.update jobs t none u).isSome) =
      ((List.range n).erase t).countP (fun u => (jobs u).isSome) := by
    apply List.countP_congr
    intro u hu
    have hut : u ≠ t := fun h => hnot (h ▸ hu)
    rw [Function.update_of_ne hut]
  rw [hperm.countP_eq, hperm.countP_eq, List.countP_cons_of_neg (by simp),
    List.countP_cons_of_pos (by simpa using hjob), hrest, Nat.add_sub_cancel]

/-- A push adds one. -/
theorem countP_push {n : Nat} {jobs : TaskId → Option Job} (job : Job) :
    (List.range (n + 1)).countP (fun u => (Function.update jobs n (some job) u).isSome) =
      (List.range n).countP (fun u => (jobs u).isSome) + 1 := by
  have hold : (List.range n).countP (fun u => (Function.update jobs n (some job) u).isSome) =
      (List.range n).countP (fun u => (jobs u).isSome) := by
    apply List.countP_congr
    intro u hu
    have hun : u ≠ n := Nat.ne_of_lt (List.mem_range.mp hu)
    rw [Function.update_of_ne hun]
  rw [List.range_succ, List.countP_append, hold]
  simp

namespace Sched

/-- Tasks are numbered in the order of their pushes, and `live` counts those whose box is
    allocated. -/
structure Tally (v : Sched) : Prop where
  pushed : pushedTasks v.log = List.range v.nextTask
  live   : v.live = (List.range v.nextTask).countP fun t => (v.jobs t).isSome

theorem tally_init : Tally init := ⟨rfl, rfl⟩

/-- A step that neither pushes nor frees a task. -/
theorem Tally.of_same {v v' : Sched} (h : v.Tally) {evs : List Event} (hlog : v'.log = v.log ++ evs)
    (hevs : pushedTasks evs = []) (hnext : v'.nextTask = v.nextTask) (hjobs : v'.jobs = v.jobs)
    (hlive : v'.live = v.live) : v'.Tally where
  pushed := by rw [hlog, pushedTasks_append, hevs, List.append_nil, h.pushed, hnext]
  live   := by rw [hlive, h.live, hnext, hjobs]

theorem Tally.push {v : Sched} (h : v.Tally) (job : Job) : (v.push job).Tally where
  pushed := by
    show pushedTasks (v.log ++ _) = List.range (v.nextTask + 1)
    rw [pushedTasks_append, h.pushed, List.range_succ]
    rfl
  live   := by
    show v.live + 1 = (List.range (v.nextTask + 1)).countP fun u =>
      (Function.update v.jobs v.nextTask (some job) u).isSome
    rw [countP_push, h.live]

/-- Every step keeps the tally. -/
theorem Tally.step {v v' : Sched} {a : Act} (hok : v.Ok) (h : v.Tally) (hs : Step v a v') :
    v'.Tally := by
  cases hs with
  | setPark b hpc => exact ⟨h.pushed, h.live⟩
  | run hpc => exact ⟨h.pushed, h.live⟩
  | spawn hpc => exact h.push _
  | spawn_fails hpc => exact h.of_same rfl rfl rfl rfl rfl
  | blockOn hpc =>
      have hp := Tally.push (v := v.openFrame) ⟨h.pushed, h.live⟩
      exact ⟨(hp _).pushed, (hp _).live⟩
  | blockOn_fails hpc => exact h.of_same rfl rfl rfl rfl rfl
  | wake hpc hjob => exact h.of_same rfl rfl rfl rfl rfl
  | poll hpc hq hjob => exact h.of_same rfl rfl rfl rfl rfl
  | crash hpc hq hjob => exact ⟨h.pushed, h.live⟩
  | stop hpc hq hwhy => exact h.of_same rfl (pushedTasks_return rfl _ _) rfl rfl rfl
  | park hpc hq hlive hpark => exact h.of_same rfl rfl rfl rfl rfl
  | pended hpc => exact h.of_same rfl rfl rfl rfl rfl
  | @ready c t job hpc hjob =>
      exact h.of_same (List.append_assoc _ _ _) (pushedTasks_ready t job.done) rfl rfl rfl
  | @freed c t hpc =>
      have hjob := hok.dropping c t hpc
      refine ⟨?_, ?_⟩
      · show pushedTasks (v.log ++ [.freed t]) = List.range v.nextTask
        rw [pushedTasks_append, h.pushed]
        exact List.append_nil _
      · show v.live - 1 = _
        rw [countP_update (hok.jobs_lt t hjob) hjob, h.live]
  | resumed hpc => exact h.of_same rfl rfl rfl rfl rfl
  | stalled hpc => exact h.of_same rfl (pushedTasks_return rfl _ _) rfl rfl rfl

/-- `live`, read off the history. -/
theorem Tally.live_eq {v : Sched} (hok : v.Ok) (hlife : v.Life) (h : v.Tally) :
    v.live = (pushedTasks v.log).countP fun t => .freed t ∉ v.log := by
  rw [h.live, h.pushed]
  apply List.countP_congr
  intro t ht
  rw [hlife.isSome_iff hok, decide_eq_true_iff]
  exact and_iff_right (List.mem_range.mp ht)

/-! ## Done pointers

A `done` pointer comes from a `block_on` call and is kept in its task until the answer. The history
tells which task was pushed with which pointer.
-/

structure Records (v : Sched) : Prop where
  pushed_lt : ∀ t done, .pushed t done ∈ v.log → t < v.nextTask
  frame_lt  : ∀ t f, .pushed t (some f) ∈ v.log → f < v.nextFrame
  functional : ∀ t d d', .pushed t d ∈ v.log → .pushed t d' ∈ v.log → d = d'
  injective : ∀ t u f, .pushed t (some f) ∈ v.log → .pushed u (some f) ∈ v.log → t = u
  job_done  : ∀ t job, v.jobs t = some job → .pushed t job.done ∈ v.log
  answered  : ∀ t f, .ready t ∈ v.log → .pushed t (some f) ∈ v.log → v.flags f = true

theorem records_init : Records init where
  pushed_lt  := fun _ _ h => nomatch h
  frame_lt   := fun _ _ h => nomatch h
  functional := fun _ _ _ h => nomatch h
  injective  := fun _ _ _ h => nomatch h
  job_done   := fun _ _ h => nomatch h
  answered   := fun _ _ h => nomatch h

/-- A step that neither pushes a task nor answers. -/
theorem Records.of_plain {v v' : Sched} (h : v.Records) (evs : List Event)
    (hlog : v'.log = v.log ++ evs) (hevs : evs.all Event.plain = true)
    (htask : v'.nextTask = v.nextTask) (hframe : v.nextFrame ≤ v'.nextFrame)
    (hjobs : ∀ t job, v'.jobs t = some job → v.jobs t = some job)
    (hflags : ∀ f < v.nextFrame, v'.flags f = v.flags f) : v'.Records := by
  have hpushed : ∀ t d, .pushed t d ∈ v'.log → .pushed t d ∈ v.log := by
    intro t d hmem
    rw [hlog, List.mem_append] at hmem
    exact hmem.resolve_right fun hev => by simpa [Event.plain] using List.all_eq_true.mp hevs _ hev
  have hready : ∀ t, .ready t ∈ v'.log → .ready t ∈ v.log := by
    intro t hmem
    rw [hlog, List.mem_append] at hmem
    exact hmem.resolve_right fun hev => by simpa [Event.plain] using List.all_eq_true.mp hevs _ hev
  constructor
  case pushed_lt => exact fun t d hmem => htask ▸ h.pushed_lt t d (hpushed t d hmem)
  case frame_lt =>
    exact fun t f hmem => Nat.lt_of_lt_of_le (h.frame_lt t f (hpushed t _ hmem)) hframe
  case functional =>
    exact fun t d d' hd hd' => h.functional t d d' (hpushed t d hd) (hpushed t d' hd')
  case injective =>
    exact fun t u f ht hu => h.injective t u f (hpushed t _ ht) (hpushed u _ hu)
  case job_done =>
    intro t job hjob
    rw [hlog]
    exact List.mem_append_left _ (h.job_done t job (hjobs t job hjob))
  case answered =>
    intro t f hr hp
    have hp' := hpushed t _ hp
    rw [hflags f (h.frame_lt t f hp')]
    exact h.answered t f (hready t hr) hp'

/-- A step of which there is nothing in the records. -/
theorem Records.noted {v v' : Sched} (h : v.Records) (evs : List Event)
    (hlog : v'.log = v.log ++ evs) (hevs : evs.all Event.plain = true)
    (htask : v'.nextTask = v.nextTask) (hframe : v'.nextFrame = v.nextFrame)
    (hjobs : v'.jobs = v.jobs) (hflags : v'.flags = v.flags) : v'.Records :=
  h.of_plain evs hlog hevs htask (Nat.le_of_eq hframe.symm) (fun _ _ hjob => hjobs ▸ hjob)
    fun f _ => congrFun hflags f

/-- A step that pushes a task. Its `done` pointer leads to the frame that was just opened. -/
theorem Records.of_push {v v' : Sched} (h : v.Records) (job : Job)
    (hnew : .ready v.nextTask ∉ v.log) (hlog : v'.log = v.log ++ [.pushed v.nextTask job.done])
    (htask : v'.nextTask = v.nextTask + 1) (hframe : v.nextFrame ≤ v'.nextFrame)
    (hdone : ∀ f, job.done = some f → v.nextFrame ≤ f ∧ f < v'.nextFrame)
    (hjobs : v'.jobs = Function.update v.jobs v.nextTask (some job))
    (hflags : ∀ f < v.nextFrame, v'.flags f = v.flags f) : v'.Records := by
  have hpushed : ∀ t d, .pushed t d ∈ v'.log ↔
      .pushed t d ∈ v.log ∨ t = v.nextTask ∧ d = job.done := by
    intro t d
    simp [hlog]
  -- neither the task nor the frame was pushed before
  have hold : ∀ d, .pushed v.nextTask d ∉ v.log := fun d hmem =>
    Nat.lt_irrefl _ (h.pushed_lt _ d hmem)
  have holdf : ∀ t f, job.done = some f → .pushed t (some f) ∉ v.log := fun t f hf hmem =>
    Nat.lt_irrefl _ (Nat.lt_of_lt_of_le (h.frame_lt t f hmem) (hdone f hf).1)
  constructor
  case pushed_lt =>
    intro t d hmem
    rw [htask]
    rcases (hpushed t d).mp hmem with hmem | ⟨rfl, -⟩
    · exact Nat.lt_succ_of_lt (h.pushed_lt t d hmem)
    · exact Nat.lt_succ_self _
  case frame_lt =>
    intro t f hmem
    rcases (hpushed t _).mp hmem with hmem | ⟨-, hf⟩
    · exact Nat.lt_of_lt_of_le (h.frame_lt t f hmem) hframe
    · exact (hdone f hf.symm).2
  case functional =>
    intro t d d' hd hd'
    rcases (hpushed t d).mp hd with hd | ⟨rfl, rfl⟩ <;>
      rcases (hpushed _ d').mp hd' with hd' | ⟨ht', rfl⟩
    · exact h.functional t d d' hd hd'
    · exact absurd (ht' ▸ hd) (hold d)
    · exact absurd hd' (hold d')
    · rfl
  case injective =>
    intro t u f ht hu
    rcases (hpushed t _).mp ht with ht | ⟨rfl, hf⟩ <;>
      rcases (hpushed u _).mp hu with hu | ⟨rfl, hf'⟩
    · exact h.injective t u f ht hu
    · exact absurd ht (holdf t f hf'.symm)
    · exact absurd hu (holdf u f hf.symm)
    · rfl
  case job_done =>
    intro t job' hjob
    rw [hjobs] at hjob
    rw [hpushed]
    by_cases htn : t = v.nextTask
    · subst htn
      rw [Function.update_self, Option.some.injEq] at hjob
      exact .inr ⟨rfl, by rw [hjob]⟩
    · rw [Function.update_of_ne htn] at hjob
      exact .inl (h.job_done t job' hjob)
  case answered =>
    intro t f hr hp
    have hr' : .ready t ∈ v.log := by simpa [hlog] using hr
    rcases (hpushed t _).mp hp with hp | ⟨rfl, -⟩
    · rw [hflags f (h.frame_lt t f hp)]
      exact h.answered t f hr' hp
    · exact absurd hr' hnew

/-- A `Ready` answer: the flag its task points to is set, and no other changes. -/
theorem Records.ready {v v' : Sched} (h : v.Records) {t : TaskId} {job : Job}
    (hjob : v.jobs t = some job)
    (hlog : v'.log = v.log ++ .ready t :: doneEvents job.done ++ [.dropped t])
    (htask : v'.nextTask = v.nextTask) (hframe : v'.nextFrame = v.nextFrame)
    (hjobs : v'.jobs = v.jobs) (hflags : v'.flags = writeDone v.flags job.done true) :
    v'.Records := by
  have hpushed : ∀ u d, .pushed u d ∈ v'.log ↔ .pushed u d ∈ v.log := by
    intro u d
    cases hd : job.done <;> simp [hlog, hd, doneEvents]
  have hready : ∀ u, .ready u ∈ v'.log → .ready u ∈ v.log ∨ u = t := by
    intro u hmem
    cases hd : job.done <;> simpa [hlog, hd, doneEvents] using hmem
  constructor
  case pushed_lt => exact fun u d hmem => htask ▸ h.pushed_lt u d ((hpushed u d).mp hmem)
  case frame_lt => exact fun u f hmem => hframe ▸ h.frame_lt u f ((hpushed u _).mp hmem)
  case functional =>
    exact fun u d d' hd hd' => h.functional u d d' ((hpushed u d).mp hd) ((hpushed u d').mp hd')
  case injective =>
    exact fun u w f hu hw => h.injective u w f ((hpushed u _).mp hu) ((hpushed w _).mp hw)
  case job_done => exact fun u job' hj => (hpushed u _).mpr (h.job_done u job' (hjobs ▸ hj))
  case answered =>
    intro u f hr hp
    have hp' := (hpushed u _).mp hp
    rw [hflags]
    rcases hready u hr with hr | rfl
    · have hold := h.answered u f hr hp'
      cases hd : job.done with
      | none => exact hold
      | some g =>
          by_cases hfg : f = g
          · simp [writeDone, hfg]
          · simpa [writeDone, hfg] using hold
    -- the task that answers was handed `f`, and nothing else
    · rw [h.functional u job.done (some f) (h.job_done u job hjob) hp']
      simp [writeDone]

theorem Life.not_ready_unborn {v : Sched} (h : v.Life) : .ready v.nextTask ∉ v.log := by
  have hcount := (phase_counts (h v.nextTask)).1
  rw [phase, if_pos (Nat.le_refl _)] at hcount
  exact List.count_eq_zero.mp hcount

/-- Every step keeps the records. -/
theorem Records.step {v v' : Sched} {a : Act} (hlife : v.Life) (h : v.Records)
    (hs : Step v a v') : v'.Records := by
  have hnew := hlife.not_ready_unborn
  cases hs with
  | setPark b hpc => exact ⟨h.1, h.2, h.3, h.4, h.5, h.6⟩
  | run hpc => exact ⟨h.1, h.2, h.3, h.4, h.5, h.6⟩
  | spawn hpc =>
      exact h.of_push _ hnew rfl rfl (Nat.le_refl _) (fun _ hf => nomatch hf) rfl fun _ _ => rfl
  | spawn_fails hpc => exact h.noted _ rfl rfl rfl rfl rfl rfl
  | @blockOn fut out hpc =>
      refine h.of_push ⟨fut, out, some v.nextFrame⟩ hnew rfl rfl (Nat.le_succ _) ?_ rfl ?_
      · rintro f hf
        cases hf
        exact ⟨Nat.le_refl _, Nat.lt_succ_self _⟩
      · intro f hf
        have hne : f ≠ v.nextFrame := Nat.ne_of_lt hf
        simp [Sched.push, openFrame, writeDone, hne]
  | @blockOn_fails fut out hpc =>
      refine h.of_plain [.rejected fut, .returned v.nextFrame false] rfl rfl rfl
        (Nat.le_succ _) (fun _ _ => id) fun f hf => ?_
      exact Function.update_of_ne (Nat.ne_of_lt hf) _ _
  | wake hpc hjob => exact h.noted _ rfl rfl rfl rfl rfl rfl
  | poll hpc hq hjob => exact h.noted _ rfl rfl rfl rfl rfl rfl
  | crash hpc hq hjob => exact ⟨h.1, h.2, h.3, h.4, h.5, h.6⟩
  | @stop c hpc hq hwhy => exact h.noted _ rfl (by cases c <;> rfl) rfl rfl rfl rfl
  | park hpc hq hlive hpark => exact h.noted _ rfl rfl rfl rfl rfl rfl
  | pended hpc => exact h.noted _ rfl rfl rfl rfl rfl rfl
  | @ready c t job hpc hjob => exact h.ready hjob rfl rfl rfl rfl rfl
  | @freed c t hpc =>
      refine h.of_plain _ rfl rfl rfl (Nat.le_refl _) ?_ fun _ _ => rfl
      intro u job hu
      by_cases hut : u = t
      · simp [hut] at hu
      · simpa [hut] using hu
  | resumed hpc => exact h.noted _ rfl rfl rfl rfl rfl rfl
  | @stalled c hpc => exact h.noted _ rfl (by cases c <;> rfl) rfl rfl rfl rfl

end Sched

end CustLib.Exec
