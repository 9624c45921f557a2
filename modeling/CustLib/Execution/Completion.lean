import CustLib.Execution.Structure

/-!
# Completing a task

`executor_drive` unlinks a completed task from the ready queue, drops its future and frees its box,
in this order. A wake of the task in the poll is undone by the unlinking; a wake of it in the drop is
not, and leaves a link to a freed box in the queue. `completion_safe`: this is the only way to get
there.
-/

namespace CustLib.Exec

open CustLib.Linked CustLib.ListHead
open CustLib.Fifo (mem_enqueue)

namespace Sched

/-! ## Ghosts in the queue

A task that is gone, or whose box is about to be freed, must not be reachable from the queue. A
scheduler is haunted when one is. Only one step leads there: a wake of a task in its own drop.
-/

/-- The queue holds a task that is gone or on its way out, or such a task was popped. -/
def Haunted (v : Sched) : Prop :=
  v.pc = .crashed ∨ ∃ t ∈ v.queue, v.jobs t = none ∨ v.pc.completing = some t

/-- A dangling link stays in the queue until it is popped. -/
theorem Haunted.step {v v' : Sched} {a : Act} (hok : v.Ok) (h : v.Haunted) (hs : Step v a v') :
    v'.Haunted := by
  rcases h with hcrash | ⟨t, ht, hgone⟩
  · cases hs <;> simp_all [Pc.outside]
  -- outside a drop, the link is to a box that is gone
  have hnone : v.pc.completing = none → v.jobs t = none := by
    intro hc
    simpa [hc] using hgone
  cases hs with
  | setPark b hpc => exact .inr ⟨t, ht, hgone⟩
  | run hpc => exact .inr ⟨t, ht, .inl (hnone (by rw [hpc]; rfl))⟩
  | spawn hpc =>
      have hne : t ≠ v.nextTask := Nat.ne_of_lt (hok.queue_lt t ht)
      exact .inr ⟨t, List.mem_append_left _ ht, by simpa [Sched.push, hne] using hgone⟩
  | spawn_fails hpc => exact .inr ⟨t, ht, hgone⟩
  | blockOn hpc =>
      have hne : t ≠ v.nextTask := Nat.ne_of_lt (hok.queue_lt t ht)
      have hjob := hnone (by rw [hpc]; rfl)
      exact .inr ⟨t, List.mem_append_left _ ht, .inl (by simpa [Sched.push, openFrame, hne])⟩
  | blockOn_fails hpc => exact .inr ⟨t, ht, hgone⟩
  | wake hpc hjob => exact .inr ⟨t, mem_enqueue.mpr (.inl ht), hgone⟩
  | @poll c u q job hpc hq hjob =>
      have hjt := hnone (by rw [hpc]; rfl)
      have htu : t ≠ u := by
        rintro rfl
        simp [hjt] at hjob
      rw [hq] at ht
      exact .inr ⟨t, (List.mem_cons.mp ht).resolve_left htu, .inl hjt⟩
  | crash hpc hq hjob => exact .inl rfl
  | stop hpc hq hwhy => simp [hq] at ht
  | park hpc hq hlive hpark => simp [hq] at ht
  | pended hpc => exact .inr ⟨t, ht, .inl (hnone (by rw [hpc]; rfl))⟩
  | @ready c u job hpc hjob =>
      have hjt := hnone (by rw [hpc]; rfl)
      have htu : t ≠ u := by
        rintro rfl
        simp [hjt] at hjob
      exact .inr ⟨t, (List.mem_erase_of_ne htu).mpr ht, .inl hjt⟩
  | @freed c u hpc =>
      refine .inr ⟨t, ht, .inl ?_⟩
      by_cases htu : t = u
      · simp [htu]
      · have hjt : v.jobs t = none := by
          simpa [hpc, Pc.completing, Ne.symm htu] using hgone
        simpa [htu] using hjt
  | resumed hpc => exact .inr ⟨t, ht, .inl (hnone (by rw [hpc]; rfl))⟩
  | stalled hpc => exact .inr ⟨t, ht, .inl (hnone (by rw [hpc]; rfl))⟩

/-- A drop that wakes its own task puts it back on the queue. -/
theorem Haunted.of_wake {v v' : Sched} {a : Act} (hloud : ¬ QuietDrop v.pc a) (hs : Step v a v') :
    v'.Haunted := by
  simp only [QuietDrop, not_forall, not_not] at hloud
  obtain ⟨t, hc, rfl⟩ := hloud
  cases hs with
  | wake hpc hjob => exact .inr ⟨t, mem_enqueue.mpr (.inr rfl), .inr hc⟩

/-- A tidy scheduler has no ghosts. -/
theorem Tidy.not_haunted {v : Sched} (h : v.Tidy) : ¬ v.Haunted := by
  rintro (hcrash | ⟨t, ht, hnone | hc⟩)
  · exact h.safe hcrash
  · simpa [hnone] using (h.live t ht).1
  · exact (h.live t ht).2 hc

end Sched

/-! ## The executor

The same in terms of pointers. A haunted scheduler stays haunted or has popped the ghost, which is a use
of freed memory; a tidy one never meets it. So the condition is exact.
-/

/-- The ready queue has no link to a task whose box was freed, and no such task was popped. -/
structure CompletionSafe (s : Sys) : Prop where
  unlinked : ∀ t, .freed t ∈ s.log → ¬ Linked.Reaches s.ex.links .ready (.link t)
  unpopped : s.pc ≠ .crashed

/-- The links that the ready queue reaches are those of the scheduler's queue. -/
theorem Sim.reaches_iff {s : Sys} {v : Sched} (h : Sim s v) (t : TaskId) :
    Linked.Reaches s.ex.links .ready (.link t) ↔ t ∈ v.queue := by
  rw [h.queue.ring.reaches_iff]
  simp

/-- A queued task was freed iff the scheduler has no job for it. -/
theorem Sim.freed_iff {s : Sys} {v : Sched} (h : Sim s v) (hok : v.Ok) (hlife : v.Life)
    {t : TaskId} (ht : t ∈ v.queue) : .freed t ∈ s.log ↔ v.jobs t = none := by
  rw [h.log, ← Option.not_isSome_iff_eq_none, hlife.isSome_iff hok]
  simp [hok.queue_lt t ht]

theorem Sim.completionSafe {s : Sys} {v : Sched} (h : Sim s v) (hok : v.Ok) (hlife : v.Life)
    (hclean : ¬ v.Haunted) : CompletionSafe s := by
  constructor
  case unlinked =>
    intro t hfree hreach
    have ht := (h.reaches_iff t).mp hreach
    exact hclean (.inr ⟨t, ht, .inl ((h.freed_iff hok hlife ht).mp hfree)⟩)
  case unpopped => exact fun hcrash => hclean (.inl (h.pc.symm.trans hcrash))

theorem Sim.not_haunted {s : Sys} {v : Sched} (h : Sim s v) (hok : v.Ok) (hlife : v.Life)
    (hpc : s.pc.completing = none) (hsafe : CompletionSafe s) : ¬ v.Haunted := by
  rintro (hcrash | ⟨t, ht, hnone | hc⟩)
  · exact hsafe.unpopped (h.pc.trans hcrash)
  · exact hsafe.unlinked t ((h.freed_iff hok hlife ht).mpr hnone) ((h.reaches_iff t).mpr ht)
  · simp [← h.pc, hpc] at hc

/-- The scheduler behind `s` is in a state that satisfies `P`. -/
def Sys.Behind (P : Sched → Prop) (s : Sys) : Prop := ∃ v, Sim s v ∧ v.Ok ∧ v.Life ∧ P v

/-- What a step of the scheduler keeps, the executor keeps. -/
theorem Sys.Behind.step {P Q : Sched → Prop} {s s' : Sys} {a : Act} (h : s.Behind P)
    (hs : step s a = some s')
    (hPQ : ∀ v v', s.pc = v.pc → v.Ok → P v → Sched.Step v a v' → Q v') : s'.Behind Q := by
  obtain ⟨v, hsim, hok, hlife, hP⟩ := h
  obtain ⟨v', hv, hsim'⟩ := sim_step hsim hok hs
  exact ⟨v', hsim', hok.step hv, hlife.step hok hv, hPQ v v' hsim.pc hok hP hv⟩

/-- **Completing a task is safe iff its drop does not wake it.** In every run in which no future wakes
    its own task while it is dropped, whatever the polls and drops wake besides, the ready queue has
    no link to a freed task in any state reached. Conversely a run that is safe when no drop is
    under way has had no such wake. -/
theorem completion_safe {as : List Act} {s : Sys} (h : Machine.run step Sys.init as = some s) :
    (Machine.RunIn step (fun s a => QuietDrop s.pc a) Sys.init as s → CompletionSafe s) ∧
    (s.pc.completing = none → CompletionSafe s →
      Machine.RunIn step (fun s a => QuietDrop s.pc a) Sys.init as s) := by
  have hinit : Sys.init.Behind Sched.Tidy :=
    ⟨_, sim_init, Sched.ok_init, Sched.life_init, Sched.tidy_init⟩
  have hstep : ∀ s a s', s.Behind Sched.Tidy → QuietDrop s.pc a → step s a = some s' →
      s'.Behind Sched.Tidy := by
    intro s a s' hI hquiet hs
    exact hI.step hs fun v v' hpc hok htidy => htidy.step hok (hpc ▸ hquiet)
  constructor
  · intro hquiet
    obtain ⟨v, hsim, hok, hlife, htidy⟩ := hquiet.invariant hstep hinit
    exact hsim.completionSafe hok hlife htidy.not_haunted
  · intro hpc hsafe
    have hclean : ¬ s.Behind Sched.Haunted := by
      rintro ⟨v, hsim, hok, hlife, hbad⟩
      exact hsim.not_haunted hok hlife hpc hsafe hbad
    -- the first wake in a drop leaves a link that no later step takes away
    refine .of_undamaged hstep ?_ ?_ hinit h hclean
    · intro s a s' hI hloud hs
      exact hI.step hs fun v v' hpc _ _ => .of_wake (hpc ▸ hloud)
    · intro s a s' hbad hs
      exact hbad.step hs fun v v' _ hok hbad => hbad.step hok

/-- The task wakes itself in the poll that completes it: the wake is undone and nothing is left. -/
theorem completion_safe_poll_wake :
    ∃ s, Machine.run step Sys.init
        [.spawn 5 true, .run, .drive, .wake 0, .answerReady, .dropped] = some s ∧
      .freed 0 ∈ s.log ∧ CompletionSafe s := by
  have h : Machine.RunIn step (fun s a => QuietDrop s.pc a) Sys.init
      [.spawn 5 true, .run, .drive, .wake 0, .answerReady, .dropped] _ := .of_guarded rfl
  exact ⟨_, h.run, by decide, (completion_safe h.run).1 h⟩

/-- A future that wakes its own task when it is dropped: the freed box stays linked, and the drain loop
    pops it. -/
theorem drop_wakes_own_task :
    ∃ s s', Machine.run step Sys.init
        [.spawn 5 true, .run, .drive, .answerReady, .wake 0, .dropped] = some s ∧
      .freed 0 ∈ s.log ∧ Linked.Reaches s.ex.links .ready (.link 0) ∧
      step s .drive = some s' ∧ s'.pc = .crashed := by
  have h : Machine.run step Sys.init
      [.spawn 5 true, .run, .drive, .answerReady, .wake 0, .dropped] = some _ := rfl
  refine ⟨_, _, h, by decide, ?_, rfl, rfl⟩
  exact .single rfl

end CustLib.Exec
