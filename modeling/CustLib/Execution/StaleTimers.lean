import CustLib.Execution.Structure
import CustLib.Execution.Timers

/-!
# No stale timer

In every run of the executor over trees of sleeps, yields and values, the pending timers of the
reactor are those of the allocated, armed and not yet fired sleep boxes, and each has the waker of
a live task (`no_stale_timer`). This covers every order in which a sleep may be `Ready`, fire and
be dropped, and also the middle of a poll that does not return.
-/

namespace CustLib.Exec

open CustLib.Machine (run_concat_iff run_append)

/-! ## The executor and its live tasks

What a host needs to know of its executor: which tasks are live, and that a task that is polled or
dropped is one of them. A wake of a live task is safe.
-/

structure Sys.Tidied (s : Sys) (live : List TaskId) : Prop where
  sched : ∃ v, Sim s v ∧ v.Ok ∧ v.Tidy ∧ ∀ t, (v.jobs t).isSome ↔ t ∈ live
  nodup : live.Nodup

namespace Sys.Tidied

variable {s s' : Sys} {live : List TaskId} {a : Act}

theorem init (park : Bool) :
    Tidied ({ Sys.init with ex := { Exec.init with park } } : Sys) [] := by
  obtain ⟨v, hstep, hsim⟩ := sim_step (a := .setPark park) sim_init Sched.ok_init rfl
  have htidy := Sched.tidy_init.step Sched.ok_init nofun hstep
  have hok := Sched.ok_init.step hstep
  cases hstep
  exact ⟨⟨_, hsim, hok, htidy, fun t => by simp [Sched.init]⟩, List.nodup_nil⟩

theorem isSome_iff (h : s.Tidied live) (t : TaskId) : (s.ex.tasks t).isSome ↔ t ∈ live := by
  obtain ⟨v, hsim, -, -, hlive⟩ := h.sched
  rw [← hlive, ← hsim.jobs, Option.isSome_map]

theorem not_crashed (h : s.Tidied live) : s.pc ≠ .crashed := by
  obtain ⟨v, hsim, -, htidy, -⟩ := h.sched
  exact hsim.pc ▸ htidy.safe

theorem next_notMem (h : s.Tidied live) : s.nextTask ∉ live := by
  obtain ⟨v, hsim, hok, -, hlive⟩ := h.sched
  intro hmem
  have hlt := hok.jobs_lt _ ((hlive _).mpr hmem)
  exact Nat.lt_irrefl _ (hsim.nextTask ▸ hlt)

/-- The task that is polled is live. -/
theorem polled_mem (h : s.Tidied live) {c : Caller} {t : TaskId} (hpc : s.pc = .polling c t) :
    t ∈ live := by
  obtain ⟨v, hsim, hok, -, hlive⟩ := h.sched
  exact (hlive t).mp (hok.polling c t (hsim.pc ▸ hpc))

theorem dropped_mem (h : s.Tidied live) {c : Caller} {t : TaskId} (hpc : s.pc = .dropping c t) :
    t ∈ live := by
  obtain ⟨v, hsim, hok, -, hlive⟩ := h.sched
  exact (hlive t).mp (hok.dropping c t (hsim.pc ▸ hpc))

/-- A step that neither pushes nor frees a task. -/
theorem step (h : s.Tidied live) (hs : Exec.step s a = some s') (hquiet : QuietDrop s.pc a)
    (hpushes : a.pushes = 0) (hfreed : a ≠ .dropped) : s'.Tidied live := by
  obtain ⟨v, hsim, hok, htidy, hlive⟩ := h.sched
  obtain ⟨v', hstep, hsim'⟩ := sim_step hsim hok hs
  have htidy' := htidy.step hok (hsim.pc ▸ hquiet) hstep
  have hjobs : v'.jobs = v.jobs := by
    cases hstep with
    | spawn | blockOn => cases hpushes
    | freed => exact absurd rfl hfreed
    | _ => rfl
  exact ⟨⟨v', hsim', hok.step hstep, htidy', fun t => hjobs ▸ hlive t⟩, h.nodup⟩

/-- A step that pushes a task. -/
theorem push (h : s.Tidied live) (hs : Exec.step s a = some s') (hquiet : QuietDrop s.pc a)
    (hpushes : a.pushes = 1) : s'.Tidied (live ++ [s.nextTask]) := by
  obtain ⟨v, hsim, hok, htidy, hlive⟩ := h.sched
  obtain ⟨v', hstep, hsim'⟩ := sim_step hsim hok hs
  have htidy' := htidy.step hok (hsim.pc ▸ hquiet) hstep
  have hjobs : ∃ job, v'.jobs = Function.update v.jobs v.nextTask (some job) := by
    cases hstep with
    | spawn | blockOn => exact ⟨_, rfl⟩
    | _ => cases hpushes
  obtain ⟨job, hjobs⟩ := hjobs
  refine ⟨⟨v', hsim', hok.step hstep, htidy', fun t => ?_⟩, ?_⟩
  · rw [hjobs, hsim.nextTask]
    by_cases ht : t = v.nextTask
    · simp [ht]
    · simp [ht, hlive]
  · rw [List.nodup_append]
    refine ⟨h.nodup, List.nodup_singleton _, ?_⟩
    rintro t ht u hu rfl
    exact h.next_notMem (List.mem_singleton.mp hu ▸ ht)

/-- The completed task is freed. -/
theorem freed (h : s.Tidied live) {c : Caller} {t : TaskId} (hpc : s.pc = .dropping c t)
    (hs : Exec.step s .dropped = some s') : s'.Tidied (live.erase t) := by
  obtain ⟨v, hsim, hok, htidy, hlive⟩ := h.sched
  obtain ⟨v', hstep, hsim'⟩ := sim_step hsim hok hs
  have htidy' := htidy.step hok (fun _ _ heq => Act.noConfusion heq) hstep
  have hok' := hok.step hstep
  cases hstep with
  | freed hpc' =>
      cases hpc.symm.trans (hsim.pc.trans hpc')
      refine ⟨⟨_, hsim', hok', htidy', fun u => ?_⟩, h.nodup.erase t⟩
      rw [h.nodup.mem_erase_iff, ← hlive]
      by_cases hu : u = t
      · simp [hu]
      · simp [hu]

/-- A wake of a live task. -/
theorem wake (h : s.Tidied live) (hout : s.pc.outside = true) (hpc : ∀ c t, s.pc ≠ .dropping c t)
    {t : TaskId} (ht : t ∈ live) :
    ∃ s', Exec.step s (.wake t) = some s' ∧ s'.pc = s.pc ∧ s'.Tidied live := by
  have hsome : (Exec.step s (.wake t)).isSome := by
    simp [Exec.step, hout, (h.isSome_iff t).mpr ht]
  obtain ⟨s', hs⟩ := Option.isSome_iff_exists.mp hsome
  have hquiet : QuietDrop s.pc (.wake t) := by
    intro u hu
    obtain ⟨c, hc⟩ := Pc.completing_eq_some.mp hu
    exact absurd hc (hpc c u)
  refine ⟨s', hs, ?_, h.step hs hquiet rfl (by simp)⟩
  obtain ⟨v, hsim, hok, -, -⟩ := h.sched
  obtain ⟨v', hstep, hsim'⟩ := sim_step hsim hok hs
  rw [hsim'.pc, hsim.pc]
  cases hstep
  rfl

/-- Wakes of live tasks are delivered. -/
theorem wakes (h : s.Tidied live) (hout : s.pc.outside = true) (hpc : ∀ c t, s.pc ≠ .dropping c t)
    {woken : List TaskId} (hwoken : ∀ t ∈ woken, t ∈ live) :
    ∃ s', Machine.run Exec.step s (woken.map .wake) = some s' ∧ s'.pc = s.pc ∧ s'.Tidied live := by
  induction woken generalizing s with
  | nil => exact ⟨s, rfl, rfl, h⟩
  | cons t woken ih =>
      obtain ⟨ht, hwoken⟩ := List.forall_mem_cons.mp hwoken
      obtain ⟨s₁, hs₁, hpc₁, h₁⟩ := h.wake hout hpc ht
      obtain ⟨s', hs', hpc', h'⟩ := ih h₁ (hpc₁ ▸ hout) (hpc₁ ▸ hpc) hwoken
      exact ⟨s', by simpa [hs₁] using hs', hpc'.trans hpc₁, h'⟩

end Sys.Tidied

/-! ## The reactor and the live tasks

`Kept` goes through the moves of a host: a tree that is handed over, a poll, a drop, the park. A poll
that does not return ends the run, and what holds then is `Cut`.
-/

def allBoxes (live : List TaskId) (futs : TaskId → Fut RtLeaf F K) : Multiset (Box RtLeaf) :=
  (live : Multiset TaskId).bind fun t => (futs t).boxes t

structure Kept (h : Host RtLeaf F K (TimerMem γ)) (live : List TaskId) : Prop where
  sys   : h.sys.Tidied live
  timed : Timed live (allBoxes live h.futs) h.world
  quiet : h.world.mem.reactor.woken = []

section Steps

variable {F K γ : Type} {p : Program F K γ} {h h' : Host RtLeaf F K (TimerMem γ)}
  {live : List TaskId}

/-- More tasks may be live. -/
theorem Timed.mono {C : Multiset (Box RtLeaf)} {w : World (TimerMem γ)} {live' : List TaskId}
    (ht : Timed live C w) (hsub : ∀ t ∈ live, t ∈ live') : Timed live' C w :=
  { ht with
    tasks := fun c hc => hsub _ (ht.tasks c hc)
    woken := fun t h => hsub t (ht.woken t h) }

theorem kept_init (park : Bool) (start : Nat) (ctx : γ) :
    Kept (Host.init park (TimerMem.init start ctx) : Host RtLeaf F K (TimerMem γ)) [] where
  sys   := .init park
  timed := by
    constructor <;> simp [allBoxes, Host.init, World.start, TimerMem.init]
  quiet := rfl

/-- A future is handed over, and becomes the next task or leaves nothing behind. -/
theorem Kept.offered (hk : Kept h live) {e : Expr LeafCall F K} {f : Fut RtLeaf F K}
    {granted : Bool} {world : World (TimerMem γ)} {sys : Sys} {a : Act}
    (hrun : handOver p.site.toEnv e.inBoxes h.world = (some (f, granted), world))
    (hs : step h.sys a = some sys) (ha : a.pushes = if granted then 1 else 0)
    (hquiet : QuietDrop h.sys.pc a) (hfreed : a ≠ .dropped) : ∃ live', Kept
      ⟨sys, if granted then Function.update h.futs h.sys.nextTask f else h.futs, world⟩ live' := by
  have hnew := hk.sys.next_notMem
  -- on behalf of the task that it may become
  have hself : h.sys.nextTask ∈ live ++ [h.sys.nextTask] := by simp
  have hstart := hk.timed.mono fun t ht => List.mem_append_left [h.sys.nextTask] ht
  have hpost := handOver_boxes (hand_rules p hself _) (leaves_inBoxes e) ⟨hstart, hk.quiet⟩
  rw [Eff.wp, hrun] at hpost
  obtain ⟨htimed, hwoken⟩ := hpost
  cases granted with
  | false =>
      refine ⟨live, hk.sys.step hs hquiet ha hfreed, ?_, hwoken⟩
      have htimed : Timed (live ++ [h.sys.nextTask]) (allBoxes live h.futs) world := by
        simpa [owned] using htimed
      refine { htimed with tasks := hk.timed.tasks, woken := ?_ }
      rw [hwoken]
      simp
  | true =>
      refine ⟨live ++ [h.sys.nextTask], hk.sys.push hs hquiet ha, ?_, hwoken⟩
      show Timed _ (allBoxes _ (Function.update h.futs h.sys.nextTask f)) world
      rw [allBoxes, bind_snoc (fun t f => f.boxes t) hnew]
      exact htimed

/-- Wakes are delivered, and the executor goes on. -/
theorem Kept.delivered {as : List Act} (hd : Host.Delivered p.site h as h')
    (hsys : h.sys.Tidied live) (htimed : Timed live (allBoxes live h.futs) h.world)
    (hpc : h.sys.pc = .idle ∨ (∃ c t, h.sys.pc = .polling c t) ∨ ∃ c, h.sys.pc = .parked c)
    (hlast : ∀ s, s.pc = h.sys.pc → s.Tidied live →
      ∃ s', Machine.run step s as = some s' ∧ s'.Tidied live) : Kept h' live := by
  have hout : h.sys.pc.outside = true := by
    rcases hpc with hpc | ⟨c, t, hpc⟩ | ⟨c, hpc⟩ <;> rw [hpc] <;> rfl
  have hdrop : ∀ c t, h.sys.pc ≠ .dropping c t := by
    rcases hpc with hpc | ⟨c, t, hpc⟩ | ⟨c, hpc⟩ <;> rw [hpc] <;> exact nofun
  obtain ⟨s₁, hs₁, hpc₁, h₁⟩ := hsys.wakes hout hdrop htimed.woken
  obtain ⟨s', hs', h₂⟩ := hlast s₁ hpc₁ h₁
  have hrun : Machine.run step h.sys (h.world.mem.reactor.woken.map .wake ++ as) = some s' := by
    rw [run_append, hs₁]
    exact hs'
  cases hd with
  | done hwakes hrun' =>
      cases hwakes
      cases hrun.symm.trans hrun'
      exact ⟨h₂, htimed.wakes, rfl⟩
  -- no task that is woken was freed
  | lost hwakes hrun' =>
      cases hwakes
      cases hrun.symm.trans hrun'

/-- One more action. -/
theorem last_step {s : Sys} {a : Act} (hs : s.Tidied live) (hsome : (step s a).isSome)
    (hquiet : QuietDrop s.pc a) (hpushes : a.pushes = 0) (hfreed : a ≠ .dropped) :
    ∃ s', Machine.run step s [a] = some s' ∧ s'.Tidied live := by
  obtain ⟨s', hs'⟩ := Option.isSome_iff_exists.mp hsome
  exact ⟨s', by simp [hs'], hs.step hs' hquiet hpushes hfreed⟩

/-- The tree of the task at hand is polled. -/
theorem Kept.poll (hk : Kept h live) {c : Caller} {t : TaskId} (hpc : h.sys.pc = .polling c t)
    (n : Nat) (out : Option Nat) :
    Eff.wp (p.site.poll n (h.futs t) t out)
      (fun r w => Timed live (allBoxes live (Function.update h.futs t r.2)) w)
      (Somehow (Timed live)) h.world := by
  have ht := hk.sys.polled_mem hpc
  have hstart := hk.timed
  rw [allBoxes, ← bind_erase _ ht] at hstart
  apply Eff.wp_mono (poll_boxes (timed_rules p ht) n (h.futs t) out _ h.world hstart)
  · intro r w hw
    rw [allBoxes, bind_set (fun t f => f.boxes t) hk.sys.nodup ht]
    exact hw
  · exact fun _ hw => hw

/-- The tree of the task that was `Ready` is dropped. -/
theorem Kept.drop (hk : Kept h live) {c : Caller} {t : TaskId} (hpc : h.sys.pc = .dropping c t) :
    Eff.wp (futureDrop p.site.toEnv (h.futs t))
      (fun _ w => Timed (live.erase t) (allBoxes (live.erase t) h.futs) w ∧
        w.mem.reactor.woken = []) (fun _ => False) h.world := by
  have ht := hk.sys.dropped_mem hpc
  have hstart := hk.timed
  rw [allBoxes, ← bind_erase _ ht] at hstart
  apply Eff.wp_mono (drop_boxes (hand_rules p ht _) (h.futs t) ⟨hstart, hk.quiet⟩)
  · intro _ w hw
    obtain ⟨htimed, hwoken⟩ := hw
    refine ⟨{ htimed with tasks := fun d hd => ?_, woken := ?_ }, hwoken⟩
    · -- a box belongs to the task that it was counted for
      obtain ⟨u, hu, hd⟩ := Multiset.mem_bind.mp hd
      rw [task_of_mem hd]
      exact hu
    · rw [show w.mem.reactor.woken = [] from hwoken]
      exact nofun
  · exact fun _ hw => hw

/-- The last move is a poll that does not return. -/
def Cut (p : Program F K γ) (h : Host RtLeaf F K (TimerMem γ)) (n : Nat)
    (h' : Host RtLeaf F K (TimerMem γ)) : Prop :=
  ∃ c t world, h.sys.pc = .polling c t ∧
    p.site.poll n (h.futs t) t ((h.sys.ex.tasks t).bind Task.out) h.world = (none, world) ∧
    h' = h.crash world

/-- Every move keeps the account, or is a poll that does not return. -/
theorem Kept.step (hk : Kept h live) {m : Move LeafCall F K (TimerCall γ)}
    (hs : h.step p.site m.inBoxes = some h') :
    (∃ live', Kept h' live') ∨ ∃ n, m = .poll n ∧ Cut p h n h' := by
  have hquiet : ∀ {pc : Pc} {a : Act}, (∀ t, a ≠ .wake t) → QuietDrop pc a := fun ha t _ => ha t
  cases m with
  | spawn e =>
      cases Host.stepped hs with
      | @spawned e f granted world sys hrun hsys =>
          exact .inl (hk.offered hrun hsys (by cases granted <;> rfl) (hquiet (by simp)) (by simp))
  | blockOn e out =>
      cases Host.stepped hs with
      | @blocked e out f granted world sys hrun hsys =>
          exact .inl (hk.offered hrun hsys (by cases granted <;> rfl) (hquiet (by simp)) (by simp))
  | run =>
      cases Host.stepped hs with
      | ran hsys =>
          have hsys' := hk.sys.step hsys (hquiet (by simp)) rfl (by simp)
          exact .inl ⟨live, hsys', hk.timed, hk.quiet⟩
  | drive =>
      cases Host.stepped hs with
      | drove hsys =>
          have hsys' := hk.sys.step hsys (hquiet (by simp)) rfl (by simp)
          exact .inl ⟨live, hsys', hk.timed, hk.quiet⟩
  | poll n =>
      cases Host.stepped hs with
      | @stuck n c t world hpc hpoll => exact .inr ⟨n, rfl, c, t, world, hpc, hpoll, rfl⟩
      | @polled n c t st f world h' hpc hpoll hd =>
          have htimed := hk.poll (p := p) hpc n ((h.sys.ex.tasks t).bind Task.out)
          rw [Eff.wp, hpoll] at htimed
          refine .inl ⟨live, .delivered hd hk.sys htimed (.inr (.inl ⟨c, t, hpc⟩)) ?_⟩
          intro s hspc hs
          have hspc : s.pc = .polling c t := hspc.trans hpc
          cases st
          · exact last_step hs (by simp [Exec.step, hspc]) (hquiet (by simp)) rfl (by simp)
          · exact last_step hs (by simp [Exec.step, hspc]) (hquiet (by simp)) rfl (by simp)
  | drop =>
      cases Host.stepped hs with
      | @dropped c t world sys hpc hdrop hsys =>
          have hpost := hk.drop (p := p) hpc
          rw [Eff.wp, hdrop] at hpost
          exact .inl ⟨live.erase t, hk.sys.freed hpc hsys, hpost.1, hpost.2⟩
  | park =>
      cases Host.stepped hs with
      | @parked c progress mem h' hpc hhook hd =>
          have hhook : timedPark h.world.mem = (progress, mem) := hhook
          have hpark := hk.timed.park
          rw [hhook] at hpark
          refine .inl ⟨live, .delivered hd hk.sys hpark (.inr (.inr ⟨c, hpc⟩)) ?_⟩
          intro s hspc hs
          have hspc : s.pc = .parked c := hspc.trans hpc
          cases progress
          · exact last_step hs (by simp [Exec.step, hspc]) (hquiet (by simp)) rfl (by simp)
          · exact last_step hs (by simp [Exec.step, hspc]) (hquiet (by simp)) rfl (by simp)
  | call r =>
      cases Host.stepped hs with
      | called hpc hd =>
          exact .inl ⟨live, .delivered hd hk.sys (hk.timed.call r) hpc fun s _ hs => ⟨s, rfl, hs⟩⟩

/-- The middle of a poll. -/
theorem Cut.timed {n : Nat} (hc : Cut p h n h') (hk : Kept h live) :
    ∃ C, Timed live C h'.world := by
  obtain ⟨c, t, world, hpc, hpoll, rfl⟩ := hc
  have hpost := hk.poll (p := p) hpc n ((h.sys.ex.tasks t).bind Task.out)
  rw [Eff.wp, hpoll] at hpost
  exact hpost

theorem Cut.tasks {n : Nat} (hc : Cut p h n h') : h'.sys.ex.tasks = h.sys.ex.tasks := by
  obtain ⟨c, t, world, hpc, hpoll, rfl⟩ := hc
  rfl

/-- Nothing comes after it. -/
theorem Cut.last {n : Nat} (hc : Cut p h n h') (m : Move RtLeaf F K (TimerCall γ)) :
    h'.step p.site m = none := by
  obtain ⟨c, t, world, hpc, hpoll, rfl⟩ := hc
  cases hs : (h.crash world).step p.site m with
  | none => rfl
  | some h'' =>
      have hstep : ∀ a s, Exec.step (h.crash world).sys a = some s → False := by
        intro a s hs
        rcases a with _ | _ | _ | _ | _ | _ | _ | _ | _ | (_ | _) <;>
          simp [Exec.step, Host.crash, Pc.outside] at hs
      cases Host.stepped hs with
      | spawned _ hsys | blocked _ hsys | ran hsys | drove hsys | dropped _ _ hsys =>
          exact (hstep _ _ hsys).elim
      | stuck hpc | polled hpc | parked hpc => cases hpc
      | called hpc => rcases hpc with hpc | ⟨_, _, hpc⟩ | ⟨_, hpc⟩ <;> cases hpc

/-- Every run is between two moves, or in the middle of a poll. -/
theorem kept_run {park : Bool} {start : Nat} {ctx : γ}
    {moves : List (Move LeafCall F K (TimerCall γ))}
    (hrun : Machine.run (Host.step p.site) (Host.init park (TimerMem.init start ctx))
      (moves.map Move.inBoxes) = some h) :
    (∃ live, Kept h live) ∨ ∃ pre n h₀ live, moves = pre ++ [.poll n] ∧
      Machine.run (Host.step p.site) (Host.init park (TimerMem.init start ctx))
        (pre.map Move.inBoxes) = some h₀ ∧ Kept h₀ live ∧ Cut p h₀ n h := by
  induction moves using List.reverseRecOn generalizing h with
  | nil =>
      cases hrun
      exact .inl ⟨[], kept_init park start ctx⟩
  | append_singleton pre m ih =>
      rw [List.map_append] at hrun
      obtain ⟨h₀, hpre, hstep⟩ := run_concat_iff.mp hrun
      rcases ih hpre with ⟨live, hk⟩ | ⟨_, n, h₁, _, -, -, -, hcut⟩
      · apply (hk.step hstep).imp id
        intro h
        obtain ⟨n, rfl, hcut⟩ := h
        exact ⟨pre, n, h₀, live, rfl, hpre, hk, hcut⟩
      · rw [hcut.last] at hstep
        cases hstep

end Steps

/-! ## No stale timer

The correspondence of the last state of a run, in terms of timers, boxes and tasks. The example is a
race of two sleeps, the loser of which still has its timer in the reactor when the winner is `Ready`,
until it is dropped in the same step.
-/

def World.Allocated {σ : Type} (w : World σ) (id : Nat) : Prop :=
  .born id ∈ w.log ∧ .released id ∉ w.log

def Host.Live {L F K σ : Type} (h : Host L F K σ) (t : TaskId) : Prop := (h.sys.ex.tasks t).isSome

/-- The reactor holds no stale timer, where the allocated boxes are the `C`. -/
structure NoStale {F K γ : Type} (h : Host RtLeaf F K (TimerMem γ)) (C : Multiset (Box RtLeaf)) :
    Prop where
  allocated : ∀ id, id ∈ C.map Box.id ↔ h.world.Allocated id
  nodup     : (C.map Box.id).Nodup
  owner     : ∀ c ∈ C, h.Live c.task
  /-- The pending timers are those of the armed sleeps that have not fired, each once. -/
  pending   : ∀ s, s ∈ h.world.mem.reactor.pending ↔ h.world.mem.reactor.fired s.id = false ∧
    ∃ t dur, ⟨t, s.id, some (.sleep dur true s.deadline s.waker)⟩ ∈ C
  once      : (h.world.mem.reactor.pending.map Timer.id).Nodup
  /-- A timer has the waker of the task that owns its box. -/
  stored    : ∀ t id dur deadline waker,
    ⟨t, id, some (.sleep dur true deadline waker)⟩ ∈ C → waker = t
  waker     : ∀ s ∈ h.world.mem.reactor.pending, h.Live s.waker
  woken     : ∀ t ∈ h.world.mem.reactor.woken, h.Live t
  /-- A waker is cloned for a box at most once. -/
  cloned    : ∀ id, h.world.mem.clones.count (.cloned id) ≤ 1
  /-- The clone is held by the pending timer, or was woken or dropped. -/
  clones    : ∀ id, h.world.mem.clones.count (.cloned id) =
    (h.world.mem.reactor.pending.map Timer.id).count id + h.world.mem.clones.count (.woken id) +
      h.world.mem.clones.count (.dropped id)
  late      : h.world.mem.clones.Pairwise CloneEvent.Before

/-- The account says that no timer is stale. -/
theorem Timed.noStale {F K γ : Type} {h : Host RtLeaf F K (TimerMem γ)} {live : List TaskId}
    {C : Multiset (Box RtLeaf)} (ht : Timed live C h.world) (hlive : ∀ t, h.Live t ↔ t ∈ live) :
    NoStale h C where
  allocated id := by rw [ht.boxes, World.Allocated, ht.born]
  nodup        := ht.nodup
  owner c hc   := (hlive _).mpr (ht.tasks c hc)
  pending s    := by
    rw [← Multiset.mem_coe, ht.pending, Multiset.mem_bind]
    constructor
    · intro h
      obtain ⟨c, hc, hs⟩ := h
      obtain ⟨hfired, hid, dur, hleaf⟩ := mem_boxTimer.mp hs
      refine ⟨hfired, c.task, dur, ?_⟩
      rwa [hid, ← hleaf]
    · intro h
      obtain ⟨hfired, t, dur, hc⟩ := h
      exact ⟨_, hc, mem_boxTimer.mpr ⟨hfired, rfl, dur, rfl⟩⟩
  once         := ht.pending_nodup
  stored       := fun t id dur deadline waker hc => ht.waker _ hc dur deadline waker rfl
  waker s hs   := (hlive _).mpr (ht.live_of_pending hs)
  woken t h    := (hlive _).mpr (ht.woken t h)
  cloned       := ht.once
  clones       := ht.clones
  late         := ht.late

/-- **No stale timer.** After every run the reactor is exact about the allocated boxes, which
    are those of the live tasks; or the last move is a poll that does not return, and it is
    exact about those that are allocated there. -/
theorem no_stale_timer {F K γ : Type} (p : Program F K γ) {park : Bool} {start : Nat} {ctx : γ}
    {moves : List (Move LeafCall F K (TimerCall γ))} {h : Host RtLeaf F K (TimerMem γ)}
    (hrun : Machine.run (Host.step p.site) (Host.init park (TimerMem.init start ctx))
      (moves.map Move.inBoxes) = some h) : ∃ C, NoStale h C ∧
    (h.sys.pc ≠ .crashed ∧ (∀ c, c ∈ C ↔ ∃ t, h.Live t ∧ c ∈ (h.futs t).boxes t) ∨
      ∃ pre n h₀, moves = pre ++ [.poll n] ∧
        Machine.run (Host.step p.site) (Host.init park (TimerMem.init start ctx))
          (pre.map Move.inBoxes) = some h₀ ∧ Cut p h₀ n h) := by
  rcases kept_run hrun with ⟨live, hk⟩ | ⟨pre, n, h₀, live, hmoves, hpre, hk, hcut⟩
  · refine ⟨allBoxes live h.futs, hk.timed.noStale hk.sys.isSome_iff, .inl ⟨?_, fun c => ?_⟩⟩
    · exact hk.sys.not_crashed
    · simp [allBoxes, Host.Live, hk.sys.isSome_iff]
  · obtain ⟨C, ht⟩ := hcut.timed hk
    refine ⟨C, ht.noStale fun t => ?_, .inr ⟨pre, n, h₀, hmoves, hpre, hcut⟩⟩
    rw [Host.Live, hcut.tasks]
    exact hk.sys.isSome_iff t

def timersOnly : Program Empty Empty Unit := ⟨nofun, nofun, fun _ => false⟩

/-- Two sleeps race; the timer of the loser is still pending when the winner is `Ready`. -/
def raceMoves : List (Move LeafCall Empty Empty (TimerCall Unit)) :=
  [.spawn (.select2 (.leaf (.sleep 5)) (.leaf (.sleep 30))), .run, .drive, .poll 3, .drive,
    .call (.fireDue 2), .park, .drive, .poll 3, .drop, .drive]

def raceRun : Option (Host RtLeaf Empty Empty (TimerMem Unit)) :=
  Machine.run (Host.step timersOnly.site) (Host.init true (TimerMem.init 0 ()))
    (raceMoves.map Move.inBoxes)

/-- The clone of the winner is woken and that of the loser is dropped. -/
theorem no_stale_timer_race : raceRun.map (fun h => h.world.mem.clones) =
      some [.cloned 0, .cloned 1, .woken 0, .freed 0, .dropped 1, .freed 1] ∧
    ∃ h, raceRun = some h ∧ ∃ C, NoStale h C := by
  have hclones : raceRun.map (fun h => h.world.mem.clones) =
      some [.cloned 0, .cloned 1, .woken 0, .freed 0, .dropped 1, .freed 1] := by decide +kernel
  obtain ⟨h, hrun, -⟩ := Option.map_eq_some_iff.mp hclones
  obtain ⟨C, hC, -⟩ := no_stale_timer timersOnly hrun
  exact ⟨hclones, h, hrun, C, hC⟩

end CustLib.Exec
