import CustLib.Execution.PollKeeps
import CustLib.Execution.StaleTimers

/-!
# Assertions about the boxes of live tasks

`CustLib.Execution.Boxes` says what keeps an assertion about boxes through the poll of one tree. Here the
assertion is about the boxes of all live tasks, on whatever site, and it goes through whole runs of
the executor: `LiveRules` are the rules that it needs, and `live_run` is what comes of them. Part of it
is that a program with such an assertion does not wake a task that was freed, so that every wake puts
its task into the ready queue (`Host.Keeps.park_queues`).
-/

namespace CustLib.Exec

open CustLib.Machine (run_concat_iff run_append)
open CustLib.Fifo (mem_enqueue)

variable {L F K R σ : Type}

/-! ## Rules for the boxes of live tasks

`LiveRules` has one field for each thing that can happen to the boxes of live tasks outside of the poll
of one tree. Two assertions can be carried together (`LiveRules.and`).
-/

/-- The program hands over futures with new leaves. -/
def Move.Starts (New : L → Prop) : Move L F K R → Prop
  | .spawn e | .blockOn e _ => e.Leaves New
  | .run | .drive | .poll _ | .drop | .park | .call _ => True

/-- The wakes that the site has not delivered. -/
def Site.pendingWakes (site : Site L F K R σ) (w : World σ) : List TaskId := (site.wakes w.mem).1

structure LiveRules (site : Site L F K R σ) (New : L → Prop)
    (G : List TaskId → Multiset (Box L) → World σ → Prop) : Prop where
  tasks   : ∀ {live C w}, G live C w → ∀ c ∈ C, c.task ∈ live
  woken   : ∀ {live C w}, G live C w → ∀ t ∈ site.pendingWakes w, t ∈ live
  /-- It is about the tasks of these boxes, and those that are woken. -/
  relabel : ∀ {live live' C w}, G live C w → (∀ c ∈ C, c.task ∈ live') →
    (∀ t ∈ site.pendingWakes w, t ∈ live') → G live' C w
  /-- Construction and drops keep it, and wake nobody. -/
  hand    : ∀ {live t}, t ∈ live →
    HandRules site New t fun C w => G live C w ∧ site.pendingWakes w = []
  boxes   : ∀ {live t}, t ∈ live → BoxRules site New t (G live)
  call    : ∀ {live C w} r, G live C w → G live C { w with mem := site.call r w.mem }
  hook    : ∀ {live C w}, G live C w → G live C { w with mem := (site.hook w.mem).2 }
  wakes   : ∀ {live C w}, G live C w → G live C { w with mem := (site.wakes w.mem).2 } ∧
    site.pendingWakes { w with mem := (site.wakes w.mem).2 } = []

/-- The code around the executor keeps `J` of its memory. -/
structure Site.Keeps (site : Site L F K R σ) (J : σ → Prop) : Prop extends
    Env.Keeps site.toEnv J where
  call  : ∀ r m, J m → J (site.call r m)
  hook  : ∀ m, J m → J (site.hook m).2
  wakes : ∀ m, J m → J (site.wakes m).2
  trap  : ∀ m, J m → J (site.trap m)

/-- Such a property may be added to an assertion. -/
theorem LiveRules.and {site : Site L F K R σ} {New : L → Prop}
    {G : List TaskId → Multiset (Box L) → World σ → Prop} {J : σ → Prop}
    (hG : LiveRules site New G) (hJ : site.Keeps J) :
    LiveRules site New fun live C w => G live C w ∧ J w.mem where
  tasks h                 := hG.tasks h.1
  woken h                 := hG.woken h.1
  relabel h htasks hwoken := ⟨hG.relabel h.1 htasks hwoken, h.2⟩
  hand ht                 := by
    have hhand := hG.hand ht
    exact {
      asked    := fun C w h => ⟨⟨(hhand.asked C w ⟨h.1.1, h.2⟩).1, h.1.2⟩, h.2⟩
      born     := fun C w leaf hnew h =>
        ⟨⟨(hhand.born C w leaf hnew ⟨h.1.1, h.2⟩).1, h.1.2⟩, h.2⟩
      released := fun C w id h => ⟨⟨(hhand.released C w id ⟨h.1.1, h.2⟩).1, h.1.2⟩, h.2⟩
      dropped  := fun C w id l h => by
        obtain ⟨hboxes, hwoken⟩ := hhand.dropped C w id l ⟨h.1.1, h.2⟩
        exact ⟨⟨hboxes, hJ.leafDrop id l _ h.1.2⟩, hwoken⟩ }
  boxes ht                := by
    have hboxes := hG.boxes ht
    exact {
      asked    := fun C w h => ⟨hboxes.asked C w h.1, h.2⟩
      born     := fun C w leaf hnew h => ⟨hboxes.born C w leaf hnew h.1, h.2⟩
      released := fun C w id h => ⟨hboxes.released C w id h.1, h.2⟩
      dropped  := fun C w id l h => ⟨hboxes.dropped C w id l h.1, hJ.leafDrop id l _ h.2⟩
      used     := fun C w id h => ⟨hboxes.used C w id h.1, h.2⟩
      finished := fun C w id h => ⟨hboxes.finished C w id h.1, h.2⟩
      polled   := fun C w id l out h =>
        ⟨hboxes.polled C w id l out h.1, hJ.leafPoll id l _ out _ h.2⟩
      mapped   := fun C w f p h => ⟨hboxes.mapped C w f p h.1, hJ.mapFn f p _ h.2⟩
      stepped  := fun C w k h =>
        ⟨(hboxes.stepped C w k h.1).1, (hboxes.stepped C w k h.1).2, hJ.stateFn k _ h.2⟩
      trapped  := fun C w h => ⟨hboxes.trapped C w h.1, hJ.trap _ h.2⟩ }
  call r h                := ⟨hG.call r h.1, hJ.call r _ h.2⟩
  hook h                  := ⟨hG.hook h.1, hJ.hook _ h.2⟩
  wakes h                 := ⟨⟨(hG.wakes h.1).1, hJ.wakes _ h.2⟩, (hG.wakes h.1).2⟩

/-! ## Wakes

A task that was woken is in the queue, and its tree is polled later; the assertion may use that to tell
a task that waits from one that is about to run.
-/

def Sys.Queued (s : Sys) (t : TaskId) : Prop :=
  ∃ task, s.ex.tasks t = some task ∧ task.queued = true

namespace Sys

variable {s s' : Sys} {live : List TaskId}

theorem mem_of_queued {v : Sched} (hsim : Sim s v) {t : TaskId} (h : s.Queued t) : t ∈ v.queue := by
  obtain ⟨task, htask, hflag⟩ := h
  exact (hsim.queue.queued t task htask).mp hflag

theorem queued_of_mem {v : Sched} (hsim : Sim s v) {t : TaskId} (hmem : t ∈ v.queue)
    (hlive : (v.jobs t).isSome) : s.Queued t := by
  obtain ⟨job, hjob⟩ := Option.isSome_iff_exists.mp hlive
  obtain ⟨task, htask, -⟩ := hsim.task hjob
  exact ⟨task, htask, (hsim.queue.queued t task htask).mpr hmem⟩

/-- A wake queues its task, beside those that are queued. -/
theorem Tidied.wake_queued (h : s.Tidied live) {t : TaskId}
    (hs : Exec.step s (.wake t) = some s') : s'.Queued t ∧ ∀ u, s.Queued u → s'.Queued u := by
  obtain ⟨v, hsim, hok, htidy, -⟩ := h.sched
  obtain ⟨v', hstep, hsim'⟩ := sim_step hsim hok hs
  cases hstep with
  | @wake t job hout hjob =>
      refine ⟨queued_of_mem hsim' (mem_enqueue.mpr (.inr rfl)) (by simp [hjob]), fun u hu => ?_⟩
      have hmem := mem_of_queued hsim hu
      exact queued_of_mem hsim' (mem_enqueue.mpr (.inl hmem)) (htidy.live u hmem).1

/-- So do the wakes of live tasks, one after the other. -/
theorem Tidied.wakes_queued (h : s.Tidied live) (hout : s.pc.outside = true)
    (hpc : ∀ c t, s.pc ≠ .dropping c t) {woken : List TaskId} (hwoken : ∀ t ∈ woken, t ∈ live)
    (hrun : Machine.run Exec.step s (woken.map .wake) = some s') :
    (∀ t ∈ woken, s'.Queued t) ∧ ∀ u, s.Queued u → s'.Queued u := by
  induction woken generalizing s with
  | nil =>
      cases hrun
      exact ⟨nofun, fun _ hu => hu⟩
  | cons t woken ih =>
      obtain ⟨ht, hwoken⟩ := List.forall_mem_cons.mp hwoken
      obtain ⟨s₁, hs₁, hpc₁, h₁⟩ := h.wake hout hpc ht
      obtain ⟨hqueued, hkeep⟩ := h.wake_queued hs₁
      have hrun : Machine.run Exec.step s₁ (woken.map .wake) = some s' := by simpa [hs₁] using hrun
      obtain ⟨hrest, hkeep'⟩ := ih h₁ (hpc₁ ▸ hout) (hpc₁ ▸ hpc) hwoken hrun
      exact ⟨List.forall_mem_cons.mpr ⟨hkeep' t hqueued, hrest⟩, fun u hu => hkeep' u (hkeep u hu)⟩

/-- The executor comes back from the park hook with the queue that it finds. -/
theorem Tidied.park_queued (h : s.Tidied live) {c : Caller} (hpc : s.pc = .parked c)
    {progress : Bool} (hs : Exec.step s (.parkReturns progress) = some s') :
    s'.pc = (if progress then .drive c else .idle) ∧ ∀ u, s.Queued u → s'.Queued u := by
  obtain ⟨v, hsim, hok, htidy, -⟩ := h.sched
  obtain ⟨v', hstep, hsim'⟩ := sim_step hsim hok hs
  have hkeep : v'.queue = v.queue → v'.jobs = v.jobs → ∀ u, s.Queued u → s'.Queued u := by
    intro hqueue hjobs u hu
    have hmem := mem_of_queued hsim hu
    exact queued_of_mem hsim' (hqueue ▸ hmem) (hjobs ▸ (htidy.live u hmem).1)
  rw [hsim.pc] at hpc
  rw [hsim'.pc]
  cases hstep with
  | resumed hpc' =>
      cases hpc.symm.trans hpc'
      exact ⟨rfl, hkeep rfl rfl⟩
  | stalled hpc' =>
      cases hpc.symm.trans hpc'
      exact ⟨rfl, hkeep rfl rfl⟩

end Sys

/-! ## Runs

The assertion holds between any two moves of a program, and also when the last move is a poll that does
not return.
-/

def liveBoxes (live : List TaskId) (futs : TaskId → Fut L F K) : Multiset (Box L) :=
  (live : Multiset TaskId).bind fun t => (futs t).boxes t

structure Host.Keeps (site : Site L F K R σ) (G : List TaskId → Multiset (Box L) → World σ → Prop)
    (h : Host L F K σ) (live : List TaskId) : Prop where
  sys   : h.sys.Tidied live
  boxes : G live (liveBoxes live h.futs) h.world
  quiet : site.pendingWakes h.world = []

/-- The last move is a poll that does not return. -/
def Host.CutOff (site : Site L F K R σ) (h : Host L F K σ) (n : Nat) (h' : Host L F K σ) : Prop :=
  ∃ c t world, h.sys.pc = .polling c t ∧
    site.poll n (h.futs t) t ((h.sys.ex.tasks t).bind Task.out) h.world = (none, world) ∧
    h' = h.crash world

section Steps

variable {site : Site L F K R σ} {New : L → Prop}
  {G : List TaskId → Multiset (Box L) → World σ → Prop} {h h' : Host L F K σ} {live : List TaskId}
  (hG : LiveRules site New G)
include hG

/-- A future is handed over, and becomes the next task or leaves nothing behind. -/
theorem Host.Keeps.offered (hk : h.Keeps site G live) {e : Expr L F K} (he : e.Leaves New)
    {f : Fut L F K} {granted : Bool} {world : World σ} {sys : Sys} {a : Act}
    (hrun : handOver site.toEnv e h.world = (some (f, granted), world))
    (hs : Exec.step h.sys a = some sys) (ha : a.pushes = if granted then 1 else 0)
    (hquiet : QuietDrop h.sys.pc a) (hfreed : a ≠ .dropped) : ∃ live', Host.Keeps site G
      ⟨sys, if granted then Function.update h.futs h.sys.nextTask f else h.futs, world⟩ live' := by
  have hnew := hk.sys.next_notMem
  -- on behalf of the task that it may become
  have hself : h.sys.nextTask ∈ live ++ [h.sys.nextTask] := by simp
  have hold : ∀ c ∈ liveBoxes live h.futs, c.task ∈ live := hG.tasks hk.boxes
  have hstart : G (live ++ [h.sys.nextTask]) (liveBoxes live h.futs) h.world :=
    hG.relabel hk.boxes (fun c hc => List.mem_append_left _ (hold c hc))
      fun t ht => List.mem_append_left _ (hG.woken hk.boxes t ht)
  have hpost := handOver_boxes (hG.hand hself) he ⟨hstart, hk.quiet⟩
  rw [Eff.wp, hrun] at hpost
  obtain ⟨hboxes, hwoken⟩ := hpost
  cases granted with
  | false =>
      refine ⟨live, hk.sys.step hs hquiet ha hfreed, ?_, hwoken⟩
      have hboxes : G (live ++ [h.sys.nextTask]) (liveBoxes live h.futs) world := by
        simpa [owned] using hboxes
      refine hG.relabel hboxes hold ?_
      rw [hwoken]
      simp
  | true =>
      refine ⟨live ++ [h.sys.nextTask], hk.sys.push hs hquiet ha, ?_, hwoken⟩
      show G _ (liveBoxes _ (Function.update h.futs h.sys.nextTask f)) world
      rw [liveBoxes, bind_snoc (fun t f => f.boxes t) hnew]
      exact hboxes

/-- Wakes are delivered, and the executor goes on. -/
theorem Host.Keeps.delivered {as : List Act} (hd : Host.Delivered site h as h')
    (hsys : h.sys.Tidied live) (hboxes : G live (liveBoxes live h.futs) h.world)
    (hpc : h.sys.pc = .idle ∨ (∃ c t, h.sys.pc = .polling c t) ∨ ∃ c, h.sys.pc = .parked c)
    (hlast : ∀ s, s.pc = h.sys.pc → s.Tidied live →
      ∃ s', Machine.run Exec.step s as = some s' ∧ s'.Tidied live) : h'.Keeps site G live := by
  have hout : h.sys.pc.outside = true := by
    rcases hpc with hpc | ⟨c, t, hpc⟩ | ⟨c, hpc⟩ <;> rw [hpc] <;> rfl
  have hdrop : ∀ c t, h.sys.pc ≠ .dropping c t := by
    rcases hpc with hpc | ⟨c, t, hpc⟩ | ⟨c, hpc⟩ <;> rw [hpc] <;> exact nofun
  have hrun : ∀ {woken mem}, site.wakes h.world.mem = (woken, mem) →
      ∃ s', Machine.run Exec.step h.sys (woken.map .wake ++ as) = some s' ∧ s'.Tidied live := by
    intro woken mem hwakes
    have hwoken := hG.woken hboxes
    rw [Site.pendingWakes, hwakes] at hwoken
    obtain ⟨s₁, hs₁, hpc₁, h₁⟩ := hsys.wakes hout hdrop hwoken
    obtain ⟨s', hs', h₂⟩ := hlast s₁ hpc₁ h₁
    refine ⟨s', ?_, h₂⟩
    rw [run_append, hs₁]
    exact hs'
  have hpost := hG.wakes hboxes
  cases hd with
  | done hwakes hrun' =>
      obtain ⟨s', hs', h₂⟩ := hrun hwakes
      cases hs'.symm.trans hrun'
      rw [hwakes] at hpost
      exact ⟨h₂, hpost.1, hpost.2⟩
  -- no task that is woken was freed
  | lost hwakes hrun' =>
      obtain ⟨s', hs', -⟩ := hrun hwakes
      cases hs'.symm.trans hrun'

/-- The tree of the task at hand is polled. -/
theorem Host.Keeps.poll (hk : h.Keeps site G live) {c : Caller} {t : TaskId}
    (hpc : h.sys.pc = .polling c t) (n : Nat) (out : Option Nat) :
    Eff.wp (site.poll n (h.futs t) t out)
      (fun r w => G live (liveBoxes live (Function.update h.futs t r.2)) w)
      (Somehow (G live)) h.world := by
  have ht := hk.sys.polled_mem hpc
  have hstart := hk.boxes
  rw [liveBoxes, ← bind_erase _ ht] at hstart
  apply Eff.wp_mono (poll_boxes (hG.boxes ht) n (h.futs t) out _ h.world hstart)
  · intro r w hw
    rw [liveBoxes, bind_set (fun t f => f.boxes t) hk.sys.nodup ht]
    exact hw
  · exact fun _ hw => hw

/-- The tree of the task that was `Ready` is dropped. -/
theorem Host.Keeps.drop (hk : h.Keeps site G live) {c : Caller} {t : TaskId}
    (hpc : h.sys.pc = .dropping c t) :
    Eff.wp (futureDrop site.toEnv (h.futs t))
      (fun _ w => G (live.erase t) (liveBoxes (live.erase t) h.futs) w ∧ site.pendingWakes w = [])
      (fun _ => False) h.world := by
  have ht := hk.sys.dropped_mem hpc
  have hstart := hk.boxes
  rw [liveBoxes, ← bind_erase _ ht] at hstart
  apply Eff.wp_mono (drop_boxes (hG.hand ht) (h.futs t) ⟨hstart, hk.quiet⟩)
  · intro _ w hw
    obtain ⟨hboxes, hwoken⟩ := hw
    refine ⟨hG.relabel hboxes (fun d hd => ?_) ?_, hwoken⟩
    · -- a box belongs to the task that it was counted for
      obtain ⟨u, hu, hd⟩ := Multiset.mem_bind.mp hd
      rw [task_of_mem hd]
      exact hu
    · rw [hwoken]
      exact nofun
  · exact fun _ hw => hw

/-- Every move keeps the assertion, or is a poll that does not return. -/
theorem Host.Keeps.step (hk : h.Keeps site G live) {m : Move L F K R} (hm : m.Starts New)
    (hs : h.step site m = some h') :
    (∃ live', h'.Keeps site G live') ∨ ∃ n, m = .poll n ∧ h.CutOff site n h' := by
  have hquiet : ∀ {pc : Pc} {a : Act}, (∀ t, a ≠ .wake t) → QuietDrop pc a := fun ha t _ => ha t
  cases Host.stepped hs with
  | @spawned e f granted world sys hrun hsys =>
      exact .inl (hk.offered hG hm hrun hsys (by cases granted <;> rfl) (hquiet (by simp)) (by simp))
  | @blocked e out f granted world sys hrun hsys =>
      exact .inl (hk.offered hG hm hrun hsys (by cases granted <;> rfl) (hquiet (by simp)) (by simp))
  | ran hsys =>
      exact .inl ⟨live, hk.sys.step hsys (hquiet (by simp)) rfl (by simp), hk.boxes, hk.quiet⟩
  | drove hsys =>
      exact .inl ⟨live, hk.sys.step hsys (hquiet (by simp)) rfl (by simp), hk.boxes, hk.quiet⟩
  | @stuck n c t world hpc hpoll => exact .inr ⟨n, rfl, c, t, world, hpc, hpoll, rfl⟩
  | @polled n c t st f world h' hpc hpoll hd =>
      have hboxes := hk.poll hG hpc n ((h.sys.ex.tasks t).bind Task.out)
      rw [Eff.wp, hpoll] at hboxes
      refine .inl ⟨live, .delivered hG hd hk.sys hboxes (.inr (.inl ⟨c, t, hpc⟩)) ?_⟩
      intro s hspc hs
      have hspc : s.pc = .polling c t := hspc.trans hpc
      cases st
      · exact last_step hs (by simp [Exec.step, hspc]) (hquiet (by simp)) rfl (by simp)
      · exact last_step hs (by simp [Exec.step, hspc]) (hquiet (by simp)) rfl (by simp)
  | @dropped c t world sys hpc hdrop hsys =>
      have hpost := hk.drop hG hpc
      rw [Eff.wp, hdrop] at hpost
      exact .inl ⟨live.erase t, hk.sys.freed hpc hsys, hpost.1, hpost.2⟩
  | @parked c progress mem h' hpc hhook hd =>
      have hpark := hG.hook hk.boxes
      rw [hhook] at hpark
      refine .inl ⟨live, .delivered hG hd hk.sys hpark (.inr (.inr ⟨c, hpc⟩)) ?_⟩
      intro s hspc hs
      have hspc : s.pc = .parked c := hspc.trans hpc
      cases progress
      · exact last_step hs (by simp [Exec.step, hspc]) (hquiet (by simp)) rfl (by simp)
      · exact last_step hs (by simp [Exec.step, hspc]) (hquiet (by simp)) rfl (by simp)
  | called hpc hd =>
      exact .inl ⟨live, .delivered hG hd hk.sys (hG.call _ hk.boxes) hpc fun s _ hs => ⟨s, rfl, hs⟩⟩

/-- **What the park hook has woken is queued** when the executor goes on, and if the hook has made
    progress then the drive loop does. -/
theorem Host.Keeps.park_queues (hk : h.Keeps site G live) (hs : h.step site .park = some h') :
    h'.world.mem = (site.wakes (site.hook h.world.mem).2).2 ∧
      (∀ t ∈ (site.wakes (site.hook h.world.mem).2).1, h'.sys.Queued t) ∧
      ∃ c, h'.sys.pc = if (site.hook h.world.mem).1 then .drive c else .idle := by
  cases Host.stepped hs with
  | @parked c progress mem h' hpc hhook hd =>
      have hwoken := hG.woken (hG.hook hk.boxes)
      rw [Site.pendingWakes] at hwoken
      rw [hhook] at hwoken ⊢
      have hout : h.sys.pc.outside = true := by rw [hpc]; rfl
      have hdrop : ∀ c t, h.sys.pc ≠ .dropping c t := by rw [hpc]; exact nofun
      obtain ⟨s₁, hs₁, hpc₁, h₁⟩ := hk.sys.wakes hout hdrop hwoken
      obtain ⟨hqueued, -⟩ := hk.sys.wakes_queued hout hdrop hwoken hs₁
      have hpc₁ : s₁.pc = .parked c := hpc₁.trans hpc
      have hrun : ∀ woken, (site.wakes mem).1 = woken → Machine.run Exec.step h.sys
          (woken.map .wake ++ [.parkReturns progress]) = Exec.step s₁ (.parkReturns progress) := by
        rintro woken rfl
        rw [run_append, hs₁]
        simp
      cases hd with
      | @done woken mem' sys hwakes hrun' =>
          rw [hrun woken (by rw [hwakes])] at hrun'
          obtain ⟨hpc', hkeep⟩ := h₁.park_queued hpc₁ hrun'
          exact ⟨by rw [hwakes], fun t ht => hkeep t (hqueued t ht), c, hpc'⟩
      | @lost woken mem' hwakes hrun' =>
          rw [hrun woken (by rw [hwakes])] at hrun'
          cases progress <;> simp [Exec.step, hpc₁] at hrun'

/-- The middle of a poll. -/
theorem Host.CutOff.boxes {n : Nat} (hc : h.CutOff site n h') (hk : h.Keeps site G live) :
    ∃ C, G live C h'.world := by
  obtain ⟨c, t, world, hpc, hpoll, rfl⟩ := hc
  have hpost := hk.poll hG hpc n ((h.sys.ex.tasks t).bind Task.out)
  rw [Eff.wp, hpoll] at hpost
  exact hpost

omit hG

theorem Host.CutOff.tasks {n : Nat} (hc : h.CutOff site n h') :
    h'.sys.ex.tasks = h.sys.ex.tasks := by
  obtain ⟨c, t, world, hpc, hpoll, rfl⟩ := hc
  rfl

/-- Nothing comes after it. -/
theorem Host.CutOff.last {n : Nat} (hc : h.CutOff site n h') (m : Move L F K R) :
    h'.step site m = none := by
  obtain ⟨c, t, world, hpc, hpoll, rfl⟩ := hc
  have hstep : ∀ a, Exec.step (h.crash world).sys a = none := by
    intro a
    rcases a with _ | _ | _ | _ | _ | _ | _ | _ | _ | (_ | _) <;>
      simp [Exec.step, Host.crash, Pc.outside]
  cases hs : (h.crash world).step site m with
  | none => rfl
  | some h'' =>
      cases Host.stepped hs with
      | spawned _ hsys | blocked _ hsys | ran hsys | drove hsys | dropped _ _ hsys =>
          rw [hstep] at hsys
          cases hsys
      | stuck hpc | polled hpc | parked hpc => cases hpc
      | called hpc => rcases hpc with hpc | ⟨_, _, hpc⟩ | ⟨_, hpc⟩ <;> cases hpc

include hG

/-- **Run lemma.** Every run is between two moves, or in the middle of a poll. -/
theorem live_run {park : Bool} {mem : σ} (hinit : G [] 0 (World.start mem))
    (hquiet : site.pendingWakes (World.start mem) = []) {moves : List (Move L F K R)}
    (hmoves : ∀ m ∈ moves, m.Starts New)
    (hrun : Machine.run (Host.step site) (Host.init park mem) moves = some h) :
    (∃ live, h.Keeps site G live) ∨ ∃ pre n h₀ live, moves = pre ++ [.poll n] ∧
      Machine.run (Host.step site) (Host.init park mem) pre = some h₀ ∧ h₀.Keeps site G live ∧
      h₀.CutOff site n h := by
  induction moves using List.reverseRecOn generalizing h with
  | nil =>
      cases hrun
      exact .inl ⟨[], .init park, hinit, hquiet⟩
  | append_singleton pre m ih =>
      obtain ⟨hpre, hm⟩ := List.forall_mem_append.mp hmoves
      obtain ⟨h₀, hrun₀, hstep⟩ := run_concat_iff.mp hrun
      rcases ih hpre hrun₀ with ⟨live, hk⟩ | ⟨_, n, h₁, _, -, -, -, hcut⟩
      · apply (hk.step hG (hm m (List.mem_singleton_self m)) hstep).imp id
        intro hcut
        obtain ⟨n, rfl, hcut⟩ := hcut
        exact ⟨pre, n, h₀, live, rfl, hrun₀, hk, hcut⟩
      · rw [hcut.last] at hstep
        cases hstep

end Steps

end CustLib.Exec
