import CustLib.Execution.Children
import CustLib.Execution.Sched

/-!
# The executor with trees of futures

`Host` is the machine of `CustLib.Execution.Drive` with a tree of futures for every task. Where that
machine waits for an answer, the tree of the task is polled; where it waits for a drop, the tree is
dropped; where it waits for the park hook, the hook runs. A `Site` is what the trees run on: leaves,
functions, allocator, the hook, and the other calls of the program.

A program hands over a future that it has just built with the constructors, any of which may be
refused its box (`construct`), and so may `executor_push`.
-/

namespace CustLib.Exec

open CustLib.Machine (run)

variable {L F K R σ : Type}

/-! ## Construction under a failing allocator

The constructors of leaves allocate too. A request is numbered by its place in the run, and the
allocator refuses by these numbers, as in `CustLib.Execution.Future`.
-/

/-- `cexec_future_ready_in`, `cexec_yield_now_in`, `cexec_sleep_in`: a box for the leaf, or the null
    future. -/
def leafIn (env : Env L F K σ) (l : L) : Eff (World σ) (Fut L F K) := do
  if ← request env then
    return .leaf (← birth) l
  return .null

/-- The calls of the constructors, with leaves that ask for their boxes too. -/
def construct (env : Env L F K σ) : Expr L F K → Eff (World σ) (Fut L F K)
  | .null            => pure .null
  | .leaf l          => leafIn env l
  | .map inner fn    => do mapIn env (← construct env inner) fn
  | .then_ a b       => do thenIn env (← construct env a) (← construct env b)
  | .join2 a size b  => do join2In env size (← construct env a) (← construct env b)
  | .select2 a b     => do select2In env (← construct env a) (← construct env b)
  | .sm states start => smIn env states start

/-- The allocation of the task box in `executor_push`. Both its callers drop the future that has
    none, and return `false`. -/
def push (env : Env L F K σ) (f : Fut L F K) : Eff (World σ) Bool := do
  let granted ← request env
  Eff.when (!granted) (futureDrop env f)
  return granted

def handOver (env : Env L F K σ) (e : Expr L F K) : Eff (World σ) (Fut L F K × Bool) := do
  let f ← construct env e
  let granted ← push env f
  return (f, granted)

/-! ## The site

The code around an executor as a parameter: the memory, the behaviour of leaves and functions, the park
hook, and the wakers that this code calls. A poll of a null future does not return; what it leaves
behind is up to the site.
-/

structure Site (L F K R σ : Type) extends Env L F K σ where
  wakes : σ → List TaskId × σ
  hook  : σ → Bool × σ
  call  : R → σ → σ
  trap  : σ → σ

/-- `cexec_future_poll` as in `futurePoll`, with the trap. -/
def Site.poll (site : Site L F K R σ) : Nat → Poller L F K σ
  | 0     => fun _ _ _ => Eff.stuck
  | n + 1 => fun f w out =>
    match f.id? with
    | none    => do
      onMem fun m => ((), site.trap m)
      Eff.stuck
    | some id => do
      note (.used id)
      let (st, f) ← nodePoll site.toEnv (site.poll n) n f w out
      Eff.when st (note (.finished id))
      return (st, f)

/-- Without a trap it is `futurePoll`. -/
theorem Site.poll_eq {site : Site L F K R σ} (htrap : ∀ m, site.trap m = m) (n : Nat) :
    site.poll n = futurePoll site.toEnv n := by
  induction n with
  | zero => rfl
  | succ n ih =>
      funext f w out
      simp only [Site.poll, futurePoll, ih]
      cases f.id? with
      | none =>
          funext s
          show (none, { s with mem := site.trap s.mem }) = (none, s)
          rw [htrap]
      | some id => rfl

/-! ## The machine

A move of the program is one of those of `CustLib.Execution.Drive` with a tree behind it. The wakers
that a piece of code has called are delivered after it, in their order; a waker is only called for a
task whose box is there.
-/

/-- An executor, the future in each task box, and the heap of futures with the memory. -/
structure Host (L F K σ : Type) where
  sys   : Sys
  futs  : TaskId → Fut L F K
  world : World σ

def Host.init (park : Bool) (mem : σ) : Host L F K σ where
  sys   := { Sys.init with ex := { Exec.init with park } }
  futs  := fun _ => .null
  world := World.start mem

/-- What the program does next. A poll is cut off at a call depth. -/
inductive Move (L F K R : Type) where
  | spawn (e : Expr L F K)
  | blockOn (e : Expr L F K) (out : Option Nat)
  | run
  | drive
  | poll (depth : Nat)
  | drop
  | park
  | call (r : R)

namespace Host

def offer (site : Site L F K R σ) (h : Host L F K σ) (e : Expr L F K) (act : Bool → Act) :
    Option (Host L F K σ) :=
  match handOver site.toEnv e h.world with
  | (none, _)                  => none
  | (some (f, granted), world) => do
    let sys ← Exec.step h.sys (act granted)
    return { sys, world,
             futs := if granted then Function.update h.futs h.sys.nextTask f else h.futs }

/-- Control does not come back. -/
def crash (h : Host L F K σ) (world : World σ) : Host L F K σ :=
  { h with sys := { h.sys with pc := .crashed }, world }

/-- Deliver the wakes, and let the executor go on. A wake of a task whose box was freed crashes. -/
def deliver (site : Site L F K R σ) (h : Host L F K σ) (as : List Act) : Host L F K σ :=
  let (woken, mem) := site.wakes h.world.mem
  match Machine.run Exec.step h.sys (woken.map .wake ++ as) with
  | none     => h.crash { h.world with mem }
  | some sys => { h with sys, world := { h.world with mem } }

def pollTask (site : Site L F K R σ) (h : Host L F K σ) (n : Nat) : Option (Host L F K σ) :=
  match h.sys.pc with
  | .polling _ t =>
    match site.poll n (h.futs t) t ((h.sys.ex.tasks t).bind Task.out) h.world with
    | (none, world)         => some (h.crash world)
    | (some (st, f), world) =>
      some (deliver site { h with world, futs := Function.update h.futs t f }
        [if st then .answerReady else .answerPending])
  | _ => none

def dropTask (site : Site L F K R σ) (h : Host L F K σ) : Option (Host L F K σ) :=
  match h.sys.pc with
  | .dropping _ t =>
    match futureDrop site.toEnv (h.futs t) h.world with
    | (none, world)    => some (h.crash world)
    | (some (), world) => do return { h with sys := ← Exec.step h.sys .dropped, world }
  | _ => none

def runHook (site : Site L F K R σ) (h : Host L F K σ) : Option (Host L F K σ) :=
  match h.sys.pc with
  | .parked _ =>
    let (progress, mem) := site.hook h.world.mem
    some (deliver site { h with world := { h.world with mem } } [.parkReturns progress])
  | _ => none

/-- A call from outside the executor. The code that runs in a drop makes none. -/
def callOut (site : Site L F K R σ) (h : Host L F K σ) (r : R) : Option (Host L F K σ) :=
  match h.sys.pc with
  | .idle | .polling _ _ | .parked _ =>
    some (deliver site { h with world := { h.world with mem := site.call r h.world.mem } } [])
  | .drive _ | .dropping _ _ | .crashed => none

def step (site : Site L F K R σ) (h : Host L F K σ) : Move L F K R → Option (Host L F K σ)
  | .spawn e       => h.offer site e (.spawn h.sys.nextTask)
  | .blockOn e out => h.offer site e (.blockOn h.sys.nextTask out)
  | .run           => do return { h with sys := ← Exec.step h.sys .run }
  | .drive         => do return { h with sys := ← Exec.step h.sys .drive }
  | .poll n        => h.pollTask site n
  | .drop          => h.dropTask site
  | .park          => h.runHook site
  | .call r        => h.callOut site r

inductive Delivered (site : Site L F K R σ) (h : Host L F K σ) (as : List Act) :
    Host L F K σ → Prop
  | done {woken mem sys} : site.wakes h.world.mem = (woken, mem) →
      Machine.run Exec.step h.sys (woken.map .wake ++ as) = some sys →
      Delivered site h as { h with sys, world := { h.world with mem } }
  | lost {woken mem} : site.wakes h.world.mem = (woken, mem) →
      Machine.run Exec.step h.sys (woken.map .wake ++ as) = none →
      Delivered site h as (h.crash { h.world with mem })

inductive Stepped (site : Site L F K R σ) (h : Host L F K σ) : Move L F K R → Host L F K σ → Prop
  | spawned {e f granted world sys} : handOver site.toEnv e h.world = (some (f, granted), world) →
      Exec.step h.sys (.spawn h.sys.nextTask granted) = some sys →
      Stepped site h (.spawn e)
        ⟨sys, if granted then Function.update h.futs h.sys.nextTask f else h.futs, world⟩
  | blocked {e out f granted world sys} :
      handOver site.toEnv e h.world = (some (f, granted), world) →
      Exec.step h.sys (.blockOn h.sys.nextTask out granted) = some sys →
      Stepped site h (.blockOn e out)
        ⟨sys, if granted then Function.update h.futs h.sys.nextTask f else h.futs, world⟩
  | ran {sys} : Exec.step h.sys .run = some sys → Stepped site h .run { h with sys }
  | drove {sys} : Exec.step h.sys .drive = some sys → Stepped site h .drive { h with sys }
  | stuck {n c t world} : h.sys.pc = .polling c t →
      site.poll n (h.futs t) t ((h.sys.ex.tasks t).bind Task.out) h.world = (none, world) →
      Stepped site h (.poll n) (h.crash world)
  | polled {n c t st f world h'} : h.sys.pc = .polling c t →
      site.poll n (h.futs t) t ((h.sys.ex.tasks t).bind Task.out) h.world = (some (st, f), world) →
      Delivered site { h with world, futs := Function.update h.futs t f }
        [if st then .answerReady else .answerPending] h' → Stepped site h (.poll n) h'
  | dropped {c t world sys} : h.sys.pc = .dropping c t →
      futureDrop site.toEnv (h.futs t) h.world = (some (), world) →
      Exec.step h.sys .dropped = some sys → Stepped site h .drop { h with sys, world }
  | parked {c progress mem h'} : h.sys.pc = .parked c → site.hook h.world.mem = (progress, mem) →
      Delivered site { h with world := { h.world with mem } } [.parkReturns progress] h' →
      Stepped site h .park h'
  | called {r h'} : h.sys.pc = .idle ∨ (∃ c t, h.sys.pc = .polling c t) ∨
        (∃ c, h.sys.pc = .parked c) →
      Delivered site { h with world := { h.world with mem := site.call r h.world.mem } } [] h' →
      Stepped site h (.call r) h'

/-- A delivery is one of the two. -/
theorem delivered (site : Site L F K R σ) (h : Host L F K σ) (as : List Act) :
    Delivered site h as (h.deliver site as) := by
  unfold deliver
  split
  next woken mem hwakes =>
    split
    next hrun => exact .lost hwakes hrun
    next sys hrun => exact .done hwakes hrun

/-- A future is built, handed over, and kept if it got a task box. -/
theorem offer_eq {site : Site L F K R σ} {h h' : Host L F K σ} {e : Expr L F K} {act : Bool → Act}
    (ho : h.offer site e act = some h') : ∃ f granted world sys,
      handOver site.toEnv e h.world = (some (f, granted), world) ∧
      Exec.step h.sys (act granted) = some sys ∧
      h' = ⟨sys, if granted then Function.update h.futs h.sys.nextTask f else h.futs, world⟩ := by
  unfold offer at ho
  split at ho
  · cases ho
  next f granted world hrun =>
    obtain ⟨sys, hsys, heq⟩ := Option.bind_eq_some_iff.mp ho
    exact ⟨f, granted, world, sys, hrun, hsys, (Option.some.inj heq).symm⟩

/-- **Inversion of a step.** -/
theorem stepped {site : Site L F K R σ} {h h' : Host L F K σ} {m : Move L F K R}
    (hs : h.step site m = some h') : Stepped site h m h' := by
  cases m with
  | spawn e =>
      obtain ⟨f, granted, world, sys, hrun, hsys, rfl⟩ := offer_eq hs
      exact .spawned hrun hsys
  | blockOn e out =>
      obtain ⟨f, granted, world, sys, hrun, hsys, rfl⟩ := offer_eq hs
      exact .blocked hrun hsys
  | run =>
      obtain ⟨sys, hsys, heq⟩ := Option.bind_eq_some_iff.mp hs
      cases heq
      exact .ran hsys
  | drive =>
      obtain ⟨sys, hsys, heq⟩ := Option.bind_eq_some_iff.mp hs
      cases heq
      exact .drove hsys
  | poll n =>
      have hs : h.pollTask site n = some h' := hs
      unfold pollTask at hs
      split at hs
      next c t hpc =>
        split at hs
        next world hpoll =>
          cases hs
          exact .stuck hpc hpoll
        next st f world hpoll =>
          cases hs
          exact .polled hpc hpoll (delivered site _ _)
      next => cases hs
  | drop =>
      have hs : h.dropTask site = some h' := hs
      unfold dropTask at hs
      split at hs
      next c t hpc =>
        split at hs
        next world hdrop =>
          -- a drop does not get stuck
          have htotal := futureDrop_total site.toEnv (h.futs t) h.world
          rw [Eff.wp, hdrop] at htotal
          exact htotal.elim
        next world hdrop =>
          obtain ⟨sys, hsys, heq⟩ := Option.bind_eq_some_iff.mp hs
          cases heq
          exact .dropped hpc hdrop hsys
      next => cases hs
  | park =>
      have hs : h.runHook site = some h' := hs
      unfold runHook at hs
      split at hs
      next c hpc =>
        cases hs
        exact .parked hpc rfl (delivered site _ _)
      next => cases hs
  | call r =>
      have hs : h.callOut site r = some h' := hs
      unfold callOut at hs
      split at hs
      next hpc =>
        cases hs
        exact .called (.inl hpc) (delivered site _ _)
      next c t hpc =>
        cases hs
        exact .called (.inr (.inl ⟨c, t, hpc⟩)) (delivered site _ _)
      next c hpc =>
        cases hs
        exact .called (.inr (.inr ⟨c, hpc⟩)) (delivered site _ _)
      all_goals cases hs

end Host

/-! ## Task boxes

The executor inside a host is a run of the machine of `Drive`, so its invariants hold here.
-/

/-- The executor refines a scheduler, or the run is over. -/
def Sys.Refined (s : Sys) : Prop := s.pc = .crashed ∨ ∃ v, Sim s v ∧ v.Ok

def Act.pushes : Act → Nat
  | .spawn _ true | .blockOn _ _ true => 1
  | _ => 0

theorem refined_init (park : Bool) (mem : σ) : (Host.init park mem : Host L F K σ).sys.Refined := by
  obtain ⟨v, hstep, hsim⟩ := sim_step (a := .setPark park) sim_init Sched.ok_init rfl
  exact .inr ⟨v, hsim, Sched.ok_init.step hstep⟩

theorem Sys.Refined.step {s s' : Sys} {a : Act} (h : s.Refined) (hs : Exec.step s a = some s') :
    s'.Refined ∧ s'.nextTask = s.nextTask + a.pushes := by
  rcases h with hcrashed | ⟨v, hsim, hok⟩
  · rcases a with _ | _ | _ | _ | _ | _ | _ | _ | _ | (_ | _) <;>
      simp [Exec.step, hcrashed, Pc.outside] at hs
  · obtain ⟨v', hstep, hsim'⟩ := sim_step hsim hok hs
    refine ⟨.inr ⟨v', hsim', hok.step hstep⟩, ?_⟩
    rw [hsim'.nextTask, hsim.nextTask]
    cases hstep <;> rfl

/-- Wakes, and then actions that allocate nothing. -/
theorem Sys.Refined.run {s s' : Sys} {as : List Act} (h : s.Refined)
    (hs : Machine.run Exec.step s as = some s') (has : ∀ a ∈ as, a.pushes = 0) :
    s'.Refined ∧ s'.nextTask = s.nextTask := by
  induction as generalizing s with
  | nil =>
      cases hs
      exact ⟨h, rfl⟩
  | cons a as ih =>
      obtain ⟨s₁, hs₁, hs⟩ := Option.bind_eq_some_iff.mp hs
      obtain ⟨ha, has⟩ := List.forall_mem_cons.mp has
      obtain ⟨h₁, hnext⟩ := h.step hs₁
      obtain ⟨h', hnext'⟩ := ih h₁ hs has
      exact ⟨h', by rw [hnext', hnext, ha, Nat.add_zero]⟩

theorem pushes_wakes (woken : List TaskId) {as : List Act} (h : ∀ a ∈ as, a.pushes = 0) :
    ∀ a ∈ woken.map Act.wake ++ as, a.pushes = 0 := by
  intro a ha
  rcases List.mem_append.mp ha with ha | ha
  · obtain ⟨t, -, rfl⟩ := List.mem_map.mp ha
    rfl
  · exact h a ha

/-- A task that is polled has a box. -/
theorem Sys.Refined.polled_lt {s : Sys} {c : Caller} {t : TaskId} (h : s.Refined)
    (hpc : s.pc = .polling c t) : t < s.nextTask := by
  rcases h with hcrashed | ⟨v, hsim, hok⟩
  · rw [hpc] at hcrashed
    cases hcrashed
  · rw [hsim.nextTask]
    exact hok.jobs_lt t (hok.polling c t (hsim.pc ▸ hpc))

/-! ## What is handed over is owned

A future that is handed over by `spawn` or `block_on` belongs to the executor from then on: it is in a
task box, or it was dropped because there was none.
-/

theorem leafIn_spec (env : Env L F K σ) (l : L) {R : Multiset Custody.Token} {w : World σ}
    (h : Own R w) : Eff.wp (leafIn env l) (Built R) (fun _ => False) w := by
  refine wp_box h ?_ ?_
  · intro id w' h'
    simpa [Built, Fut.tokens, Fut.custody] using h'
  · intro w' h'
    simpa [Built, Fut.tokens, Fut.custody] using h'

/-- A constructor that takes two children, behind the construction of both. -/
theorem construct_pair {env : Env L F K σ} {x y : Eff (World σ) (Fut L F K)}
    {box : Nat → Fut L F K → Fut L F K → Fut L F K}
    (hbox : ∀ id a b, (box id a b).custody = id ::ₘ (a.custody + b.custody))
    {R : Multiset Custody.Token} {w : World σ}
    (hx : ∀ {R w}, Own R w → Eff.wp x (Built R) (fun _ => False) w)
    (hy : ∀ {R w}, Own R w → Eff.wp y (Built R) (fun _ => False) w) (h : Own R w) :
    Eff.wp (do pairIn env box (← x) (← y)) (Built R) (fun _ => False) w := by
  apply Eff.wp_seq (hx h)
  intro fa w' h'
  apply Eff.wp_seq (hy h')
  intro fb w'' h''
  apply pairIn_spec env hbox
  rwa [add_left_comm]

theorem construct_spec (env : Env L F K σ) (e : Expr L F K) {R : Multiset Custody.Token}
    {w : World σ} (h : Own R w) : Eff.wp (construct env e) (Built R) (fun _ => False) w := by
  induction e generalizing R w with
  | null => simpa [construct, Built, Fut.tokens, Fut.custody] using h
  | leaf l => exact leafIn_spec env l h
  | map inner fn ih => exact Eff.wp_seq (ih h) fun f w' h' => mapIn_spec env h'
  | then_ a b iha ihb => exact construct_pair (fun _ _ _ => rfl) iha ihb h
  | join2 a size b iha ihb => exact construct_pair (fun _ _ _ => rfl) iha ihb h
  | select2 a b iha ihb => exact construct_pair (fun _ _ _ => rfl) iha ihb h
  | sm states start => exact smIn_spec env h

/-- What the executor has taken over. -/
def Taken (R : Multiset Custody.Token) (r : Fut L F K × Bool) (w : World σ) : Prop :=
  if r.2 then Built R r.1 w else Own R w

/-- **A future that gets no task box is dropped with everything in it.** -/
theorem handOver_spec (env : Env L F K σ) (e : Expr L F K) {R : Multiset Custody.Token}
    {w : World σ} (h : Own R w) : Eff.wp (handOver env e) (Taken R) (fun _ => False) w := by
  apply Eff.wp_seq (construct_spec env e h)
  intro f w' h'
  rw [push, Eff.wp_bind, Eff.wp_bind, request, Eff.wp_move]
  cases env.refuses w'.requests with
  | false => exact h'
  | true =>
      exact drop_seq (w := { w' with requests := w'.requests + 1 }) (over_tokens f) h'
        fun _ h'' => h''

end CustLib.Exec
