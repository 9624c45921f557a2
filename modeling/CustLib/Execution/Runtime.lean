import CustLib.Std.Types
import CustLib.Execution.Drive
import CustLib.Execution.Future
import CustLib.Execution.Reactor

/-!
# `cust_execution::runtime` on a fake clock

The executor machine of `CustLib.Execution.Drive`, with real futures in its tasks and the reactor as its
park hook. `Runtime.turn` is one move of the program: where the executor waits for the answer of a
poll, the tree of the task is polled; where it waits for the hook, `reactorPark` moves the clock. The
leaves are those of `future.c` and `reactor.c`: `ready`, `yield_now` and `sleep`.

Tasks are spawned with no place for an output, so `ready` has no value here. `completed` is a history
of the clock readings at which tasks were `Ready`, which nothing in the model reads.
-/

namespace CustLib.Exec

open CustLib.Machine (run)

/-! ## The data

The boxes of the leaves, and the reactor with its clock. Timers are embedded in boxes, so a timer is
named by the number of its box.
-/

/-- The boxes of the leaves, less their allocators. The deadline and the waker of a `sleep` are those
    of its embedded timer, whose `fired` flag is with the reactor. -/
inductive RtLeaf where
  | ready
  | yieldNow (yielded : Bool)
  | sleep (dur : Nat) (armed : Bool) (deadline : Nat) (waker : TaskId)
  deriving DecidableEq, Repr

/-- `struct cexec_reactor` on a `cexec_fake_clock`: the reading of the clock, the linked timers, and the
    `fired` flag of each timer. `woken` are the tasks that a poll has woken so far. -/
structure Reactor where
  clock   : Nat
  pending : List Timer
  fired   : Nat → Bool
  woken   : List TaskId

/-! ## Leaves

`ready_poll`, `yield_poll` and `sleep_poll`, with their drops. A `yield` is `Pending` once and wakes its
own task; a `sleep` arms its timer at its first poll, unless its deadline is reached at once.
-/

/-- `sleep_poll`; the timer is embedded in the box `self`. -/
def sleepPoll (self dur : Nat) (armed : Bool) (deadline : Nat) (waker w : TaskId) (m : Reactor) :
    (Bool × RtLeaf) × Reactor :=
  if !armed then
    let deadline' := wadd m.clock dur
    if m.clock ≥ deadline' then
      ((true, .sleep dur armed deadline waker), m)
    else
      ((false, .sleep dur true deadline' w),
        { m with pending := reactorInsert ⟨self, deadline', w⟩ m.pending,
                 fired := Function.update m.fired self false })
  else
    ((decide (m.clock ≥ deadline), .sleep dur armed deadline waker), m)

/-- `sleep_drop`: a timer that has not fired is unlinked. -/
def sleepDrop (self : Nat) (armed : Bool) (deadline : Nat) (waker : TaskId) (m : Reactor) :
    Reactor :=
  if armed && !m.fired self then { m with pending := m.pending.erase ⟨self, deadline, waker⟩ }
  else m

/-- The `poll` functions of the leaves: `ready_poll`, `yield_poll`, `sleep_poll`. -/
def rtLeafPoll (self : Nat) (l : RtLeaf) (w : TaskId) (m : Reactor) : (Bool × RtLeaf) × Reactor :=
  match l with
  | .ready                            => ((true, .ready), m)
  | .yieldNow false                   =>
    ((false, .yieldNow true), { m with woken := m.woken ++ [w] })
  | .yieldNow true                    => ((true, .yieldNow true), m)
  | .sleep dur armed deadline waker   => sleepPoll self dur armed deadline waker w m

def rtLeafDrop (self : Nat) (l : RtLeaf) (m : Reactor) : Reactor :=
  match l with
  | .ready | .yieldNow _           => m
  | .sleep _ armed deadline waker  => sleepDrop self armed deadline waker m

abbrev RtFut := Fut RtLeaf Unit Empty

/-- The leaves on a reactor. Functions for `map` work on outputs; no allocation is refused. -/
def rtEnv : Env RtLeaf Unit Empty Reactor where
  leafPoll self l w _ m := rtLeafPoll self l w m
  leafDrop := rtLeafDrop
  mapFn _ _ m := m
  stateFn k _ := nomatch k
  refuses _ := false

/-! ## The park hook

`reactor_park` waits until the earliest deadline, which on a fake clock means to set it, and fires what
is due.
-/

/-- `reactor_park`, with `fake_wait_until`: whether a timer fired, and which tasks are woken. -/
def reactorPark (m : Reactor) : Bool × Reactor × List TaskId :=
  match earliest m.pending with
  | none          => (false, m, [])
  | some deadline =>
    let clock := if deadline > m.clock then deadline else m.clock
    let (due, stay) := fireDue clock m.pending
    (!due.isEmpty,
      { m with clock, pending := stay, fired := fun i => m.fired i || due.any (·.id = i) },
      due.map Timer.waker)

/-! ## The runtime

`cexec_runtime_spawn` and `cexec_runtime_run`. `turn` is what happens in `executor_drive` between two of
its calls: the executor steps, or the future in its hands is polled or dropped, or the hook runs.
-/

/-- A runtime: the executor, the futures in the task boxes, the heap of futures with the reactor, and
    when tasks were `Ready`. -/
structure Runtime where
  sys       : Sys
  futs      : TaskId → RtFut
  world     : World Reactor
  completed : List (TaskId × Nat)

/-- `cexec_runtime_init_with_clock`, on a fake clock that reads `start`. -/
def Runtime.init (start : Nat) : Runtime where
  sys       := { Sys.init with ex := { Exec.init with park := true } }
  futs      := fun _ => .null
  world     := World.start ⟨start, [], fun _ => false, []⟩
  completed := []

/-- `cexec_runtime_spawn` of a future that is built for it. -/
def Runtime.spawn (rt : Runtime) (e : Expr RtLeaf Unit Empty) : Option Runtime := do
  let (f, world) ← match build rtEnv e rt.world with
    | (some f, world) => some (f, world)
    | (none, _)       => none
  let sys ← step rt.sys (.spawn rt.sys.nextTask true)
  return { rt with sys, futs := Function.update rt.futs rt.sys.nextTask f, world }

/-- One move of the program inside `executor_drive`. -/
def Runtime.turn (rt : Runtime) : Option Runtime :=
  match rt.sys.pc with
  | .drive _ => do
    let sys ← step rt.sys .drive
    return { rt with sys }
  | .polling _ t =>
    let out := (rt.sys.ex.tasks t).bind Task.out
    match (rt.futs t).poll rtEnv t out { rt.world with mem.woken := [] } with
    | (none, _)            => none
    | (some (st, f), world) => do
      let answer := if st then .answerReady else .answerPending
      let sys ← run step rt.sys (world.mem.woken.map .wake ++ [answer])
      return { sys, futs := Function.update rt.futs t f, world,
               completed := rt.completed ++ if st then [(t, world.mem.clock)] else [] }
  | .dropping _ t =>
    match futureDrop rtEnv (rt.futs t) rt.world with
    | (none, _)        => none
    | (some (), world) => do
      let sys ← step rt.sys .dropped
      return { rt with sys, world }
  | .parked _ =>
    match reactorPark rt.world.mem with
    | (progress, mem, woken) => do
      let sys ← run step rt.sys (woken.map .wake ++ [.parkReturns progress])
      return { rt with sys, world := { rt.world with mem } }
  | .idle | .crashed => none

/-- `executor_drive`, cut off after a number of moves. -/
def Runtime.drive : Nat → Runtime → Option Runtime
  | 0, _      => none
  | n + 1, rt => if rt.sys.pc = .idle then some rt else (rt.turn).bind (Runtime.drive n)

def Runtime.run (n : Nat) (rt : Runtime) : Option Runtime := do
  let sys ← step rt.sys .run
  Runtime.drive n { rt with sys }

/-! ## What is spawned

A plan is a tree of sleeps, yields and combinators. Its time is what a reader expects of it: sums along
`then`, the larger one in `join2`, the smaller one in `select2`.
-/

inductive Plan where
  | sleep (dur : Nat)
  | yieldNow
  | ready
  | map (inner : Plan) (fn : Option Unit)
  | then_ (a b : Plan)
  | join2 (a : Plan) (aSize : Nat) (b : Plan)
  | select2 (a b : Plan)
  deriving DecidableEq, Repr

def Plan.expr : Plan → Expr RtLeaf Unit Empty
  | .sleep dur      => .leaf (.sleep dur false 0 0)
  | .yieldNow       => .leaf (.yieldNow false)
  | .ready          => .leaf .ready
  | .map inner fn   => .map inner.expr fn
  | .then_ a b      => .then_ a.expr b.expr
  | .join2 a size b => .join2 a.expr size b.expr
  | .select2 a b    => .select2 a.expr b.expr

/-- The time that a plan takes. -/
def Plan.time : Plan → Nat
  | .sleep dur      => dur
  | .yieldNow       => 0
  | .ready          => 0
  | .map inner _    => inner.time
  | .then_ a b      => a.time + b.time
  | .join2 a _ b    => max a.time b.time
  | .select2 a b    => min a.time b.time

def Plan.sleeps : Plan → Nat
  | .sleep dur      => dur
  | .yieldNow       => 0
  | .ready          => 0
  | .map inner _    => inner.sleeps
  | .then_ a b      => a.sleeps + b.sleeps
  | .join2 a _ b    => a.sleeps + b.sleeps
  | .select2 a b    => a.sleeps + b.sleeps

def runPlans (start : Nat) (plans : List Plan) (n : Nat) : Option Runtime := do
  let rt ← (plans.map Plan.expr).foldlM Runtime.spawn (Runtime.init start)
  rt.run n

end CustLib.Exec
