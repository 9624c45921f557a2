import CustLib.Execution.Executor

/-!
# Runs of the executor

`step` is one step of a program around one `cexec_executor`. The program acts while control is
outside the executor: at top level, in a poll, in the drop of a completed future and in the park
hook. In between, `executor_drive` acts on its own (`.drive`). A null pointer or a freed box that
is dereferenced leads to the state `crashed`, which has no further steps.
-/

namespace CustLib.Exec

open CustLib.Linked CustLib.ListHead

/-! ## Where control is

`executor_drive` runs until it calls foreign code: the `poll` and the `drop` of a future, or the park
hook. There the machine stops, and the program around it decides what happens. `Pc` has one constructor
for each such point, with what `executor_drive` keeps in its locals.
-/

/-- Who called `executor_drive`: `cexec_executor_run`, or `cexec_executor_block_on`. -/
inductive Caller where
  | run
  | blockOn (f : FrameId)
  deriving DecidableEq, Repr

inductive Pc where
  | idle
  | drive (c : Caller)
  | polling (c : Caller) (t : TaskId)
  | dropping (c : Caller) (t : TaskId)
  | parked (c : Caller)
  | crashed
  deriving DecidableEq, Repr

/-- Code outside the executor is running, and may call into it. -/
def Pc.outside : Pc → Bool
  | .idle | .polling _ _ | .dropping _ _ | .parked _ => true
  | .drive _ | .crashed => false

/-! ## What is observed

The history is what a program can see of its executor. It is never read by the model; the theorems are
stated about it.
-/

inductive Event where
  | pushed (t : TaskId) (done : Option FrameId)
  | rejected (fut : FutId)
  | woke (t : TaskId)
  | polled (t : TaskId)
  | pended (t : TaskId)
  | ready (t : TaskId)
  | setDone (f : FrameId)
  | dropped (t : TaskId)
  | freed (t : TaskId)
  | parked
  | resumed
  | stalled
  | stopped
  | returned (f : FrameId) (done : Bool)
  deriving DecidableEq, Repr

/-- The executor, the `done` locals of all `block_on` calls, and where control is. -/
structure Sys where
  ex        : Executor
  flags     : FrameId → Bool
  pc        : Pc
  nextTask  : TaskId
  nextFrame : FrameId
  log       : List Event

def Sys.init : Sys where
  ex        := Exec.init
  flags     := fun _ => false
  pc        := .idle
  nextTask  := 0
  nextFrame := 0
  log       := []

/-! ## The functions of the source

`cexec_executor_spawn`, `cexec_executor_block_on` and the parts of `executor_drive`, each up to the next
point where control leaves it.
-/

/-- Write through a `done` pointer, if there is one. -/
def writeDone (flags : FrameId → Bool) (done : Option FrameId) (v : Bool) : FrameId → Bool :=
  match done with
  | none   => flags
  | some f => Function.update flags f v

def doneEvents : Option FrameId → List Event
  | none   => []
  | some f => [.setDone f]

def Sys.push (s : Sys) (fut : FutId) (out : Option Nat) (done : Option FrameId) : Option Sys := do
  let ex ← executorPush s.ex s.nextTask fut out done
  return { s with ex, flags := writeDone s.flags done false, nextTask := s.nextTask + 1,
                  log := s.log ++ [.pushed s.nextTask done] }

/-- `cexec_executor_spawn`; `ok` is the allocator's answer. -/
def Sys.spawn (s : Sys) (fut : FutId) (ok : Bool) : Option Sys :=
  if ok then s.push fut none none else some { s with log := s.log ++ [.rejected fut] }

/-- `cexec_executor_block_on`, up to the call of `executor_drive`. -/
def Sys.blockOn (s : Sys) (fut : FutId) (out : Option Nat) (ok : Bool) : Option Sys :=
  let f := s.nextFrame
  let s₁ := { s with nextFrame := f + 1, flags := Function.update s.flags f false }
  if ok then do
    let s₂ ← s₁.push fut out (some f)
    return { s₂ with pc := .drive (.blockOn f) }
  else
    some { s₁ with log := s.log ++ [.rejected fut, .returned f false] }

/-- The history entry of the caller's return: `block_on` returns its `done` local. -/
def returnEvents (flags : FrameId → Bool) : Caller → List Event
  | .run       => []
  | .blockOn f => [.returned f (flags f)]

/-- `executor_drive` returns, and so does its caller. -/
def Sys.stop (s : Sys) (c : Caller) (why : Event) : Sys :=
  { s with pc := .idle, log := s.log ++ why :: returnEvents s.flags c }

/-- `executor_drive`, from the head of its loops to the next point where it gives control away:
    a poll, the park hook, or its caller. -/
def Sys.drive (s : Sys) (c : Caller) : Option Sys :=
  if isEmpty s.ex.links .ready then
    if s.ex.live = 0 then
      some (s.stop c .stopped)
    else if !s.ex.park then
      some (s.stop c .stopped)
    else
      some { s with pc := .parked c, log := s.log ++ [.parked] }
  else do
    let (t, ex) ← popReady s.ex
    return { s with ex, pc := .polling c t, log := s.log ++ [.polled t] }

def Sys.wake (s : Sys) (t : TaskId) : Option Sys := do
  let ex ← taskWake s.ex t
  return { s with ex, log := s.log ++ [.woke t] }

/-- `executor_drive` on a `Ready` answer, up to the call of `cexec_future_drop`. -/
def Sys.ready (s : Sys) (c : Caller) (t : TaskId) : Option Sys := do
  let ex ← unlinkQueued s.ex t
  let task ← ex.tasks t
  return { s with ex, flags := writeDone s.flags task.done true, pc := .dropping c t,
                  log := s.log ++ .ready t :: doneEvents task.done ++ [.dropped t] }

/-- `executor_drive` after `cexec_future_drop` has returned. -/
def Sys.finish (s : Sys) (c : Caller) (t : TaskId) : Sys :=
  { s with ex := freeTask s.ex t, pc := .drive c, log := s.log ++ [.freed t] }

/-! ## One step

The program has the next move whenever control is outside, and may also wake tasks and call back into
the executor from a poll or a drop. `step` refuses what the C interface excludes, and crashes where the
code would dereference a dead pointer.
-/

inductive Act where
  | setPark (installed : Bool)
  | spawn (fut : FutId) (ok : Bool)
  | run
  | blockOn (fut : FutId) (out : Option Nat) (ok : Bool)
  | wake (t : TaskId)
  | drive
  | answerPending
  | answerReady
  | dropped
  | parkReturns (progress : Bool)
  deriving DecidableEq, Repr

/-- A failed dereference ends the run. -/
def Sys.orCrash (s : Sys) (o : Option Sys) : Sys := o.getD { s with pc := .crashed }

/-- One step. `none` means that the action is not the program's to take here: a wake needs a live
    task (a waker never outlives its task's box), and an answer needs a question. -/
def step (s : Sys) (a : Act) : Option Sys :=
  match a, s.pc with
  | .setPark b, .idle            => some { s with ex := { s.ex with park := b } }
  | .run, .idle                  => some { s with pc := .drive .run }
  | .blockOn fut out ok, .idle   => some (s.orCrash (s.blockOn fut out ok))
  | .spawn fut ok, pc            => if pc.outside then some (s.orCrash (s.spawn fut ok)) else none
  | .wake t, pc                  =>
      if pc.outside ∧ (s.ex.tasks t).isSome then some (s.orCrash (s.wake t)) else none
  | .drive, .drive c             => some (s.orCrash (s.drive c))
  | .answerPending, .polling c t => some { s with pc := .drive c, log := s.log ++ [.pended t] }
  | .answerReady, .polling c t   => some (s.orCrash (s.ready c t))
  | .dropped, .dropping c t      => some (s.finish c t)
  | .parkReturns true, .parked c =>
      some { s with pc := .drive c, log := s.log ++ [.resumed] }
  | .parkReturns false, .parked c => some (s.stop c .stalled)
  | _, _                         => none

end CustLib.Exec
