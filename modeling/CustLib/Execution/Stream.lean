import CustLib.Lib.Eff
import CustLib.Execution.Interest

/-!
# `cust_execution::fd`, `cust_execution::stream`

The futures of `stream.c` around their system calls. A poll is cut at its calls: `rwPoll` is the
code of `rw_poll` from the head of its loop to the next call or to its return, `rwReturn` is the
code behind the call, which may enter the loop again; the other futures are cut in the same way. So the
kernel's answers, the answers of the allocator, and what the rest of the program does to the driver
between two polls come in any order.

A readiness future that could not be allocated is the null future, and a poll of it calls through a
missing vtable (`pollFuture`). None of the futures looks at the readiness future that it gets:
`null_not_polled_iff` says that this goes well in exactly the runs in which the allocator serves
every request for one.
-/

namespace CustLib.Exec

/-! ## The rest of the system

What the futures of `stream.c` work on: the I/O driver, the memory with streams and results, and the
kernel. A poll is cut where it makes a system call, and goes on with the answer, so that the kernel's
answers are actions of a run.
-/

def EINTR : Int := 4

/-- `EAGAIN`, which is `EWOULDBLOCK` too. -/
def EAGAIN : Int := 11

def EINPROGRESS : Int := 115

inductive Call where
  | read (fd : Int) (len : Nat)
  | write (fd : Int) (off len : Nat)
  | accept (fd : Int)
  | socket (family : Int)
  | connect (fd : Int)
  | getsockopt (fd : Int)
  deriving DecidableEq, Repr

/-- What a system call answers: its result, or its negated `errno`; `getsockopt` answers with the
    pending error. Then what the code up to the next call is told, when it asks, by the allocator
    and by `EPOLL_CTL_ADD`. -/
structure Answer where
  ret   : Int
  alloc : Bool
  ctl   : Bool
  deriving DecidableEq, Repr

/-- What a future did to descriptors, and what it followed a null pointer for. -/
inductive NetEvent where
  | obtained (fd : Int)
  | closed (fd : Int)
  | nullPolled
  | nullWritten
  deriving DecidableEq, Repr

/-- The driver, the number of the next waker clone, the `isize` results and the descriptors of the
    `cexec_stream`s in the caller's memory, and the history. Allocator and driver are the same for
    all handles, so a handle is its descriptor. -/
structure Net where
  driver  : IoDriver
  clones  : TaskId
  results : Nat → Int
  streams : Nat → Int
  log     : List NetEvent

def record (e : NetEvent) : Eff Net Unit := Eff.modify fun net => { net with log := net.log ++ [e] }

/-- `if (out) { *(isize *)out = n; }` -/
def storeResult (out : Option Nat) (n : Int) : Eff Net Unit :=
  match out with
  | none   => pure ()
  | some p => Eff.modify fun net => { net with results := Function.update net.results p n }

/-- `*out = *s`, which does not look at `out`. -/
def storeStream (out : Option Nat) (fd : Int) : Eff Net Unit :=
  match out with
  | none   => do
    record .nullWritten
    Eff.stuck
  | some p => Eff.modify fun net => { net with streams := Function.update net.streams p fd }

def makeClosedStream (out : Option Nat) : Eff Net Unit := storeStream out (-1)

/-- `*(isize *)x` for a `usize`. -/
def toIsize (n : Nat) : Int := (n : Int).bmod (2 ^ 64)

theorem toIsize_eq {n : Nat} (h : n < 2 ^ 63) : toIsize n = n := by
  unfold toIsize
  rw [Int.bmod_def]
  omega

/-! ## `fd.c`

`cexec_fd_adopt` and `cexec_fd_close`: a descriptor is registered with the driver as long as its handle
is open.
-/

def closeFd (fd : Int) : Eff Net Unit := record (.closed fd)

/-- `cexec_fd_adopt`: whether it succeeds, and the descriptor of the handle. -/
def cexecFdAdopt (fd : Int) (a : Answer) : Eff Net (Bool × Int) := do
  let ok ← Eff.move fun net =>
    ((cexecIoAdd net.driver fd a.alloc a.ctl).1,
      { net with driver := (cexecIoAdd net.driver fd a.alloc a.ctl).2 })
  if !ok then
    closeFd fd
    return (false, -1)
  return (true, fd)

def cexecFdClose (h : Int) : Eff Net Int := do
  if h ≥ 0 then
    Eff.modify fun net => { net with driver := (cexecIoRemove net.driver h).1 }
    closeFd h
    return -1
  return h

/-! ## Readiness futures

A poll that gets `EAGAIN` asks for a `readable` or `writable` future and polls it; later polls resume in
front of it. If there is no memory for this future it is null, and the code polls it all the same.
-/

/-- The fields `awaiting` and `readiness` of a box; `none` is the null future. -/
structure Wait where
  awaiting  : Bool
  readiness : Option InterestBox
  deriving DecidableEq, Repr

def Wait.idle : Wait := ⟨false, none⟩

/-- `cexec_fd_readable` or `cexec_fd_writable`, which is awaited whatever came of it. -/
def awaitOn (fd : Int) (wantWrite alloc : Bool) : Wait :=
  ⟨true, if alloc then some (interestNew fd wantWrite) else none⟩

def pollFuture : Option InterestBox → Eff Net (Bool × Option InterestBox)
  | none   => do
    record .nullPolled
    Eff.stuck
  | some b => Eff.move fun net =>
    let (st, driver, b) := interestPoll net.driver b net.clones
    ((st, some b), { net with driver, clones := net.clones + 1 })

def dropFuture : Option InterestBox → Eff Net Unit
  | none   => pure ()
  | some b => Eff.modify fun net => { net with driver := (interestDrop net.driver b).1 }

/-- `if (b->awaiting)` at the head of a loop: whether to go on, and the fields after it. -/
def awaitReady (wait : Wait) : Eff Net (Bool × Wait) := do
  if !wait.awaiting then
    return (true, wait)
  let (st, readiness) ← pollFuture wait.readiness
  if !st then
    return (false, { wait with readiness })
  dropFuture readiness
  return (true, .idle)

def dropWait (wait : Wait) : Eff Net Unit := Eff.when wait.awaiting (dropFuture wait.readiness)

/-! ## The boxes

`struct rw_box`, `struct writeall_box`, `struct accept_box` and `struct connect_box`, less allocator and
buffer, and the constructors. The boxes themselves are allocated; the requests for readiness futures are
answered in the run.
-/

/-- `struct rw_box`; `stream` points to the `cexec_stream`. -/
structure RwBox where
  stream  : Nat
  len     : Nat
  isWrite : Bool
  wait    : Wait
  deriving DecidableEq, Repr

structure WriteallBox where
  stream : Nat
  len    : Nat
  off    : Nat
  wait   : Wait
  deriving DecidableEq, Repr

/-- `struct accept_box`; `lis` points to the `cexec_listener`. -/
structure AcceptBox where
  lis  : Nat
  wait : Wait
  deriving DecidableEq, Repr

/-- `struct connect_box`; `stream` is the descriptor of the stream in it. -/
structure ConnectBox where
  family  : Int
  stream  : Int
  started : Bool
  moved   : Bool
  wait    : Wait
  deriving DecidableEq, Repr

inductive IoFut where
  | rw (b : RwBox)
  | writeall (b : WriteallBox)
  | accept (b : AcceptBox)
  | connect (b : ConnectBox)
  deriving DecidableEq, Repr

def cexecStreamRead (s len : Nat) : IoFut := .rw ⟨s, len, false, .idle⟩

def cexecStreamWrite (s len : Nat) : IoFut := .rw ⟨s, len, true, .idle⟩

def cexecStreamWriteAll (s len : Nat) : IoFut := .writeall ⟨s, len, 0, .idle⟩

def cexecListenerAccept (l : Nat) : IoFut := .accept ⟨l, .idle⟩

def cexecNetConnect (family : Int) : IoFut := .connect ⟨family, -1, false, false, .idle⟩

/-- Where a poll has got to: it has returned, or waits for a system call. -/
inductive Next where
  | pending
  | ready
  | call (c : Call)
  deriving DecidableEq, Repr

/-! ## `read` and `write`

`rw_poll` in two parts, from the head of its loop to the system call and behind it. `EINTR` retries,
`EAGAIN` waits, and every other answer is the result.
-/

def rwPoll (b : RwBox) : Eff Net (Next × IoFut) := do
  let (go, wait) ← awaitReady b.wait
  let b := { b with wait }
  if !go then
    return (.pending, .rw b)
  let fd ← Eff.move fun net => (net.streams b.stream, net)
  return (.call (if b.isWrite then .write fd 0 b.len else .read fd b.len), .rw b)

def rwReturn (b : RwBox) (out : Option Nat) (a : Answer) : Eff Net (Next × IoFut) := do
  if a.ret ≥ 0 then
    storeResult out a.ret
    return (.ready, .rw b)
  else if a.ret = -EINTR then
    rwPoll b
  else if a.ret = -EAGAIN then
    let fd ← Eff.move fun net => (net.streams b.stream, net)
    rwPoll { b with wait := awaitOn fd b.isWrite a.alloc }
  else
    storeResult out a.ret
    return (.ready, .rw b)

/-! ## `write_all`

`writeall_poll`, which goes on with the rest of the buffer until everything is written, an error comes,
or `write` returns 0.
-/

def writeallPoll (b : WriteallBox) (out : Option Nat) : Eff Net (Next × IoFut) := do
  let (go, wait) ← awaitReady b.wait
  let b := { b with wait }
  if !go then
    return (.pending, .writeall b)
  if b.off ≥ b.len then
    storeResult out (toIsize b.len)
    return (.ready, .writeall b)
  let fd ← Eff.move fun net => (net.streams b.stream, net)
  return (.call (.write fd b.off (b.len - b.off)), .writeall b)

def writeallReturn (b : WriteallBox) (out : Option Nat) (a : Answer) :
    Eff Net (Next × IoFut) := do
  if a.ret > 0 then
    writeallPoll { b with off := wadd b.off a.ret.toNat } out
  else if a.ret = -EINTR then
    writeallPoll b out
  else if a.ret = -EAGAIN then
    let fd ← Eff.move fun net => (net.streams b.stream, net)
    writeallPoll { b with wait := awaitOn fd true a.alloc } out
  else
    -- nothing was written, or a hard error
    storeResult out (if a.ret < 0 then a.ret else toIsize b.off)
    return (.ready, .writeall b)

/-! ## `accept`

`accept_poll`. A new descriptor is adopted into the stream at `out`; where that fails, or there is no
place for it, the code stores a closed stream.
-/

def acceptPoll (b : AcceptBox) : Eff Net (Next × IoFut) := do
  let (go, wait) ← awaitReady b.wait
  let b := { b with wait }
  if !go then
    return (.pending, .accept b)
  let lfd ← Eff.move fun net => (net.streams b.lis, net)
  return (.call (.accept lfd), .accept b)

def acceptAdopt (a : Answer) : Option Nat → Eff Net Unit
  | some p => do
    makeClosedStream (some p)
    let (_, fd) ← cexecFdAdopt a.ret a
    storeStream (some p) fd
  | none   => closeFd a.ret

/-- `if (out) { make_closed_stream(out, …); }` -/
def acceptFail : Option Nat → Eff Net Unit
  | some p => makeClosedStream (some p)
  | none   => pure ()

def acceptReturn (b : AcceptBox) (out : Option Nat) (a : Answer) : Eff Net (Next × IoFut) := do
  if a.ret ≥ 0 then
    record (.obtained a.ret)
    acceptAdopt a out
    return (.ready, .accept b)
  else if a.ret = -EINTR then
    acceptPoll b
  else if a.ret = -EAGAIN then
    let lfd ← Eff.move fun net => (net.streams b.lis, net)
    acceptPoll { b with wait := awaitOn lfd false a.alloc }
  else
    acceptFail out
    return (.ready, .accept b)

/-! ## `connect`

`connect_poll` and its helpers. It is the one future that holds a descriptor of its own between polls,
until `connect_hand_off` gives it to the stream at `out`.
-/

def connectHandOff (b : ConnectBox) (out : Option Nat) : Eff Net ConnectBox := do
  match out with
  | some p => storeStream (some p) b.stream
  | none   => pure ()
  return { b with moved := true, stream := -1 }

/-- `connect_poll` from `if (b->awaiting)`. -/
def connectAwait (b : ConnectBox) : Eff Net (Next × IoFut) := do
  if !b.wait.awaiting then
    return (.ready, .connect b)
  let (go, wait) ← awaitReady b.wait
  let b := { b with wait }
  if !go then
    return (.pending, .connect b)
  return (.call (.getsockopt b.stream), .connect b)

def connectPoll (b : ConnectBox) : Eff Net (Next × IoFut) := do
  if !b.started then
    return (.call (.socket b.family), .connect { b with started := true })
  connectAwait b

def connectSocket (b : ConnectBox) (out : Option Nat) (a : Answer) : Eff Net (Next × IoFut) := do
  if a.ret < 0 then
    makeClosedStream out
    return (.ready, .connect b)
  record (.obtained a.ret)
  let (ok, stream) ← cexecFdAdopt a.ret a
  let b := { b with stream }
  if !ok then
    makeClosedStream out
    return (.ready, .connect b)
  return (.call (.connect a.ret), .connect b)

def connectConnect (b : ConnectBox) (out : Option Nat) (a : Answer) : Eff Net (Next × IoFut) := do
  if a.ret = 0 then
    return (.ready, .connect (← connectHandOff b out))
  if a.ret ≠ -EINPROGRESS then
    let b := { b with stream := ← cexecFdClose b.stream }
    makeClosedStream out
    return (.ready, .connect b)
  connectAwait { b with wait := awaitOn b.stream true a.alloc }

def connectSockopt (b : ConnectBox) (out : Option Nat) (a : Answer) : Eff Net (Next × IoFut) := do
  if a.ret = 0 then
    return (.ready, .connect (← connectHandOff b out))
  let b := { b with stream := ← cexecFdClose b.stream }
  makeClosedStream out
  return (.ready, .connect b)

def connectDrop (b : ConnectBox) : Eff Net Unit := do
  dropWait b.wait
  if !b.moved && b.stream ≥ 0 then
    let _ ← cexecFdClose b.stream

/-! ## Any of the futures

Dispatch on the vtable, so that a run need not know which future it is about.
-/

/-- The `poll` functions of the vtables, up to their first system call. -/
def ioPoll (out : Option Nat) : IoFut → Eff Net (Next × IoFut)
  | .rw b       => rwPoll b
  | .writeall b => writeallPoll b out
  | .accept b   => acceptPoll b
  | .connect b  => connectPoll b

def ioReturn (out : Option Nat) (a : Answer) : IoFut → Call → Eff Net (Next × IoFut)
  | .rw b, _                    => rwReturn b out a
  | .writeall b, _              => writeallReturn b out a
  | .accept b, _                => acceptReturn b out a
  | .connect b, .socket _       => connectSocket b out a
  | .connect b, .connect _      => connectConnect b out a
  | .connect b, .getsockopt _   => connectSockopt b out a
  | .connect b, _               => return (.ready, .connect b)

def ioDrop : IoFut → Eff Net Unit
  | .rw b       => dropWait b.wait
  | .writeall b => dropWait b.wait
  | .accept b   => dropWait b.wait
  | .connect b  => connectDrop b

/-! ## The life of a future

A system with one future: the program polls it and drops it, the kernel answers its calls, and the rest
of the program changes the driver in between.
-/

/-- Where control is: outside, in a system call of a poll, or nowhere, because a null pointer was
    followed. A future that is `Ready` is not polled again. -/
inductive IoPc where
  | idle
  | calling (c : Call)
  | ready
  | dropped
  | crashed
  deriving DecidableEq, Repr

/-- A future, the system it works on, and the place that its last poll was given for the output. -/
structure NetSys where
  net : Net
  fut : IoFut
  out : Option Nat
  pc  : IoPc

/-- What happens to a future: it is polled with some place for its output, a system call answers, it
    is dropped. Between its polls the rest of the program works on the driver and on its own
    streams. -/
inductive NetAct where
  | poll (out : Option Nat)
  | answer (a : Answer)
  | drop
  | driver (d : IoDriver)
  | stream (p : Nat) (fd : Int)

def Next.pc : Next → IoPc
  | .pending => .idle
  | .ready   => .ready
  | .call c  => .calling c

def NetSys.enter (s : NetSys) (out : Option Nat) (x : Eff Net (Next × IoFut)) : NetSys :=
  match x s.net with
  | (some (next, fut), net) => { net, fut, out, pc := next.pc }
  | (none, net)             => { s with net, out, pc := .crashed }

def NetSys.leave (s : NetSys) : NetSys :=
  match ioDrop s.fut s.net with
  | (some _, net) => { s with net, pc := .dropped }
  | (none, net)   => { s with net, pc := .crashed }

def IoPc.outside : IoPc → Bool
  | .idle | .ready | .dropped => true
  | .calling _ | .crashed => false

def NetSys.step (s : NetSys) : NetAct → Option NetSys
  | .poll out => if s.pc = .idle then some (s.enter out (ioPoll out s.fut)) else none
  | .answer a =>
    match s.pc with
    | .calling c => some (s.enter s.out (ioReturn s.out a s.fut c))
    | _ => none
  | .drop => if s.pc = .idle ∨ s.pc = .ready then some s.leave else none
  | .driver d => if s.pc.outside then some { s with net := { s.net with driver := d } } else none
  | .stream p fd =>
    if s.pc.outside then
      some { s with net := { s.net with streams := Function.update s.net.streams p fd } }
    else none

/-- A new future in a system with this driver and memory. -/
def NetSys.start (driver : IoDriver) (streams : Nat → Int) (fut : IoFut) : NetSys where
  net := ⟨driver, 0, fun _ => 0, streams, []⟩
  fut := fut
  out := none
  pc  := .idle

/-- A future that one of the constructors has returned. -/
inductive IoFut.Fresh : IoFut → Prop where
  | read (s len : Nat) : IoFut.Fresh (cexecStreamRead s len)
  | write (s len : Nat) : IoFut.Fresh (cexecStreamWrite s len)
  | writeAll (s len : Nat) : IoFut.Fresh (cexecStreamWriteAll s len)
  | accept (l : Nat) : IoFut.Fresh (cexecListenerAccept l)
  | connect (family : Int) : IoFut.Fresh (cexecNetConnect family)

/-- What one step is. -/
theorem step_cases {s s' : NetSys} {a : NetAct} (h : s.step a = some s') :
    (∃ out, a = .poll out ∧ s.pc = .idle ∧ s' = s.enter out (ioPoll out s.fut)) ∨
      (∃ ans c, a = .answer ans ∧ s.pc = .calling c ∧
        s' = s.enter s.out (ioReturn s.out ans s.fut c)) ∨
      (a = .drop ∧ (s.pc = .idle ∨ s.pc = .ready) ∧ s' = s.leave) ∨
      (∃ d, a = .driver d ∧ s.pc.outside = true ∧
        s' = { s with net := { s.net with driver := d } }) ∨
      (∃ p fd, a = .stream p fd ∧ s.pc.outside = true ∧
        s' = { s with net := { s.net with streams := Function.update s.net.streams p fd } }) := by
  cases a with
  | poll out =>
      simp only [NetSys.step, Option.ite_none_right_eq_some, Option.some.injEq] at h
      exact .inl ⟨out, rfl, h.1, h.2.symm⟩
  | answer ans =>
      simp only [NetSys.step] at h
      split at h
      next c hpc =>
        cases h
        exact .inr (.inl ⟨ans, c, rfl, hpc, rfl⟩)
      next => cases h
  | drop =>
      simp only [NetSys.step, Option.ite_none_right_eq_some, Option.some.injEq] at h
      exact .inr (.inr (.inl ⟨rfl, h.1, h.2.symm⟩))
  | driver d =>
      simp only [NetSys.step, Option.ite_none_right_eq_some, Option.some.injEq] at h
      exact .inr (.inr (.inr (.inl ⟨d, rfl, h.1, h.2.symm⟩)))
  | stream p fd =>
      simp only [NetSys.step, Option.ite_none_right_eq_some, Option.some.injEq] at h
      exact .inr (.inr (.inr (.inr ⟨p, fd, rfl, h.1, h.2.symm⟩)))

/-! ## The null future

When does a future of `stream.c` poll a null future? The condition names the requests for readiness
futures, and is exact in both directions.
-/

def NoNull (net : Net) : Prop := .nullPolled ∉ net.log

def Wait.Ok (wait : Wait) : Prop := wait.awaiting = true → wait.readiness ≠ none

def IoFut.wait : IoFut → Wait
  | .rw b       => b.wait
  | .writeall b => b.wait
  | .accept b   => b.wait
  | .connect b  => b.wait

/-- The program polls no null future, and leaves no future that would. -/
def Sound (x : Eff Net (Next × IoFut)) : Prop := Eff.Keeps NoNull x fun r => r.2.wait.Ok

theorem ok_idle : Wait.idle.Ok := nofun

theorem ok_awaitOn {alloc : Bool} (h : alloc = true) (fd : Int) (wantWrite : Bool) :
    (awaitOn fd wantWrite alloc).Ok := by
  intro _
  rw [awaitOn, if_pos h]
  exact nofun

/-! ### The parts of a poll

Each piece of code polls only a readiness future that it has, if the awaited one is there.
-/

theorem record_keeps {e : NetEvent} (he : e ≠ .nullPolled) :
    Eff.Keeps NoNull (record e) fun _ => True := by
  apply Eff.keeps_modify
  intro net h
  show _ ∉ net.log ++ [e]
  rw [List.mem_append, List.mem_singleton, not_or]
  exact ⟨h, Ne.symm he⟩

/-- A change that is not to the history. -/
theorem quiet_keeps {f : Net → Net} (h : ∀ net, (f net).log = net.log) :
    Eff.Keeps NoNull (Eff.modify f) fun _ => True :=
  Eff.keeps_modify fun net hnet => by rwa [NoNull, h net]

theorem get_keeps {α : Type} (f : Net → α) :
    Eff.Keeps NoNull (Eff.move fun net => (f net, net)) fun _ => True :=
  Eff.keeps_move fun _ hnet => ⟨trivial, hnet⟩

theorem storeResult_keeps (out : Option Nat) (n : Int) :
    Eff.Keeps NoNull (storeResult out n) fun _ => True := by
  cases out with
  | none => exact Eff.keeps_pure trivial
  | some p => exact quiet_keeps fun _ => rfl

theorem storeStream_keeps (out : Option Nat) (fd : Int) :
    Eff.Keeps NoNull (storeStream out fd) fun _ => True := by
  cases out with
  | none => exact Eff.keeps_bind (record_keeps nofun) fun _ _ => Eff.keeps_stuck
  | some p => exact quiet_keeps fun _ => rfl

theorem cexecFdAdopt_keeps (fd : Int) (a : Answer) :
    Eff.Keeps NoNull (cexecFdAdopt fd a) fun _ => True := by
  apply Eff.keeps_bind (P := fun _ => True)
  · exact Eff.keeps_move fun _ hnet => ⟨trivial, hnet⟩
  · intro ok _
    split
    · exact Eff.keeps_bind (record_keeps nofun) fun _ _ => Eff.keeps_pure trivial
    · exact Eff.keeps_pure trivial

theorem cexecFdClose_keeps (fd : Int) : Eff.Keeps NoNull (cexecFdClose fd) fun _ => True := by
  unfold cexecFdClose
  split
  · refine Eff.keeps_bind (quiet_keeps fun _ => rfl) fun _ _ => ?_
    exact Eff.keeps_bind (record_keeps nofun) fun _ _ => Eff.keeps_pure trivial
  · exact Eff.keeps_pure trivial

theorem acceptAdopt_keeps (a : Answer) (out : Option Nat) :
    Eff.Keeps NoNull (acceptAdopt a out) fun _ => True := by
  cases out with
  | none => exact record_keeps nofun
  | some p =>
      apply Eff.keeps_bind (storeStream_keeps (some p) _)
      intro _ _
      apply Eff.keeps_bind (cexecFdAdopt_keeps a.ret a)
      intro r _
      exact storeStream_keeps (some p) r.2

theorem acceptFail_keeps (out : Option Nat) : Eff.Keeps NoNull (acceptFail out) fun _ => True := by
  cases out with
  | none => exact Eff.keeps_pure trivial
  | some p => exact storeStream_keeps (some p) (-1)

theorem dropFuture_keeps (b : Option InterestBox) :
    Eff.Keeps NoNull (dropFuture b) fun _ => True := by
  cases b with
  | none => exact Eff.keeps_pure trivial
  | some b => exact quiet_keeps fun _ => rfl

/-- The head of a loop, when what is awaited is there. -/
theorem awaitReady_keeps {wait : Wait} (h : wait.Ok) :
    Eff.Keeps NoNull (awaitReady wait) fun r => r.2.Ok := by
  unfold awaitReady
  cases hw : wait.awaiting with
  | false => exact Eff.keeps_pure h
  | true =>
      obtain ⟨b, hb⟩ := Option.ne_none_iff_exists'.mp (h hw)
      rw [hb]
      refine Eff.keeps_bind (P := fun r => r.2 ≠ none) ?_ ?_
      · exact Eff.keeps_move fun _ hnet => ⟨nofun, hnet⟩
      · intro r hr
        dsimp only
        split
        · exact Eff.keeps_pure (show Wait.Ok _ from fun _ => hr)
        · exact Eff.keeps_bind (dropFuture_keeps r.2) fun _ _ => Eff.keeps_pure ok_idle

/-- A poll from the head of its loop. -/
theorem head_sound {wait : Wait} (h : wait.Ok) {k : Bool × Wait → Eff Net (Next × IoFut)}
    (hk : ∀ r, r.2.Ok → Sound (k r)) : Sound (awaitReady wait >>= k) :=
  Eff.keeps_bind (awaitReady_keeps h) hk

theorem rwPoll_sound {b : RwBox} (h : b.wait.Ok) : Sound (rwPoll b) := by
  apply head_sound h
  intro r hr
  dsimp only
  split
  · exact Eff.keeps_pure hr
  · exact Eff.keeps_bind (get_keeps _) fun _ _ => Eff.keeps_pure hr

theorem writeallPoll_sound {b : WriteallBox} (h : b.wait.Ok) (out : Option Nat) :
    Sound (writeallPoll b out) := by
  apply head_sound h
  intro r hr
  dsimp only
  split
  · exact Eff.keeps_pure hr
  split
  · exact Eff.keeps_bind (storeResult_keeps out _) fun _ _ => Eff.keeps_pure hr
  · exact Eff.keeps_bind (get_keeps _) fun _ _ => Eff.keeps_pure hr

theorem acceptPoll_sound {b : AcceptBox} (h : b.wait.Ok) : Sound (acceptPoll b) := by
  apply head_sound h
  intro r hr
  dsimp only
  split
  · exact Eff.keeps_pure hr
  · exact Eff.keeps_bind (get_keeps _) fun _ _ => Eff.keeps_pure hr

theorem connectAwait_sound {b : ConnectBox} (h : b.wait.Ok) : Sound (connectAwait b) := by
  unfold connectAwait
  split
  · exact Eff.keeps_pure h
  · apply head_sound h
    intro r hr
    dsimp only
    split
    · exact Eff.keeps_pure hr
    · exact Eff.keeps_pure hr

/-! ### Whole polls

`blocked` tells the answers upon which a poll asks for a readiness future. All others lead on without
one.
-/

/-- The answer says that the future has to wait, and a readiness future is asked for. -/
def IoFut.blocked : IoFut → Call → Int → Bool
  | .connect _, .connect _, ret => ret = -EINPROGRESS
  | .connect _, _, _            => false
  | _, _, ret                   => ret = -EAGAIN

theorem rwReturn_sound {b : RwBox} (h : b.wait.Ok) (out : Option Nat) {a : Answer}
    (ha : a.ret = -EAGAIN → a.alloc = true) : Sound (rwReturn b out a) := by
  unfold rwReturn
  split
  · exact Eff.keeps_bind (storeResult_keeps out _) fun _ _ => Eff.keeps_pure h
  split
  · exact rwPoll_sound h
  split
  next hagain =>
    apply Eff.keeps_bind (get_keeps _)
    intro fd _
    exact rwPoll_sound (ok_awaitOn (ha hagain) fd b.isWrite)
  next => exact Eff.keeps_bind (storeResult_keeps out _) fun _ _ => Eff.keeps_pure h

theorem writeallReturn_sound {b : WriteallBox} (h : b.wait.Ok) (out : Option Nat) {a : Answer}
    (ha : a.ret = -EAGAIN → a.alloc = true) : Sound (writeallReturn b out a) := by
  unfold writeallReturn
  split
  · exact writeallPoll_sound (b := { b with off := wadd b.off a.ret.toNat }) h out
  split
  · exact writeallPoll_sound h out
  split
  next hagain =>
    apply Eff.keeps_bind (get_keeps _)
    intro fd _
    exact writeallPoll_sound (ok_awaitOn (ha hagain) fd true) out
  next => exact Eff.keeps_bind (storeResult_keeps out _) fun _ _ => Eff.keeps_pure h

theorem acceptReturn_sound {b : AcceptBox} (h : b.wait.Ok) (out : Option Nat) {a : Answer}
    (ha : a.ret = -EAGAIN → a.alloc = true) : Sound (acceptReturn b out a) := by
  unfold acceptReturn
  split
  · refine Eff.keeps_bind (record_keeps nofun) fun _ _ => ?_
    exact Eff.keeps_bind (acceptAdopt_keeps a out) fun _ _ => Eff.keeps_pure h
  split
  · exact acceptPoll_sound h
  split
  next hagain =>
    apply Eff.keeps_bind (get_keeps _)
    intro lfd _
    exact acceptPoll_sound (ok_awaitOn (ha hagain) lfd false)
  next => exact Eff.keeps_bind (acceptFail_keeps out) fun _ _ => Eff.keeps_pure h

theorem connectHandOff_keeps (b : ConnectBox) (out : Option Nat) :
    Eff.Keeps NoNull (connectHandOff b out) fun b' => b'.wait = b.wait := by
  cases out with
  | none => exact Eff.keeps_pure rfl
  | some p => exact Eff.keeps_bind (storeStream_keeps (some p) _) fun _ _ => Eff.keeps_pure rfl

/-- The last step of a connect. -/
theorem connectHandOff_sound {b : ConnectBox} (h : b.wait.Ok) (out : Option Nat) :
    Sound (do return (.ready, .connect (← connectHandOff b out))) := by
  apply Eff.keeps_bind (connectHandOff_keeps b out)
  intro b' hb'
  exact Eff.keeps_pure (show b'.wait.Ok from hb' ▸ h)

/-- A connect that has failed. -/
theorem connectFail_sound {b : ConnectBox} (h : b.wait.Ok) (out : Option Nat) :
    Sound (do
      let b := { b with stream := ← cexecFdClose b.stream }
      makeClosedStream out
      return (.ready, .connect b)) := by
  apply Eff.keeps_bind (cexecFdClose_keeps b.stream)
  intro _ _
  exact Eff.keeps_bind (storeStream_keeps out (-1)) fun _ _ => Eff.keeps_pure h

theorem connectSocket_sound {b : ConnectBox} (h : b.wait.Ok) (out : Option Nat) (a : Answer) :
    Sound (connectSocket b out a) := by
  unfold connectSocket
  split
  · exact Eff.keeps_bind (storeStream_keeps out (-1)) fun _ _ => Eff.keeps_pure h
  · refine Eff.keeps_bind (record_keeps nofun) fun _ _ => ?_
    apply Eff.keeps_bind (cexecFdAdopt_keeps a.ret a)
    intro r _
    dsimp only
    split
    · exact Eff.keeps_bind (storeStream_keeps out (-1)) fun _ _ => Eff.keeps_pure h
    · exact Eff.keeps_pure h

theorem connectConnect_sound {b : ConnectBox} (h : b.wait.Ok) (out : Option Nat) {a : Answer}
    (ha : a.ret = -EINPROGRESS → a.alloc = true) : Sound (connectConnect b out a) := by
  unfold connectConnect
  split
  · exact connectHandOff_sound h out
  split
  · exact connectFail_sound h out
  next hprogress =>
    rw [not_not] at hprogress
    exact connectAwait_sound (ok_awaitOn (ha hprogress) b.stream true)

theorem connectSockopt_sound {b : ConnectBox} (h : b.wait.Ok) (out : Option Nat) (a : Answer) :
    Sound (connectSockopt b out a) := by
  unfold connectSockopt
  split
  · exact connectHandOff_sound h out
  · exact connectFail_sound h out

theorem ioPoll_sound {fut : IoFut} (h : fut.wait.Ok) (out : Option Nat) :
    Sound (ioPoll out fut) := by
  cases fut with
  | rw b => exact rwPoll_sound h
  | writeall b => exact writeallPoll_sound h out
  | accept b => exact acceptPoll_sound h
  | connect b =>
      show Sound (connectPoll b)
      unfold connectPoll
      split
      · exact Eff.keeps_pure h
      · exact connectAwait_sound h

theorem ioReturn_sound {fut : IoFut} (h : fut.wait.Ok) (out : Option Nat) {a : Answer} {c : Call}
    (ha : fut.blocked c a.ret = true → a.alloc = true) : Sound (ioReturn out a fut c) := by
  cases fut with
  | rw b => exact rwReturn_sound h out fun hret => ha (decide_eq_true hret)
  | writeall b => exact writeallReturn_sound h out fun hret => ha (decide_eq_true hret)
  | accept b => exact acceptReturn_sound h out fun hret => ha (decide_eq_true hret)
  | connect b =>
      cases c with
      | socket family => exact connectSocket_sound h out a
      | connect fd => exact connectConnect_sound h out fun hret => ha (decide_eq_true hret)
      | getsockopt fd => exact connectSockopt_sound h out a
      | read fd len => exact Eff.keeps_pure h
      | write fd off len => exact Eff.keeps_pure h
      | accept fd => exact Eff.keeps_pure h

theorem ioDrop_keeps (fut : IoFut) : Eff.Keeps NoNull (ioDrop fut) fun _ => True := by
  have hwait : ∀ wait : Wait, Eff.Keeps NoNull (dropWait wait) fun _ => True := fun wait =>
    Eff.keeps_when (dropFuture_keeps wait.readiness)
  cases fut with
  | rw b => exact hwait b.wait
  | writeall b => exact hwait b.wait
  | accept b => exact hwait b.wait
  | connect b =>
      apply Eff.keeps_bind (hwait b.wait)
      intro _ _
      split
      · exact Eff.keeps_bind (cexecFdClose_keeps b.stream) fun _ _ => Eff.keeps_pure trivial
      · exact Eff.keeps_pure trivial

/-! ### Refused requests

The other direction: a request that is refused leads straight into the poll of the null future, which
does not return.
-/

/-- The program polls a null future, and does not return. -/
def Crashes (x : Eff Net (Next × IoFut)) : Prop :=
  ∀ net, Eff.wp x (fun _ _ => False) (fun net => .nullPolled ∈ net.log) net

/-- What was not allocated is polled. -/
theorem awaitOn_crashes (fd : Int) (wantWrite : Bool) (k : Bool × Wait → Eff Net (Next × IoFut)) :
    Crashes (awaitReady (awaitOn fd wantWrite false) >>= k) := by
  intro net
  show .nullPolled ∈ net.log ++ [.nullPolled]
  exact List.mem_append_right _ (List.mem_singleton_self _)

theorem get_crashes {α : Type} {f : Net → α} {k : α → Eff Net (Next × IoFut)}
    (h : ∀ x, Crashes (k x)) : Crashes (Eff.move (fun net => (f net, net)) >>= k) :=
  fun net => h (f net) net

theorem rwPoll_crashes {b : RwBox} {fd : Int} {wantWrite : Bool}
    (h : b.wait = awaitOn fd wantWrite false) : Crashes (rwPoll b) := by
  unfold rwPoll
  rw [h]
  exact awaitOn_crashes fd wantWrite _

theorem writeallPoll_crashes {b : WriteallBox} {fd : Int} {wantWrite : Bool} (out : Option Nat)
    (h : b.wait = awaitOn fd wantWrite false) : Crashes (writeallPoll b out) := by
  unfold writeallPoll
  rw [h]
  exact awaitOn_crashes fd wantWrite _

theorem acceptPoll_crashes {b : AcceptBox} {fd : Int} {wantWrite : Bool}
    (h : b.wait = awaitOn fd wantWrite false) : Crashes (acceptPoll b) := by
  unfold acceptPoll
  rw [h]
  exact awaitOn_crashes fd wantWrite _

theorem connectAwait_crashes {b : ConnectBox} {fd : Int} {wantWrite : Bool}
    (h : b.wait = awaitOn fd wantWrite false) : Crashes (connectAwait b) := by
  unfold connectAwait
  rw [h]
  exact awaitOn_crashes fd wantWrite _

/-- An answer that makes the future wait, while the allocator refuses. -/
theorem ioReturn_crashes {fut : IoFut} {out : Option Nat} {a : Answer} {c : Call}
    (hblocked : fut.blocked c a.ret = true) (halloc : a.alloc = false) :
    Crashes (ioReturn out a fut c) := by
  have hneg : ¬ (-EAGAIN ≥ 0) ∧ ¬ (-EAGAIN > 0) ∧ -EAGAIN ≠ -EINTR := by decide
  have hprogress : -EINPROGRESS ≠ 0 ∧ ¬ (-EINPROGRESS ≠ -EINPROGRESS) := by decide
  obtain ⟨ret, alloc, ctl⟩ := a
  cases halloc
  -- each future goes back to its poll loop, with the null future to await
  cases fut with
  | rw b =>
      obtain rfl : ret = -EAGAIN := of_decide_eq_true hblocked
      show Crashes (rwReturn b out _)
      rw [rwReturn, if_neg hneg.1, if_neg hneg.2.2, if_pos rfl]
      exact get_crashes fun fd => rwPoll_crashes rfl
  | writeall b =>
      obtain rfl : ret = -EAGAIN := of_decide_eq_true hblocked
      show Crashes (writeallReturn b out _)
      rw [writeallReturn, if_neg hneg.2.1, if_neg hneg.2.2, if_pos rfl]
      exact get_crashes fun fd => writeallPoll_crashes out rfl
  | accept b =>
      obtain rfl : ret = -EAGAIN := of_decide_eq_true hblocked
      show Crashes (acceptReturn b out _)
      rw [acceptReturn, if_neg hneg.1, if_neg hneg.2.2, if_pos rfl]
      exact get_crashes fun lfd => acceptPoll_crashes rfl
  | connect b =>
      cases c with
      | connect fd =>
          obtain rfl : ret = -EINPROGRESS := of_decide_eq_true hblocked
          show Crashes (connectConnect b out _)
          rw [connectConnect, if_neg hprogress.1, if_neg hprogress.2]
          exact connectAwait_crashes rfl
      | _ => cases hblocked

/-! ### Runs

Served requests keep the future unharmed; the first one that is refused loses control for good.
-/

/-- The future has what it awaits, and no null future has been polled. -/
def NetSys.Unharmed (s : NetSys) : Prop := s.fut.wait.Ok ∧ NoNull s.net

def NetSys.Lost (s : NetSys) : Prop := s.pc = .crashed ∧ .nullPolled ∈ s.net.log

/-- When a system call makes the future wait, the allocator serves the request for a readiness
    future. -/
def NetSys.Served (s : NetSys) : NetAct → Prop
  | .answer a => ∀ c, s.pc = .calling c → s.fut.blocked c a.ret = true → a.alloc = true
  | _ => True

theorem unharmed_enter {s : NetSys} (h : s.Unharmed) (out : Option Nat)
    {x : Eff Net (Next × IoFut)} (hx : Sound x) : (s.enter out x).Unharmed := by
  have hrun := hx s.net h.2
  unfold Eff.wp at hrun
  unfold NetSys.enter
  rcases hxs : x s.net with ⟨_ | ⟨next, fut⟩, net⟩ <;> rw [hxs] at hrun
  · exact ⟨h.1, hrun⟩
  · exact hrun

theorem lost_enter {s : NetSys} (out : Option Nat) {x : Eff Net (Next × IoFut)} (hx : Crashes x) :
    (s.enter out x).Lost := by
  have hrun := hx s.net
  unfold Eff.wp at hrun
  unfold NetSys.enter
  rcases hxs : x s.net with ⟨_ | ⟨next, fut⟩, net⟩ <;> rw [hxs] at hrun
  · exact ⟨rfl, hrun⟩
  · exact hrun.elim

theorem unharmed_step {s s' : NetSys} {a : NetAct} (h : s.Unharmed) (hserved : s.Served a)
    (hs : s.step a = some s') : s'.Unharmed := by
  rcases step_cases hs with ⟨out, rfl, -, rfl⟩ | ⟨ans, c, rfl, hpc, rfl⟩ | ⟨rfl, -, rfl⟩ |
    ⟨d, rfl, -, rfl⟩ | ⟨p, fd, rfl, -, rfl⟩
  · exact unharmed_enter h out (ioPoll_sound h.1 out)
  · exact unharmed_enter h s.out (ioReturn_sound h.1 s.out (hserved c hpc))
  · have hrun := ioDrop_keeps s.fut s.net h.2
    unfold Eff.wp at hrun
    unfold NetSys.leave
    rcases hxs : ioDrop s.fut s.net with ⟨_ | _, net⟩ <;> rw [hxs] at hrun
    · exact ⟨h.1, hrun⟩
    · exact ⟨h.1, hrun.2⟩
  · exact h
  · exact h

/-- A refused request is followed by a poll of the null future. -/
theorem lost_step {s s' : NetSys} {a : NetAct} (hrefused : ¬ s.Served a)
    (hs : s.step a = some s') : s'.Lost := by
  rcases step_cases hs with ⟨out, rfl, -, -⟩ | ⟨ans, c, rfl, hpc, rfl⟩ | ⟨rfl, -, -⟩ |
    ⟨d, rfl, -, -⟩ | ⟨p, fd, rfl, -, -⟩
  case inr.inl =>
    have hblocked : s.fut.blocked c ans.ret = true ∧ ans.alloc = false := by
      simpa [NetSys.Served, hpc] using hrefused
    exact lost_enter s.out (ioReturn_crashes hblocked.1 hblocked.2)
  all_goals exact absurd trivial hrefused

theorem lost_stays {s s' : NetSys} {a : NetAct} (h : s.Lost) (hs : s.step a = some s') :
    s'.Lost := by
  rcases step_cases hs with ⟨_, -, hpc, -⟩ | ⟨_, _, -, hpc, -⟩ | ⟨-, hpc, -⟩ | ⟨_, -, hpc, -⟩ |
    ⟨_, _, -, hpc, -⟩
  all_goals simp [h.1, IoPc.outside] at hpc

theorem unharmed_start (driver : IoDriver) (streams : Nat → Int) {fut : IoFut} (h : fut.Fresh) :
    (NetSys.start driver streams fut).Unharmed := by
  refine ⟨?_, List.not_mem_nil⟩
  cases h <;> exact ok_idle

/-- **When the null future is polled**: a run of a `read`, `write`, `write_all`, `accept` or
    `connect` never polls the null future iff, whenever a system call made the future wait, the
    allocator served its request for a readiness future. -/
theorem null_not_polled_iff {driver : IoDriver} {streams : Nat → Int} {fut : IoFut}
    (hfut : fut.Fresh) {as : List NetAct} {s : NetSys}
    (h : Machine.run NetSys.step (.start driver streams fut) as = some s) :
    .nullPolled ∉ s.net.log ↔
      Machine.RunIn NetSys.step NetSys.Served (.start driver streams fut) as s := by
  have hstart := unharmed_start driver streams hfut
  constructor
  · intro hlog
    exact .of_undamaged (fun _ _ _ => unharmed_step) (fun _ _ _ _ => lost_step)
      (fun _ _ _ => lost_stays) hstart h fun hlost => hlog hlost.2
  · intro hserved
    exact (hserved.invariant (fun _ _ _ => unharmed_step) hstart).2

def readStart : NetSys :=
  .start ⟨[⟨3, 0, 0, false, false, 0⟩], [], 0⟩ (fun _ => 3) (cexecStreamRead 0 8)

/-- Nothing to read, and memory for the readiness future: both sides hold. -/
theorem null_not_polled_iff_served :
    ∃ s, Machine.run NetSys.step readStart [.poll none, .answer ⟨-EAGAIN, true, true⟩] = some s ∧
      .nullPolled ∉ s.net.log ∧ Machine.RunIn NetSys.step NetSys.Served readStart
        [.poll none, .answer ⟨-EAGAIN, true, true⟩] s := by
  obtain ⟨s, hs, hlog⟩ : ∃ s, Machine.run NetSys.step readStart
      [.poll none, .answer ⟨-EAGAIN, true, true⟩] = some s ∧ .nullPolled ∉ s.net.log :=
    ⟨_, rfl, by decide⟩
  exact ⟨s, hs, hlog, (null_not_polled_iff (.read 0 8) hs).mp hlog⟩

/-- Nothing to read, and no memory for the readiness future. -/
theorem null_polled : ¬ ∀ (driver : IoDriver) (streams : Nat → Int) (fut : IoFut)
    (as : List NetAct) (s : NetSys), fut.Fresh →
    Machine.run NetSys.step (.start driver streams fut) as = some s → .nullPolled ∉ s.net.log := by
  intro hall
  obtain ⟨s, hs⟩ : ∃ s, Machine.run NetSys.step readStart
      [.poll none, .answer ⟨-EAGAIN, false, true⟩] = some s ∧ .nullPolled ∈ s.net.log :=
    ⟨_, rfl, by decide⟩
  exact hall _ _ _ _ s (.read 0 8) hs.1 hs.2

end CustLib.Exec
