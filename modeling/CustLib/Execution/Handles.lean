import CustLib.Lib.Lease
import CustLib.Execution.Descriptors

/-!
# The descriptors of a whole program

Any number of listeners, streams and futures of `stream.c` around one driver: a program listens,
builds `accept`, `connect`, `read`, `write` and `write_all` futures, polls and drops them in any
order, and closes its handles. `close` and `cexec_io_remove` are keyed by the number of the
descriptor, and the kernel hands numbers out again, so a handle that is closed twice would close the
descriptor of another.

`descriptors_owned_once` says that this does not happen, for programs that keep to the rules of `fd.c`
and `stream.c`: an open handle is not written over, and `connect` gets a place for its stream
(`CustLib.Execution.Descriptors` is about what happens otherwise). Of the kernel it is assumed that a
number is not handed out while it is open.
-/

namespace CustLib.Exec

open CustLib.Lease (Leased Apart Placed placed_none)
open CustLib.History (Each)

/-! ## Synchronous calls

`cexec_net_listen`, `cexec_tcp_listen` and the two `close` functions. They ask the kernel several times
in a row, so their answers come in a bundle.
-/

structure ListenAnswer where
  socket : Int
  bind   : Int
  listen : Int
  alloc  : Bool
  ctl    : Bool
  deriving DecidableEq, Repr

/-- `cexec_net_listen`: whether it succeeds, and the descriptor of the listener. -/
def cexecNetListen (a : ListenAnswer) : Eff Net (Bool × Int) := do
  if a.socket < 0 then
    return (false, -1)
  record (.obtained a.socket)
  if a.bind ≠ 0 || a.listen ≠ 0 then
    closeFd a.socket
    return (false, -1)
  cexecFdAdopt a.socket ⟨a.socket, a.alloc, a.ctl⟩

/-- `cexec_tcp_listen` into the listener at `p`; `numeric` is what `make_v4` says of the address. -/
def cexecTcpListen (p : Nat) (numeric : Bool) (a : ListenAnswer) : Eff Net Unit := do
  storeStream (some p) (-1)
  if numeric then
    let (_, fd) ← cexecNetListen a
    storeStream (some p) fd

/-- `cexec_stream_close` and `cexec_listener_close`. -/
def cexecStreamClose (p : Nat) : Eff Net Unit := do
  let h ← Eff.move fun net => (net.streams p, net)
  let fd ← cexecFdClose h
  storeStream (some p) fd

/-! ## The program

One driver, one memory of handles, any number of futures. A poll stops in the middle for a system call,
and nothing else happens before the answer, as in a single thread.
-/

inductive Request where
  | read (s len : Nat)
  | write (s len : Nat)
  | writeAll (s len : Nat)
  | accept (l : Nat)
  | connect (family : Int)
  deriving DecidableEq, Repr

def Request.fut : Request → IoFut
  | .read s len      => cexecStreamRead s len
  | .write s len     => cexecStreamWrite s len
  | .writeAll s len  => cexecStreamWriteAll s len
  | .accept l        => cexecListenerAccept l
  | .connect family  => cexecNetConnect family

/-- Where control is: in the program, in a system call of a poll, or nowhere. -/
inductive ProgPc where
  | outside
  | calling (i : FutId) (out : Option Nat) (c : Call)
  | crashed
  deriving DecidableEq, Repr

/-- The system, the futures that are not dropped yet, which of them have been `Ready`, and the number of
    the next. -/
structure NetProg where
  net  : Net
  futs : FutId → Option IoFut
  done : FutId → Bool
  next : FutId
  pc   : ProgPc

/-- What a program does. Parks, sleeps and readiness futures of its own work on the driver beside it
    (`rest`). -/
inductive ProgAct where
  | build (r : Request)
  | poll (i : FutId) (out : Option Nat)
  | answer (a : Answer)
  | drop (i : FutId)
  | close (p : Nat)
  | listen (p : Nat) (numeric : Bool) (a : ListenAnswer)
  | rest (d : IoDriver)

def NetProg.enter (s : NetProg) (i : FutId) (out : Option Nat) (x : Eff Net (Next × IoFut)) :
    NetProg :=
  match x s.net with
  | (none, net)            => { s with net, pc := .crashed }
  | (some (next, fut), net) =>
    { s with
      net
      futs := Function.update s.futs i (some fut)
      done := if next = .ready then Function.update s.done i true else s.done
      pc := match next with
        | .call c           => .calling i out c
        | .pending | .ready => .outside }

def NetProg.call (s : NetProg) (x : Eff Net Unit) : NetProg :=
  match x s.net with
  | (none, net)   => { s with net, pc := .crashed }
  | (some _, net) => { s with net }

def NetProg.step (s : NetProg) : ProgAct → Option NetProg
  | .answer a =>
    match s.pc with
    | .calling i out c => (s.futs i).map fun fut => s.enter i out (ioReturn out a fut c)
    | _ => none
  | .build r =>
    if s.pc = .outside then
      some { s with futs := Function.update s.futs s.next (some r.fut),
                    done := Function.update s.done s.next false, next := s.next + 1 }
    else none
  | .poll i out =>
    if s.pc = .outside ∧ s.done i = false then
      (s.futs i).map fun fut => s.enter i out (ioPoll out fut)
    else none
  | .drop i =>
    if s.pc = .outside then
      (s.futs i).map fun fut =>
        { s with futs := Function.update s.futs i none }.call (ioDrop fut)
    else none
  | .close p => if s.pc = .outside then some (s.call (cexecStreamClose p)) else none
  | .listen p numeric a =>
    if s.pc = .outside then some (s.call (cexecTcpListen p numeric a)) else none
  | .rest d => if s.pc = .outside then some { s with net := { s.net with driver := d } } else none

/-- A program before its first step: nothing is registered, and no handle is open. -/
def NetProg.start : NetProg where
  net  := ⟨⟨[], [], 0⟩, 0, fun _ => 0, fun _ => -1, []⟩
  futs := fun _ => none
  done := fun _ => false
  next := 0
  pc   := .outside

/-! ## The rules

What a careful program keeps to. All but one are rules for the caller; that a new descriptor is none of
the open ones is how kernels hand out numbers.
-/

def Net.IsOpen (net : Net) (fd : Int) : Prop :=
  net.log.count (.closed fd) < net.log.count (.obtained fd)

instance (net : Net) (fd : Int) : Decidable (net.IsOpen fd) := inferInstanceAs (Decidable (_ < _))

/-- The place for the stream of an `accept` or a `connect` holds no open handle, and `connect` has
    one. -/
def IoFut.TakesOut (net : Net) (out : Option Nat) : IoFut → Prop
  | .accept _  => ∀ p ∈ out, net.streams p < 0
  | .connect _ => out ≠ none ∧ ∀ p ∈ out, net.streams p < 0
  | _          => True

instance (net : Net) (out : Option Nat) : ∀ fut, Decidable (IoFut.TakesOut net out fut)
  | .accept _   => inferInstanceAs (Decidable (∀ p ∈ out, net.streams p < 0))
  | .connect _  => inferInstanceAs (Decidable (_ ∧ ∀ p ∈ out, net.streams p < 0))
  | .rw _       => inferInstanceAs (Decidable True)
  | .writeall _ => inferInstanceAs (Decidable True)

/-- The poll waits for a call that opens a descriptor. -/
def NetProg.opens (s : NetProg) : Bool :=
  match s.pc with
  | .calling i _ c => (s.futs i).any (·.opens c)
  | _              => false

/-- The rules: no open handle is written over, the registrations are left to the handles, and the
    kernel hands out descriptors that are not open. -/
def NetProg.Careful (s : NetProg) : ProgAct → Prop
  | .poll i out   => ∀ fut ∈ s.futs i, fut.TakesOut s.net out
  | .listen p _ a => s.net.streams p < 0 ∧ (0 ≤ a.socket → ¬ s.net.IsOpen a.socket)
  | .answer a     => s.opens = true → 0 ≤ a.ret → ¬ s.net.IsOpen a.ret
  | .rest d       => d.table = s.net.driver.table
  | _             => True

instance (s : NetProg) : ∀ a, Decidable (s.Careful a)
  | .poll i out   => inferInstanceAs (Decidable (∀ fut ∈ s.futs i, fut.TakesOut s.net out))
  | .listen p _ a =>
    inferInstanceAs (Decidable (s.net.streams p < 0 ∧ (0 ≤ a.socket → ¬ s.net.IsOpen a.socket)))
  | .answer a     =>
    inferInstanceAs (Decidable (s.opens = true → 0 ≤ a.ret → ¬ s.net.IsOpen a.ret))
  | .rest d       => inferInstanceAs (Decidable (d.table = s.net.driver.table))
  | .build _ | .drop _ | .close _ => inferInstanceAs (Decidable True)

/-! ## What is tracked

`Tracked net H`: the open descriptors are `H`, each is registered once, and the history has opened and
closed them in turn (`CustLib.Lib.Lease`). `Quiet` is for code that changes none of this.
-/

/-- The descriptor of an open handle. -/
def openFd (fd : Int) : Option Int := if 0 ≤ fd then some fd else none

def IoFut.fd? : IoFut → Option Int
  | .connect b => openFd b.stream
  | _          => none

def Net.fds (net : Net) (p : Nat) : Option Int := openFd (net.streams p)

structure Tracked (net : Net) (H : Set Int) : Prop where
  leased : Leased NetEvent.obtained NetEvent.closed net.log H
  table  : ∀ fd, fd ∈ net.driver.table ↔ fd ∈ H
  nodup  : net.driver.table.Nodup

/-- The descriptors `H` are open, and the handles in memory are those of `fds`. -/
def Quiet (H : Set Int) (fds : Nat → Option Int) (net : Net) : Prop := Tracked net H ∧ net.fds = fds

theorem openFd_eq_none {fd : Int} : openFd fd = none ↔ fd < 0 := by simp [openFd]

theorem openFd_of_nonneg {fd : Int} (h : 0 ≤ fd) : openFd fd = some fd := if_pos h

theorem apart_fds : Apart NetEvent.obtained NetEvent.closed where
  inj_take h := by cases h; rfl
  inj_give h := by cases h; rfl
  apart _ _ := nofun

/-- The descriptors that are open according to the history. -/
theorem Tracked.isOpen_iff {net : Net} {H : Set Int} (h : Tracked net H) {fd : Int} :
    net.IsOpen fd ↔ fd ∈ H := by
  obtain ⟨hin, hout⟩ := h.leased.count apart_fds fd
  unfold Net.IsOpen
  by_cases hmem : fd ∈ H
  · have := hin hmem
    exact iff_of_true (by omega) hmem
  · have := hout hmem
    exact iff_of_false (by omega) hmem

section Quiet

variable {H : Set Int} {fds : Nat → Option Int} {net : Net}

theorem quiet_like {net' : Net} (h : Quiet H fds net) (hl : net.Like net') : Quiet H fds net' := by
  obtain ⟨htracked, hfds⟩ := h
  refine ⟨⟨hl.log ▸ htracked.leased, hl.table ▸ htracked.table, hl.table ▸ htracked.nodup⟩, ?_⟩
  funext p
  rw [← hfds, Net.fds, Net.fds, hl.streams]

theorem record_quiet {e : NetEvent} (he : ∀ fd, e ≠ .obtained fd ∧ e ≠ .closed fd) :
    Eff.Keeps (Quiet H fds) (record e) fun _ => True :=
  Eff.keeps_modify fun _ h => ⟨⟨h.1.leased.other he, h.1.table, h.1.nodup⟩, h.2⟩

theorem get_quiet {α : Type} (f : Net → α) :
    Eff.Keeps (Quiet H fds) (Eff.move fun net => (f net, net)) fun _ => True :=
  Eff.keeps_move fun _ h => ⟨trivial, h⟩

theorem storeResult_quiet (out : Option Nat) (n : Int) :
    Eff.Keeps (Quiet H fds) (storeResult out n) fun _ => True := by
  cases out with
  | none => exact Eff.keeps_pure trivial
  | some p => exact Eff.keeps_modify fun _ h => quiet_like h ⟨rfl, rfl, rfl⟩

theorem dropFuture_quiet (b : Option InterestBox) :
    Eff.Keeps (Quiet H fds) (dropFuture b) fun _ => True := by
  cases b with
  | none => exact Eff.keeps_pure trivial
  | some b =>
      exact Eff.keeps_modify fun net h => quiet_like h ⟨rfl, rfl, table_interestDrop net.driver b⟩

theorem dropWait_quiet (wait : Wait) : Eff.Keeps (Quiet H fds) (dropWait wait) fun _ => True :=
  Eff.keeps_when (dropFuture_quiet wait.readiness)

/-- The head of a loop leaves descriptors and handles alone. -/
theorem awaitReady_quiet (wait : Wait) :
    Eff.Keeps (Quiet H fds) (awaitReady wait) fun _ => True := by
  unfold awaitReady
  cases wait.awaiting with
  | false => exact Eff.keeps_pure trivial
  | true =>
      refine Eff.keeps_bind (P := fun _ => True) ?_ ?_
      · cases wait.readiness with
        | none =>
            exact Eff.keeps_bind (record_quiet fun fd => ⟨nofun, nofun⟩) fun _ _ => Eff.keeps_stuck
        | some b =>
            exact Eff.keeps_move fun net h =>
              ⟨trivial, quiet_like h ⟨rfl, rfl, table_interestPoll net.driver b net.clones⟩⟩
      · intro r _
        dsimp only
        split
        · exact Eff.keeps_pure trivial
        · exact Eff.keeps_bind (dropFuture_quiet r.2) fun _ _ => Eff.keeps_pure trivial

/-! ## Polls that leave descriptors alone

Transfers, and every part of a poll that waits.
-/

def IoFut.Transfers : IoFut → Prop
  | .rw _ | .writeall _ => True
  | _                   => False

theorem rwPoll_quiet (b : RwBox) : Eff.Keeps (Quiet H fds) (rwPoll b) fun r => r.2.Transfers := by
  apply Eff.keeps_bind (awaitReady_quiet b.wait)
  intro r _
  dsimp only
  split
  · exact Eff.keeps_pure trivial
  · exact Eff.keeps_bind (get_quiet _) fun _ _ => Eff.keeps_pure trivial

theorem rwReturn_quiet (b : RwBox) (out : Option Nat) (a : Answer) :
    Eff.Keeps (Quiet H fds) (rwReturn b out a) fun r => r.2.Transfers := by
  unfold rwReturn
  split
  · exact Eff.keeps_bind (storeResult_quiet out _) fun _ _ => Eff.keeps_pure trivial
  split
  · exact rwPoll_quiet b
  split
  · exact Eff.keeps_bind (get_quiet _) fun fd _ => rwPoll_quiet _
  · exact Eff.keeps_bind (storeResult_quiet out _) fun _ _ => Eff.keeps_pure trivial

theorem writeallPoll_quiet (b : WriteallBox) (out : Option Nat) :
    Eff.Keeps (Quiet H fds) (writeallPoll b out) fun r => r.2.Transfers := by
  apply Eff.keeps_bind (awaitReady_quiet b.wait)
  intro r _
  dsimp only
  split
  · exact Eff.keeps_pure trivial
  split
  · exact Eff.keeps_bind (storeResult_quiet out _) fun _ _ => Eff.keeps_pure trivial
  · exact Eff.keeps_bind (get_quiet _) fun _ _ => Eff.keeps_pure trivial

theorem writeallReturn_quiet (b : WriteallBox) (out : Option Nat) (a : Answer) :
    Eff.Keeps (Quiet H fds) (writeallReturn b out a) fun r => r.2.Transfers := by
  unfold writeallReturn
  split
  · exact writeallPoll_quiet _ out
  split
  · exact writeallPoll_quiet b out
  split
  · exact Eff.keeps_bind (get_quiet _) fun fd _ => writeallPoll_quiet _ out
  · exact Eff.keeps_bind (storeResult_quiet out _) fun _ _ => Eff.keeps_pure trivial

theorem acceptPoll_quiet (b : AcceptBox) :
    Eff.Keeps (Quiet H fds) (acceptPoll b) fun r => ∃ b', r.2 = .accept b' := by
  apply Eff.keeps_bind (awaitReady_quiet b.wait)
  intro r _
  dsimp only
  split
  · exact Eff.keeps_pure ⟨_, rfl⟩
  · exact Eff.keeps_bind (get_quiet _) fun _ _ => Eff.keeps_pure ⟨_, rfl⟩

/-- `connect` asks for the state of its descriptor, and keeps it. -/
def ConnectAsks (b : ConnectBox) (r : Next × IoFut) : Prop :=
  ∃ b' : ConnectBox, r.2 = .connect b' ∧ b'.stream = b.stream ∧ b'.started = b.started ∧
    b'.moved = b.moved ∧ ∀ family, r.1 ≠ .call (.socket family)

theorem connectAwait_quiet (b : ConnectBox) :
    Eff.Keeps (Quiet H fds) (connectAwait b) (ConnectAsks b) := by
  unfold connectAwait
  split
  · exact Eff.keeps_pure ⟨b, rfl, rfl, rfl, rfl, nofun⟩
  apply Eff.keeps_bind (awaitReady_quiet b.wait)
  intro r _
  dsimp only
  split
  · exact Eff.keeps_pure ⟨_, rfl, rfl, rfl, rfl, nofun⟩
  · exact Eff.keeps_pure ⟨_, rfl, rfl, rfl, rfl, nofun⟩

end Quiet

/-! ## Who has a descriptor

A place is a handle in memory or the box of a connect. `Housed` says that every open descriptor is in
exactly one place.
-/

inductive Place where
  | handle (p : Nat)
  | box (i : FutId)
  deriving DecidableEq, Repr

def places (fds boxes : Nat → Option Int) : Place → Option Int
  | .handle p => fds p
  | .box i    => boxes i

/-- Every open descriptor is in a place, and no other place has it. -/
def Housed (net : Net) (boxes : FutId → Option Int) : Prop :=
  ∃ H, Tracked net H ∧ Placed (places net.fds boxes) H

/-- The kernel has returned the descriptor `fd`, and it is not registered yet. -/
structure Obtained (net : Net) (fd : Int) (H : Set Int) : Prop where
  leased : Leased NetEvent.obtained NetEvent.closed net.log (insert fd H)
  new    : fd ∉ H
  table  : ∀ fd, fd ∈ net.driver.table ↔ fd ∈ H
  nodup  : net.driver.table.Nodup

section Places

variable {fds boxes : Nat → Option Int} {p : Nat} {i : FutId} {x : Option Int}

theorem places_handle : places (Function.update fds p x) boxes =
    Function.update (places fds boxes) (.handle p) x := by
  funext place
  cases place <;> simp [places, Function.update_apply]

theorem places_box : places fds (Function.update boxes i x) =
    Function.update (places fds boxes) (.box i) x := by
  funext place
  cases place <;> simp [places, Function.update_apply]

theorem fds_eq_none {net : Net} : net.fds p = none ↔ net.streams p < 0 := openFd_eq_none

theorem fds_store (net : Net) (p : Nat) (fd : Int) :
    ({ net with streams := Function.update net.streams p fd } : Net).fds =
      Function.update net.fds p (openFd fd) := by
  funext q
  simp only [Net.fds, Function.update_apply]
  split <;> rfl

theorem fds_congr {net net' : Net} (h : net'.streams = net.streams) : net'.fds = net.fds := by
  funext p
  rw [Net.fds, Net.fds, h]

/-- A handle that is not open is written over with a closed one. -/
theorem fds_store_closed {net : Net} {fd : Int} (hp : net.streams p < 0) (hfd : fd < 0) :
    ({ net with streams := Function.update net.streams p fd } : Net).fds = net.fds := by
  rw [fds_store, openFd_eq_none.mpr hfd, ← fds_eq_none.mpr hp, Function.update_eq_self]

end Places

/-! ## The primitives

What happens to descriptors happens here: `obtain` from the kernel, `cexec_fd_adopt` into a place,
`cexec_fd_close`, and moves from place to place.
-/

/-- The other registrations stay. -/
theorem mem_table_cexecIoRemove {d : IoDriver} (hnodup : d.table.Nodup) {fd fd' : Int} :
    fd' ∈ (cexecIoRemove d fd).1.table ↔ fd' ∈ d.table ∧ fd' ≠ fd := by
  have hout := (cexecIoRemove_table hnodup fd).2
  constructor
  · intro hmem
    refine ⟨?_, fun heq => hout (heq ▸ hmem)⟩
    unfold cexecIoRemove at hmem
    split at hmem
    next s hs =>
      obtain ⟨t, ht, rfl⟩ := List.mem_map.mp hmem
      exact List.mem_map_of_mem (List.mem_of_mem_erase ht)
    next => exact hmem
  · rintro ⟨hmem, hne⟩
    unfold cexecIoRemove
    split
    next s hs =>
      obtain ⟨t, ht, rfl⟩ := List.mem_map.mp hmem
      obtain ⟨hfd, -⟩ := findSched_split hs
      have hts : t ≠ s := by
        rintro rfl
        exact hne hfd
      exact List.mem_map_of_mem ((List.mem_erase_of_ne hts).mpr ht)
    next => exact hmem

section Primitives

variable {net : Net} {H : Set Int} {boxes : FutId → Option Int} {fd : Int} {a : Answer}

/-- The kernel hands out a new descriptor. -/
theorem Tracked.obtain (h : Tracked net H) (hfd : fd ∉ H) :
    Obtained { net with log := net.log ++ [.obtained fd] } fd H :=
  ⟨h.leased.take hfd, hfd, h.table, h.nodup⟩

/-- A new descriptor is closed again. -/
theorem Obtained.close (h : Obtained net fd H) :
    Tracked { net with log := net.log ++ [.closed fd] } H := by
  refine ⟨?_, h.table, h.nodup⟩
  have hback := h.leased.give (Set.mem_insert fd H)
  rwa [Set.insert_sdiff_self_of_notMem h.new] at hback

/-- A new descriptor is registered, or closed. -/
theorem cexecFdAdopt_tracked (h : Obtained net fd H) :
    Eff.wp (cexecFdAdopt fd a)
      (fun r net' => net'.streams = net.streams ∧
        (r = (true, fd) ∧ Tracked net' (insert fd H) ∨ r = (false, -1) ∧ Tracked net' H))
      (fun _ => False) net := by
  have hnew : fd ∉ net.driver.table := fun hmem => h.new ((h.table fd).mp hmem)
  refine Eff.wp_mono (cexecFdAdopt_spec hnew) ?_ fun _ => id
  rintro r net' ⟨hstreams, ⟨hr, -, hlog, htable⟩ | ⟨hr, -, hlog, htable⟩⟩
  · refine ⟨hstreams, .inl ⟨hr, hlog ▸ h.leased, fun fd' => ?_, ?_⟩⟩
    · rw [htable, List.mem_append, List.mem_singleton, Set.mem_insert_iff, h.table, or_comm]
    · rw [htable, ← List.concat_eq_append, List.nodup_concat]
      exact ⟨hnew, h.nodup⟩
  · refine ⟨hstreams, .inr ⟨hr, ?_, htable ▸ h.table, htable ▸ h.nodup⟩⟩
    exact hlog ▸ h.close.leased

/-- A handle is closed. -/
theorem cexecFdClose_tracked (h : Tracked net H) (hfd : fd ∈ H) (hpos : 0 ≤ fd) :
    Eff.wp (cexecFdClose fd)
      (fun r net' => r = -1 ∧ net'.streams = net.streams ∧ Tracked net' (H \ {fd}))
      (fun _ => False) net := by
  unfold cexecFdClose
  rw [if_pos hpos]
  refine ⟨rfl, rfl, h.leased.give hfd, fun fd' => ?_, (cexecIoRemove_table h.nodup fd).1⟩
  rw [mem_table_cexecIoRemove h.nodup, h.table, Set.mem_sdiff, Set.mem_singleton_iff]

/-- The handle in a place is closed: no other place has its descriptor. -/
theorem cexecFdClose_place (place : Place) (h : Housed net boxes)
    (hplace : places net.fds boxes place = openFd fd) :
    Eff.wp (cexecFdClose fd)
      (fun r net' => r < 0 ∧ net'.streams = net.streams ∧ ∃ H', Tracked net' H' ∧
        Placed (Function.update (places net.fds boxes) place none) H') (fun _ => False) net := by
  obtain ⟨H, htracked, hheld⟩ := h
  by_cases hpos : 0 ≤ fd
  · rw [openFd_of_nonneg hpos] at hplace
    refine Eff.wp_mono (cexecFdClose_tracked htracked ((hheld.mem fd).mpr ⟨place, hplace⟩) hpos) ?_
      fun _ => id
    rintro r net' ⟨rfl, hstreams, htracked'⟩
    exact ⟨by decide, hstreams, H \ {fd}, htracked', hheld.clear hplace⟩
  · rw [Int.not_le] at hpos
    unfold cexecFdClose
    rw [if_neg (Int.not_le.mpr hpos)]
    rw [openFd_eq_none.mpr hpos] at hplace
    refine ⟨hpos, rfl, H, htracked, ?_⟩
    rwa [← hplace, Function.update_eq_self]

/-- A box with the descriptor that it has. -/
theorem Housed.still {i : FutId} {x : Option Int} (h : Housed net boxes) (hbox : boxes i = x) :
    Housed net (Function.update boxes i x) := by
  rwa [← hbox, Function.update_eq_self]

/-- A closed handle is stored where there is no open one. -/
theorem Housed.storeClosed {p : Nat} (h : Housed net boxes) (hp : net.streams p < 0) (hfd : fd < 0) :
    Housed { net with streams := Function.update net.streams p fd } boxes := by
  obtain ⟨H, htracked, hheld⟩ := h
  refine ⟨H, ⟨htracked.leased, htracked.table, htracked.nodup⟩, ?_⟩
  rwa [fds_store_closed hp hfd]

theorem makeClosedStream_housed {out : Option Nat} (hout : out ≠ none)
    (hfree : ∀ p ∈ out, net.streams p < 0) (h : Housed net boxes) :
    Eff.wp (makeClosedStream out) (fun _ net' => Housed net' boxes) (fun _ => False) net := by
  obtain ⟨p, rfl⟩ := Option.ne_none_iff_exists'.mp hout
  exact h.storeClosed (hfree p rfl) (Int.negSucc_lt_zero 0)

/-- The handle of an empty place gets the descriptor. -/
theorem housed_store {p : Nat} {r : Bool × Int} (hp : net.streams p < 0) (hpos : 0 ≤ fd)
    (hfd : fd ∉ H) (hheld : Placed (places net.fds boxes) H)
    (h : r = (true, fd) ∧ Tracked net (insert fd H) ∨ r = (false, -1) ∧ Tracked net H) :
    Housed { net with streams := Function.update net.streams p r.2 } boxes := by
  rcases h with ⟨rfl, htracked⟩ | ⟨rfl, htracked⟩
  · refine ⟨insert fd H, ⟨htracked.leased, htracked.table, htracked.nodup⟩, ?_⟩
    rw [fds_store, places_handle, openFd_of_nonneg hpos]
    exact hheld.put (fds_eq_none.mpr hp) hfd
  · exact Housed.storeClosed ⟨H, htracked, hheld⟩ hp (Int.negSucc_lt_zero 0)

end Primitives

/-! ## Polls

A part of a poll leaves the descriptors housed, and says what the box of its future holds afterwards.
-/

/-- The descriptor in the box of a connect agrees with the flags. -/
def IoFut.Sound : IoFut → Prop
  | .connect b =>
    (b.started = false → b.stream < 0 ∧ b.moved = false) ∧ (b.moved = true → b.stream < 0)
  | _          => True

/-- What the box of a connect is like in a system call. -/
def IoFut.Calls (c : Call) : IoFut → Prop
  | .connect b => b.started = true ∧ ∀ family, c = .socket family → b.stream < 0 ∧ b.moved = false
  | _          => True

structure Left (boxes : FutId → Option Int) (i : FutId) (out : Option Nat) (r : Next × IoFut)
    (net : Net) : Prop where
  housed : Housed net (Function.update boxes i r.2.fd?)
  sound  : r.2.Sound
  calls  : ∀ c, r.1 = .call c → r.2.TakesOut net out ∧ r.2.Calls c

section Polls

variable {net : Net} {boxes : FutId → Option Int} {i : FutId} {out : Option Nat}

theorem takesOut_congr {net' : Net} (h : net'.fds = net.fds) (fut : IoFut) :
    fut.TakesOut net' out ↔ fut.TakesOut net out := by
  have hneg : ∀ p, net'.streams p < 0 ↔ net.streams p < 0 := fun p => by
    rw [← fds_eq_none, ← fds_eq_none, h]
  cases fut <;> simp only [IoFut.TakesOut, hneg]

/-- What leaves descriptors and handles alone. -/
theorem housed_quiet {α : Type} {x : Eff Net α} {P : α → Prop}
    (hx : ∀ H fds, Eff.Keeps (Quiet H fds) x P) (h : Housed net boxes) :
    Eff.wp x (fun r net' => P r ∧ net'.fds = net.fds ∧ Housed net' boxes)
      (fun net' => Housed net' boxes) net := by
  obtain ⟨H, htracked, hheld⟩ := h
  refine Eff.wp_mono (hx H net.fds net ⟨htracked, rfl⟩) ?_ ?_
  · rintro r net' ⟨hP, htracked', hfds⟩
    exact ⟨hP, hfds, H, htracked', hfds ▸ hheld⟩
  · rintro net' ⟨htracked', hfds⟩
    exact ⟨H, htracked', hfds ▸ hheld⟩

/-- A part of a poll of `read`, `write` or `write_all`. -/
theorem transfer_left {x : Eff Net (Next × IoFut)}
    (hx : ∀ H fds, Eff.Keeps (Quiet H fds) x fun r => r.2.Transfers) (h : Housed net boxes)
    (hbox : boxes i = none) :
    Eff.wp x (Left boxes i out) (fun net' => Housed net' boxes) net := by
  refine Eff.wp_mono (housed_quiet hx h) ?_ fun _ => id
  rintro ⟨next, fut⟩ net' ⟨htransfers, -, hhoused⟩
  cases fut with
  | accept b | connect b => exact htransfers.elim
  | rw b | writeall b =>
      exact ⟨hhoused.still hbox, trivial, fun _ _ => ⟨trivial, trivial⟩⟩

/-- A part of a poll of `accept` without a connection. -/
theorem accept_left {x : Eff Net (Next × IoFut)}
    (hx : ∀ H fds, Eff.Keeps (Quiet H fds) x fun r => ∃ b, r.2 = .accept b)
    (h : Housed net boxes) (hbox : boxes i = none) (hout : ∀ p ∈ out, net.streams p < 0) :
    Eff.wp x (Left boxes i out) (fun net' => Housed net' boxes) net := by
  refine Eff.wp_mono (housed_quiet hx h) ?_ fun _ => id
  rintro ⟨next, fut⟩ net' ⟨⟨b, rfl⟩, hfds, hhoused⟩
  exact ⟨hhoused.still hbox, trivial,
    fun _ _ => ⟨(takesOut_congr hfds (.accept b)).mpr hout, trivial⟩⟩

/-- A new connection is stored, or closed. -/
theorem acceptAdopt_housed {H : Set Int} {a : Answer} (h : Obtained net a.ret H)
    (hpos : 0 ≤ a.ret) (hheld : Placed (places net.fds boxes) H)
    (hout : ∀ p ∈ out, net.streams p < 0) :
    Eff.wp (acceptAdopt a out) (fun _ net' => Housed net' boxes) (fun _ => False) net := by
  cases out with
  | none => exact ⟨H, h.close, hheld⟩
  | some p =>
      have hp := hout p rfl
      -- first a closed stream is stored
      refine Eff.wp_seq (P := fun _ net' => Obtained net' a.ret H ∧ net'.fds = net.fds) ?_ ?_
      · exact ⟨⟨h.leased, h.new, h.table, h.nodup⟩, fds_store_closed hp (by decide)⟩
      · rintro _ net' ⟨hobtained, hfds⟩
        apply Eff.wp_seq_total (cexecFdAdopt_tracked hobtained)
        rintro r net'' ⟨hstreams, htracked⟩
        have hfds' : net''.fds = net.fds := (fds_congr hstreams).trans hfds
        refine housed_store ?_ hpos h.new (hfds' ▸ hheld) htracked
        rw [← fds_eq_none, hfds']
        exact fds_eq_none.mpr hp

theorem acceptReturn_left {b : AcceptBox} {a : Answer} (h : Housed net boxes)
    (hbox : boxes i = none) (hout : ∀ p ∈ out, net.streams p < 0)
    (hfree : 0 ≤ a.ret → ¬ net.IsOpen a.ret) :
    Eff.wp (acceptReturn b out a) (Left boxes i out) (fun net' => Housed net' boxes) net := by
  unfold acceptReturn
  split
  next hpos =>
    obtain ⟨H, htracked, hheld⟩ := h
    have hnew : a.ret ∉ H := fun hmem => hfree hpos (htracked.isOpen_iff.mpr hmem)
    refine Eff.wp_seq_total (P := fun _ net' => Obtained net' a.ret H ∧ net'.streams = net.streams)
      ⟨htracked.obtain hnew, rfl⟩ ?_
    rintro _ net' ⟨hobtained, hstreams⟩
    have hheld' : Placed (places net'.fds boxes) H := fds_congr hstreams ▸ hheld
    apply Eff.wp_seq_total (acceptAdopt_housed hobtained hpos hheld' (hstreams ▸ hout))
    exact fun _ net'' hhoused => ⟨hhoused.still hbox, trivial, nofun⟩
  split
  · exact accept_left (fun _ _ => acceptPoll_quiet b) h hbox hout
  split
  · refine accept_left (fun _ _ => ?_) h hbox hout
    exact Eff.keeps_bind (get_quiet _) fun lfd _ => acceptPoll_quiet _
  · cases out with
    | none => exact accept_left (fun _ _ => Eff.keeps_pure ⟨b, rfl⟩) h hbox hout
    | some p =>
        apply Eff.wp_seq_total (makeClosedStream_housed (Option.some_ne_none p) hout h)
        exact fun _ net' hhoused => ⟨hhoused.still hbox, trivial, nofun⟩

/-! ### `connect`

The future that has a place of its own. While it waits, its box holds the descriptor; `connect_hand_off`
moves it to the place at `out`, which is empty.
-/

/-- A connect that has begun. -/
theorem sound_of_started {b : ConnectBox} (hstarted : b.started = true)
    (hmoved : b.moved = true → b.stream < 0) : (IoFut.connect b).Sound :=
  ⟨fun h => absurd (hstarted.symm.trans h) nofun, hmoved⟩

/-- The future waits, with the descriptor that it had. -/
theorem connectAwait_left {b : ConnectBox} (h : Housed net boxes) (hbox : boxes i = openFd b.stream)
    (hstarted : b.started = true) (hmoved : b.moved = true → b.stream < 0)
    (hout : (IoFut.connect b).TakesOut net out) :
    Eff.wp (connectAwait b) (Left boxes i out) (fun net' => Housed net' boxes) net := by
  refine Eff.wp_mono (housed_quiet (fun _ _ => connectAwait_quiet b) h) ?_ fun _ => id
  rintro ⟨next, fut⟩ net' ⟨⟨b', rfl, hstream, hstarted', hmoved', hnext⟩, hfds, hhoused⟩
  rw [← hstream] at hbox hmoved
  rw [← hmoved'] at hmoved
  rw [← hstarted'] at hstarted
  refine ⟨hhoused.still hbox, sound_of_started hstarted hmoved, fun c hc => ⟨?_, hstarted, ?_⟩⟩
  · exact (takesOut_congr hfds (.connect b')).mpr hout
  · rintro family rfl
    exact absurd hc (hnext family)

theorem connectPoll_left {b : ConnectBox} (h : Housed net boxes) (hbox : boxes i = openFd b.stream)
    (hsound : (IoFut.connect b).Sound) (hout : (IoFut.connect b).TakesOut net out) :
    Eff.wp (connectPoll b) (Left boxes i out) (fun net' => Housed net' boxes) net := by
  unfold connectPoll
  cases hstarted : b.started with
  | false =>
      have hnew := hsound.1 hstarted
      exact ⟨h.still hbox, sound_of_started rfl hsound.2, fun _ _ => ⟨hout, rfl, fun _ _ => hnew⟩⟩
  | true => exact connectAwait_left h hbox hstarted hsound.2 hout

/-- The stream is handed to the caller. -/
theorem connectHandOff_left {b : ConnectBox} (h : Housed net boxes)
    (hbox : boxes i = openFd b.stream) (hstarted : b.started = true)
    (hout : (IoFut.connect b).TakesOut net out) :
    Eff.wp (do return (Next.ready, IoFut.connect (← connectHandOff b out))) (Left boxes i out)
      (fun net' => Housed net' boxes) net := by
  obtain ⟨hne, hfree⟩ := hout
  obtain ⟨p, rfl⟩ := Option.ne_none_iff_exists'.mp hne
  obtain ⟨H, htracked, hheld⟩ := h
  have hclosed : (-1 : Int) < 0 := by decide
  refine ⟨⟨H, ⟨htracked.leased, htracked.table, htracked.nodup⟩, ?_⟩,
    sound_of_started hstarted fun _ => hclosed, nofun⟩
  have hp : net.fds p = none := fds_eq_none.mpr (hfree p rfl)
  show Placed (places (Net.fds { net with streams := Function.update net.streams p b.stream })
    (Function.update boxes i none)) H
  by_cases hpos : 0 ≤ b.stream
  · rw [openFd_of_nonneg hpos] at hbox
    rw [fds_store, places_handle, places_box, openFd_of_nonneg hpos]
    have hfrom : places net.fds boxes (.box i) = some b.stream := hbox
    have hto : places net.fds boxes (.handle p) = none := hp
    exact hheld.move hfrom hto
  · rw [Int.not_le] at hpos
    rw [openFd_eq_none.mpr hpos] at hbox
    rwa [fds_store_closed (hfree p rfl) hpos, ← hbox, Function.update_eq_self]

/-- The connect has failed: its descriptor is closed. -/
theorem connectFail_left {b : ConnectBox} (h : Housed net boxes)
    (hbox : boxes i = openFd b.stream) (hstarted : b.started = true)
    (hout : (IoFut.connect b).TakesOut net out) :
    Eff.wp (do
      let b := { b with stream := ← cexecFdClose b.stream }
      makeClosedStream out
      return (Next.ready, IoFut.connect b))
      (Left boxes i out) (fun net' => Housed net' boxes) net := by
  apply Eff.wp_seq_total (cexecFdClose_place (.box i) h hbox)
  rintro r net' ⟨hr, hstreams, H', htracked, hheld⟩
  have hhoused : Housed net' (Function.update boxes i none) := by
    refine ⟨H', htracked, ?_⟩
    rwa [fds_congr hstreams, places_box]
  apply Eff.wp_seq_total (makeClosedStream_housed hout.1 (hstreams ▸ hout.2) hhoused)
  intro _ net'' hhoused'
  refine ⟨?_, sound_of_started hstarted fun _ => hr, nofun⟩
  show Housed net'' (Function.update boxes i (openFd r))
  rwa [openFd_eq_none.mpr hr]

/-- A failure before there is a descriptor. -/
theorem connectRefuse_left {b : ConnectBox} (h : Housed net boxes) (hbox : boxes i = none)
    (hstream : b.stream < 0) (hstarted : b.started = true)
    (hout : (IoFut.connect b).TakesOut net out) :
    Eff.wp (do
      makeClosedStream out
      return (Next.ready, IoFut.connect b))
      (Left boxes i out) (fun net' => Housed net' boxes) net := by
  apply Eff.wp_seq_total (makeClosedStream_housed hout.1 hout.2 h)
  intro _ net' hhoused
  refine ⟨hhoused.still ?_, sound_of_started hstarted fun _ => hstream, nofun⟩
  exact hbox.trans (openFd_eq_none.mpr hstream).symm

theorem connectSocket_left {b : ConnectBox} {a : Answer} (h : Housed net boxes)
    (hbox : boxes i = none) (hstream : b.stream < 0) (hstarted : b.started = true)
    (hmoved : b.moved = false) (hout : (IoFut.connect b).TakesOut net out)
    (hfree : 0 ≤ a.ret → ¬ net.IsOpen a.ret) :
    Eff.wp (connectSocket b out a) (Left boxes i out) (fun net' => Housed net' boxes) net := by
  unfold connectSocket
  split
  next => exact connectRefuse_left h hbox hstream hstarted hout
  next hpos =>
    rw [Int.not_lt] at hpos
    obtain ⟨H, htracked, hheld⟩ := h
    have hnew : a.ret ∉ H := fun hmem => hfree hpos (htracked.isOpen_iff.mpr hmem)
    refine Eff.wp_seq_total (P := fun _ net' => Obtained net' a.ret H ∧ net'.streams = net.streams)
      ⟨htracked.obtain hnew, rfl⟩ ?_
    rintro _ net' ⟨hobtained, hstreams⟩
    apply Eff.wp_seq_total (cexecFdAdopt_tracked hobtained)
    rintro r net'' ⟨hstreams', hr⟩
    have hfds : net''.fds = net.fds := fds_congr (hstreams'.trans hstreams)
    have hout' : (IoFut.connect b).TakesOut net'' out := (takesOut_congr hfds _).mpr hout
    rcases hr with ⟨rfl, htracked'⟩ | ⟨rfl, htracked'⟩
    · refine ⟨⟨insert a.ret H, htracked', ?_⟩, sound_of_started hstarted ?_,
        fun c hc => ⟨hout', hstarted, ?_⟩⟩
      · show Placed (places net''.fds (Function.update boxes i (openFd a.ret))) _
        rw [hfds, places_box, openFd_of_nonneg hpos]
        exact hheld.put hbox hnew
      · exact fun hm => absurd (hmoved.symm.trans hm) nofun
      · rintro family rfl
        cases hc
    · exact connectRefuse_left (b := { b with stream := -1 }) ⟨H, htracked', hfds ▸ hheld⟩ hbox
        (Int.negSucc_lt_zero 0) hstarted hout'

theorem connectConnect_left {b : ConnectBox} {a : Answer} (h : Housed net boxes)
    (hbox : boxes i = openFd b.stream) (hstarted : b.started = true)
    (hmoved : b.moved = true → b.stream < 0) (hout : (IoFut.connect b).TakesOut net out) :
    Eff.wp (connectConnect b out a) (Left boxes i out) (fun net' => Housed net' boxes) net := by
  unfold connectConnect
  split
  · exact connectHandOff_left h hbox hstarted hout
  split
  · exact connectFail_left h hbox hstarted hout
  · exact connectAwait_left (b := { b with wait := awaitOn b.stream true a.alloc }) h hbox hstarted
      hmoved hout

theorem connectSockopt_left {b : ConnectBox} {a : Answer} (h : Housed net boxes)
    (hbox : boxes i = openFd b.stream) (hstarted : b.started = true)
    (hout : (IoFut.connect b).TakesOut net out) :
    Eff.wp (connectSockopt b out a) (Left boxes i out) (fun net' => Housed net' boxes) net := by
  unfold connectSockopt
  split
  · exact connectHandOff_left h hbox hstarted hout
  · exact connectFail_left h hbox hstarted hout

/-! ### Any of the futures

The two halves of a poll, for whatever future it is.
-/

/-- The first half of a poll, for whatever future it is. -/
theorem ioPoll_left {fut : IoFut} (h : Housed net boxes) (hbox : boxes i = fut.fd?)
    (hsound : fut.Sound) (hout : fut.TakesOut net out) :
    Eff.wp (ioPoll out fut) (Left boxes i out) (fun net' => Housed net' boxes) net := by
  cases fut with
  | rw b => exact transfer_left (fun _ _ => rwPoll_quiet b) h hbox
  | writeall b => exact transfer_left (fun _ _ => writeallPoll_quiet b out) h hbox
  | accept b => exact accept_left (fun _ _ => acceptPoll_quiet b) h hbox hout
  | connect b => exact connectPoll_left h hbox hsound hout

/-- The second half of a poll. -/
theorem ioReturn_left {fut : IoFut} {c : Call} {a : Answer} (h : Housed net boxes)
    (hbox : boxes i = fut.fd?) (hsound : fut.Sound) (hout : fut.TakesOut net out)
    (hcalls : fut.Calls c) (hfree : fut.opens c = true → 0 ≤ a.ret → ¬ net.IsOpen a.ret) :
    Eff.wp (ioReturn out a fut c) (Left boxes i out) (fun net' => Housed net' boxes) net := by
  cases fut with
  | rw b => exact transfer_left (fun _ _ => rwReturn_quiet b out a) h hbox
  | writeall b => exact transfer_left (fun _ _ => writeallReturn_quiet b out a) h hbox
  | accept b => exact acceptReturn_left h hbox hout (hfree rfl)
  | connect b =>
      obtain ⟨hstarted, hsocket⟩ := hcalls
      cases c with
      | socket family =>
          obtain ⟨hstream, hmoved⟩ := hsocket family rfl
          exact connectSocket_left h (hbox.trans (openFd_eq_none.mpr hstream)) hstream hstarted
            hmoved hout (hfree rfl)
      | connect fd => exact connectConnect_left h hbox hstarted hsound.2 hout
      | getsockopt fd => exact connectSockopt_left h hbox hstarted hout
      | _ => exact ⟨h.still hbox, hsound, nofun⟩

end Polls

/-! ## Drops and synchronous calls

The other moments at which descriptors are closed or opened.
-/

section Calls

variable {net : Net} {boxes : FutId → Option Int} {i : FutId}

/-- The drop of a future closes the descriptor in its box. -/
theorem ioDrop_housed {fut : IoFut} (h : Housed net boxes) (hbox : boxes i = fut.fd?)
    (hsound : fut.Sound) :
    Eff.wp (ioDrop fut) (fun _ net' => Housed net' (Function.update boxes i none))
      (fun _ => False) net := by
  obtain ⟨H, htracked, hheld⟩ := h
  have hwait : ∀ wait : Wait, Eff.wp (dropWait wait)
      (fun _ net' => net'.fds = net.fds ∧ Housed net' boxes) (fun _ => False) net := by
    intro wait
    refine Eff.wp_mono (Eff.wp_and (dropWait_quiet wait net ⟨htracked, rfl⟩) (dropWait_like wait)) ?_
      fun _ => And.right
    rintro _ net' ⟨⟨-, htracked', hfds⟩, -⟩
    exact ⟨hfds, H, htracked', hfds ▸ hheld⟩
  cases fut with
  | connect b =>
      apply Eff.wp_seq (hwait b.wait)
      rintro _ net' ⟨-, hhoused⟩
      cases hopen : !b.moved && decide (b.stream ≥ 0) with
      | true =>
          apply Eff.wp_seq_total (cexecFdClose_place (.box i) hhoused hbox)
          rintro r net'' ⟨-, hstreams, H', htracked', hheld'⟩
          refine ⟨H', htracked', ?_⟩
          rwa [fds_congr hstreams, places_box]
      | false =>
          have hneg : b.stream < 0 := by
            have := hsound.2
            grind
          exact hhoused.still (hbox.trans (openFd_eq_none.mpr hneg))
  | rw b | writeall b | accept b =>
      exact Eff.wp_mono (hwait b.wait) (fun _ _ hr => hr.2.still hbox) fun _ => id

/-- The handle at `p` is closed. -/
theorem cexecStreamClose_housed (p : Nat) (h : Housed net boxes) :
    Eff.wp (cexecStreamClose p) (fun _ net' => Housed net' boxes) (fun _ => False) net := by
  apply Eff.wp_seq_total (cexecFdClose_place (.handle p) h rfl)
  rintro r net' ⟨hr, hstreams, H', htracked, hheld⟩
  refine ⟨H', ⟨htracked.leased, htracked.table, htracked.nodup⟩, ?_⟩
  rwa [fds_store, openFd_eq_none.mpr hr, places_handle, fds_congr hstreams]

/-- A new listening socket is registered, or closed. -/
theorem cexecNetListen_tracked {H : Set Int} {a : ListenAnswer} (h : Tracked net H)
    (hpos : 0 ≤ a.socket) (hnew : a.socket ∉ H) :
    Eff.wp (cexecNetListen a)
      (fun r net' => net'.streams = net.streams ∧
        (r = (true, a.socket) ∧ Tracked net' (insert a.socket H) ∨ r = (false, -1) ∧ Tracked net' H))
      (fun _ => False) net := by
  unfold cexecNetListen
  rw [if_neg (Int.not_lt.mpr hpos)]
  refine Eff.wp_seq_total (P := fun _ net' => Obtained net' a.socket H ∧
    net'.streams = net.streams) ⟨h.obtain hnew, rfl⟩ ?_
  rintro _ net' ⟨hobtained, hstreams⟩
  split
  · exact ⟨hstreams, .inr ⟨rfl, hobtained.close⟩⟩
  · refine Eff.wp_mono (cexecFdAdopt_tracked hobtained) ?_ fun _ => id
    exact fun r net'' hr => ⟨hr.1.trans hstreams, hr.2⟩

/-- A listener gets its descriptor, or stays closed. -/
theorem cexecTcpListen_housed {p : Nat} {numeric : Bool} {a : ListenAnswer} (h : Housed net boxes)
    (hp : net.streams p < 0) (hfree : 0 ≤ a.socket → ¬ net.IsOpen a.socket) :
    Eff.wp (cexecTcpListen p numeric a) (fun _ net' => Housed net' boxes) (fun _ => False) net := by
  obtain ⟨H, htracked, hheld⟩ := h
  have hclosed : (-1 : Int) < 0 := by decide
  refine Eff.wp_seq_total (P := fun _ net' => Tracked net' H ∧ net'.fds = net.fds)
    ⟨⟨htracked.leased, htracked.table, htracked.nodup⟩, fds_store_closed hp hclosed⟩ ?_
  rintro _ net' ⟨htracked', hfds⟩
  have hp' : net'.streams p < 0 := fds_eq_none.mp (hfds ▸ fds_eq_none.mpr hp)
  rw [← hfds] at hheld
  cases numeric with
  | false => exact ⟨H, htracked', hheld⟩
  | true =>
      by_cases hpos : 0 ≤ a.socket
      · have hnew : a.socket ∉ H := fun hmem => hfree hpos (htracked.isOpen_iff.mpr hmem)
        apply Eff.wp_seq_total (cexecNetListen_tracked htracked' hpos hnew)
        rintro r net'' ⟨hstreams, hr⟩
        exact housed_store (hstreams ▸ hp') hpos hnew (fds_congr hstreams ▸ hheld) hr
      · rw [Int.not_le] at hpos
        refine Eff.wp_seq_total (P := fun r net'' => r = (false, -1) ∧ net'' = net') ?_ ?_
        · unfold cexecNetListen
          rw [if_pos hpos]
          exact ⟨rfl, rfl⟩
        · rintro _ _ ⟨rfl, rfl⟩
          exact Housed.storeClosed ⟨H, htracked', hheld⟩ hp' hclosed

end Calls

/-! ## Steps

`Sound` is the invariant of the program: everything is housed, boxes and flags agree, and the call in
the middle of which the program is has what it was promised.
-/

def NetProg.boxes (s : NetProg) (i : FutId) : Option Int := (s.futs i).bind IoFut.fd?

structure NetProg.Sound (s : NetProg) : Prop where
  housed  : Housed s.net s.boxes
  futs    : ∀ i fut, s.futs i = some fut → fut.Sound
  unused  : ∀ i, s.next ≤ i → s.futs i = none
  calling : ∀ i out c fut, s.pc = .calling i out c → s.futs i = some fut →
    fut.TakesOut s.net out ∧ fut.Calls c

theorem boxes_update (s : NetProg) (i : FutId) (fut : Option IoFut) :
    ({ s with futs := Function.update s.futs i fut } : NetProg).boxes =
      Function.update s.boxes i (fut.bind IoFut.fd?) := by
  funext j
  simp only [NetProg.boxes, Function.update_apply]
  split <;> rfl

theorem sound_fresh (r : Request) : r.fut.Sound ∧ r.fut.fd? = none := by
  cases r with
  | connect family => exact ⟨⟨fun _ => ⟨Int.negSucc_lt_zero 0, rfl⟩, nofun⟩, rfl⟩
  | _ => exact ⟨trivial, rfl⟩

theorem update_some_cases {s : NetProg} {i j : FutId} {fut fut' : IoFut}
    (h : Function.update s.futs i (some fut) j = some fut') :
    (j = i ∧ fut' = fut) ∨ s.futs j = some fut' := by
  rw [Function.update_apply] at h
  split at h
  next hji => exact .inl ⟨hji, (Option.some.inj h).symm⟩
  next => exact .inr h

/-- A part of a poll is run. -/
theorem sound_enter {s : NetProg} {i : FutId} {out : Option Nat} {x : Eff Net (Next × IoFut)}
    {fut : IoFut} (h : s.Sound) (hfut : s.futs i = some fut)
    (hx : Eff.wp x (Left s.boxes i out) (fun net => Housed net s.boxes) s.net) :
    (s.enter i out x).Sound := by
  unfold Eff.wp at hx
  unfold NetProg.enter
  rcases hrun : x s.net with ⟨_ | ⟨next, fut'⟩, net⟩ <;> rw [hrun] at hx <;> dsimp only at hx ⊢
  · refine ⟨hx, h.futs, h.unused, ?_⟩
    intro j out' c fut' hpc
    cases hpc
  · constructor
    case housed =>
      have hhoused := hx.housed
      rwa [← Option.bind_some fut' IoFut.fd?, ← boxes_update] at hhoused
    case futs =>
      intro j fut'' hj
      rcases update_some_cases hj with ⟨-, rfl⟩ | hold
      · exact hx.sound
      · exact h.futs j fut'' hold
    case unused =>
      intro j hj
      have hji : j ≠ i := by
        rintro rfl
        exact absurd (hfut.symm.trans (h.unused j hj)) nofun
      exact (Function.update_of_ne hji ..).trans (h.unused j hj)
    case calling =>
      intro j out' c fut'' hpc hj
      cases next with
      | call c' =>
          obtain ⟨rfl, rfl, rfl⟩ : i = j ∧ out = out' ∧ c' = c := by simpa using hpc
          have hj : Function.update s.futs i (some fut') i = some fut'' := hj
          rw [Function.update_self] at hj
          obtain rfl := Option.some.inj hj
          exact hx.calls c' rfl
      | _ => cases hpc

/-- A synchronous call. -/
theorem sound_call {s : NetProg} {x : Eff Net Unit} (hpc : s.pc = .outside)
    (hfuts : ∀ i fut, s.futs i = some fut → fut.Sound)
    (hunused : ∀ i, s.next ≤ i → s.futs i = none)
    (hx : Eff.wp x (fun _ net => Housed net s.boxes) (fun _ => False) s.net) :
    (s.call x).Sound := by
  obtain ⟨_, net, hrun, hhoused⟩ := Eff.wp_total hx
  unfold NetProg.call
  rw [hrun]
  refine ⟨hhoused, hfuts, hunused, ?_⟩
  intro i out c fut hcalling
  exact absurd (hpc.symm.trans hcalling) nofun

/-- A new future has done nothing. -/
theorem sound_build {s s' : NetProg} {r : Request} (h : s.Sound)
    (hs : s.step (.build r) = some s') : s'.Sound := by
  obtain ⟨hpc, hs⟩ := Option.ite_none_right_eq_some.mp hs
  cases hs
  obtain ⟨hsound, hfd⟩ := sound_fresh r
  have hnone : s.boxes s.next = none := by
    rw [NetProg.boxes, h.unused s.next le_rfl]
    rfl
  constructor
  case housed =>
    have hhoused : Housed s.net (Function.update s.boxes s.next none) := h.housed.still hnone
    rwa [← hfd, ← Option.bind_some r.fut IoFut.fd?, ← boxes_update] at hhoused
  case futs =>
    intro i fut hi
    rcases update_some_cases hi with ⟨-, rfl⟩ | hold
    · exact hsound
    · exact h.futs i fut hold
  case unused =>
    intro i hi
    have hlt : s.next < i := hi
    exact (Function.update_of_ne hlt.ne' ..).trans (h.unused i hlt.le)
  case calling =>
    intro i out c fut hcalling
    exact absurd (hpc.symm.trans hcalling) nofun

/-- **One step** of a careful program. -/
theorem sound_step {s s' : NetProg} {a : ProgAct} (h : s.Sound) (hcareful : s.Careful a)
    (hs : s.step a = some s') : s'.Sound := by
  cases a with
  | build r => exact sound_build h hs
  | poll i out =>
      obtain ⟨⟨hpc, -⟩, hs⟩ := Option.ite_none_right_eq_some.mp hs
      obtain ⟨fut, hfut, rfl⟩ := Option.map_eq_some_iff.mp hs
      refine sound_enter h hfut (ioPoll_left h.housed ?_ (h.futs i fut hfut) (hcareful fut hfut))
      rw [NetProg.boxes, hfut, Option.bind_some]
  | answer a =>
      rw [NetProg.step] at hs
      split at hs
      next i out c hpc =>
        obtain ⟨fut, hfut, rfl⟩ := Option.map_eq_some_iff.mp hs
        obtain ⟨htakes, hcalls⟩ := h.calling i out c fut hpc hfut
        refine sound_enter h hfut
          (ioReturn_left h.housed ?_ (h.futs i fut hfut) htakes hcalls fun hopens => ?_)
        · rw [NetProg.boxes, hfut, Option.bind_some]
        · apply hcareful
          rw [NetProg.opens, hpc]
          simpa [hfut] using hopens
      next => cases hs
  | drop i =>
      obtain ⟨hpc, hs⟩ := Option.ite_none_right_eq_some.mp hs
      obtain ⟨fut, hfut, rfl⟩ := Option.map_eq_some_iff.mp hs
      refine sound_call hpc ?_ ?_ ?_
      · intro j fut' hj
        have hj : Function.update s.futs i none j = some fut' := hj
        rw [Function.update_apply] at hj
        split at hj
        · cases hj
        · exact h.futs j fut' hj
      · intro j hj
        show Function.update s.futs i none j = none
        rw [Function.update_apply]
        split
        · rfl
        · exact h.unused j hj
      · rw [boxes_update]
        refine ioDrop_housed h.housed ?_ (h.futs i fut hfut)
        rw [NetProg.boxes, hfut, Option.bind_some]
  | close p =>
      obtain ⟨hpc, hs⟩ := Option.ite_none_right_eq_some.mp hs
      cases hs
      exact sound_call hpc h.futs h.unused (cexecStreamClose_housed p h.housed)
  | listen p numeric a =>
      obtain ⟨hpc, hs⟩ := Option.ite_none_right_eq_some.mp hs
      cases hs
      exact sound_call hpc h.futs h.unused (cexecTcpListen_housed h.housed hcareful.1 hcareful.2)
  | rest d =>
      obtain ⟨hpc, hs⟩ := Option.ite_none_right_eq_some.mp hs
      cases hs
      have htable : d.table = s.net.driver.table := hcareful
      obtain ⟨H, htracked, hheld⟩ := h.housed
      refine ⟨⟨H, ⟨htracked.leased, ?_, ?_⟩, hheld⟩, h.futs, h.unused, ?_⟩
      · show ∀ fd, fd ∈ d.table ↔ fd ∈ H
        rw [htable]
        exact htracked.table
      · show d.table.Nodup
        rw [htable]
        exact htracked.nodup
      · intro i out c fut hcalling
        exact absurd (hpc.symm.trans hcalling) nofun

theorem sound_start : NetProg.start.Sound := by
  constructor
  case housed =>
    refine ⟨∅, ⟨.nil, by simp [NetProg.start, IoDriver.table], .nil⟩, ?_⟩
    have hnone : places NetProg.start.net.fds NetProg.start.boxes = fun _ => none := by
      funext place
      cases place <;> rfl
    rw [hnone]
    exact placed_none
  case futs =>
    intro i fut hfut
    cases hfut
  case unused => exact fun _ _ => rfl
  case calling =>
    intro i out c fut hpc
    cases hpc

/-! ## Every run

`OwnedOnce` reads the invariant off for a user of the library.
-/

/-- The descriptor in a place: in a handle in memory, or in the box of a future. -/
def NetProg.holds (s : NetProg) : Place → Option Int := places s.net.fds s.boxes

/-- Every descriptor is somebody's, and only of one. -/
structure NetProg.OwnedOnce (s : NetProg) : Prop where
  /-- Only a descriptor that is open is closed. -/
  closes   : Each (fun pre e => ∀ fd, e = .closed fd →
    pre.count (.obtained fd) = pre.count (.closed fd) + 1) s.net.log
  /-- A descriptor that is open is in a place. -/
  owner    : ∀ fd, s.net.IsOpen fd ↔ ∃ place, s.holds place = some fd
  /-- No other place has it. -/
  unique   : ∀ place place' fd, s.holds place = some fd → s.holds place' = some fd → place = place'
  /-- What is in no place was closed as often as it was obtained. -/
  balanced : ∀ fd, (∀ place, s.holds place ≠ some fd) →
    s.net.log.count (.obtained fd) = s.net.log.count (.closed fd)
  /-- The open descriptors are registered. -/
  table    : ∀ fd, fd ∈ s.net.driver.table ↔ s.net.IsOpen fd
  /-- None is registered twice. -/
  nodup    : s.net.driver.table.Nodup

theorem NetProg.Sound.ownedOnce {s : NetProg} (h : s.Sound) : s.OwnedOnce := by
  obtain ⟨H, htracked, hheld⟩ := h.housed
  constructor
  case closes => exact htracked.leased.gives apart_fds
  case owner => exact fun fd => htracked.isOpen_iff.trans (hheld.mem fd)
  case unique => exact fun _ _ fd hp hp' => hheld.unique hp hp'
  case balanced =>
    intro fd hnone
    refine (htracked.leased.count apart_fds fd).2 fun hmem => ?_
    obtain ⟨place, hplace⟩ := (hheld.mem fd).mp hmem
    exact hnone place hplace
  case table => exact fun fd => (htracked.table fd).trans htracked.isOpen_iff.symm
  case nodup => exact htracked.nodup

/-- **Every descriptor is owned once**, in every run of a careful program. That the kernel does not hand
    out the number of an open descriptor is one of the assumptions, not a conclusion. -/
theorem descriptors_owned_once {as : List ProgAct} {s : NetProg}
    (h : Machine.RunIn NetProg.step NetProg.Careful .start as s) : s.OwnedOnce :=
  NetProg.Sound.ownedOnce
    (h.invariant (fun _ _ _ hsound hcareful hs => sound_step hsound hcareful hs) sound_start)

/-- A listener, a connection that is closed, and an accepted one that gets the same number. -/
def reuse : List ProgAct :=
  [.listen 0 true ⟨3, 0, 0, true, true⟩, .build (.connect 2), .poll 0 (some 1),
    .answer ⟨4, true, true⟩, .answer ⟨0, true, true⟩, .close 1, .build (.accept 0),
    .poll 1 (some 2), .answer ⟨4, true, true⟩, .drop 0, .close 1]

theorem descriptors_owned_once_reused :
    ∃ s, Machine.RunIn NetProg.step NetProg.Careful .start reuse s ∧ s.OwnedOnce := by
  obtain ⟨s, hs⟩ : ∃ s,
      Machine.run (Machine.guarded NetProg.step NetProg.Careful) .start reuse = some s :=
    Option.isSome_iff_exists.mp (by decide)
  exact ⟨s, .of_guarded hs, descriptors_owned_once (.of_guarded hs)⟩

end CustLib.Exec
