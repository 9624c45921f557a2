import CustLib.Lib.History
import CustLib.Execution.Stream

/-!
# Bytes on a connection

One direction of a connected stream: a program at either end, and the kernel between them. Each end
builds `cexec_stream_read`, `cexec_stream_write` and `cexec_stream_write_all` futures one after the other,
polls them when it likes and drops them when it likes, also before they are `Ready` (a timeout around a
`read` does that). The futures are those of `CustLib.Execution.Stream`, so that allocator and driver may
do between two polls what they do there. The writing end is closed only when its last future is gone: by
the contract of `fd.c` no future outlives the registration of its handle.

The kernel keeps the bytes of a stream in order: `write` puts a front part of what it is given behind
the bytes that are on their way, and `read` takes bytes off their front. All else it is free to do:
short counts, `EINTR`, `EAGAIN`, errors, and arbitrary delays. `bytes_in_order` says what the futures
make of that.
-/

namespace CustLib.Exec

open CustLib.History (Each each_nil each_concat)
open CustLib.Machine (run run_invariant)

/-! ## One end

An end has at most one future at a time. What it has moved is recorded by the bytes themselves, when the
kernel reports how many there were.
-/

/-- What an end builds a future for, with the bytes in the buffer of a write. -/
inductive IoJob where
  | read (len : Nat)
  | write (buf : List UInt8)
  | writeAll (buf : List UInt8)
  deriving DecidableEq, Repr

/-- The call of the constructor, for the stream at `s`. -/
def IoJob.fut (s : Nat) : IoJob → IoFut
  | .read len     => cexecStreamRead s len
  | .write buf    => cexecStreamWrite s buf.length
  | .writeAll buf => cexecStreamWriteAll s buf.length

/-- The buffer that a write call reads from. -/
def IoJob.buf : IoJob → List UInt8
  | .read _                    => []
  | .write buf | .writeAll buf => buf

/-- A future that has been dropped: whether it had been `Ready`, the value that it then stored in
    `*out`, and the bytes that its calls have moved. -/
structure Transfer where
  job   : IoJob
  ready : Bool
  value : Option Int
  moved : List UInt8
  deriving DecidableEq, Repr

/-- An end: its last future with the system around it, the bytes that the calls of this future have
    moved, and the futures before. -/
structure End where
  sys   : NetSys
  job   : IoJob
  moved : List UInt8
  log   : List Transfer

/-- The bytes that all calls of an end have moved. -/
def End.total (e : End) : List UInt8 := (e.log.map Transfer.moved).flatten ++ e.moved

/-- A new end of the stream in cell 0, before its first future. -/
def End.start (driver : IoDriver) (fd : Int) : End where
  sys   := { NetSys.start driver (fun _ => fd) (cexecStreamRead 0 0) with pc := .dropped }
  job   := .read 0
  moved := []
  log   := []

/-- A future is built when the last one has been dropped. -/
def End.build (e : End) (job : IoJob) : Option End :=
  if e.sys.pc = .dropped then
    some { e with sys := { e.sys with fut := job.fut 0, out := none, pc := .idle }, job }
  else none

def End.transfer (e : End) : Transfer where
  job   := e.job
  ready := e.sys.pc = .ready
  value := if e.sys.pc = .ready then e.sys.out.map e.sys.net.results else none
  moved := e.moved

/-- What happens to a future beside its calls. Its stream is left alone. -/
def End.act (e : End) : NetAct → Option End
  | .answer _ | .stream .. => none
  | .drop     => (e.sys.step .drop).map fun sys =>
    { e with sys, moved := [], log := e.log ++ [e.transfer] }
  | a         => (e.sys.step a).map fun sys => { e with sys }

def End.answer (e : End) (a : Answer) (bytes : List UInt8) : Option End :=
  (e.sys.step (.answer a)).map fun sys => { e with sys, moved := e.moved ++ bytes }

/-! ## The connection

Two ends and the bytes between them. `written` and `received` are answers of the kernel to the call that
is under way; their counts are bounded by what was asked for and by what is there.
-/

/-- The writing end, the reading end, the bytes between them, and whether the writing end is
    closed. -/
structure Conn where
  tx    : End
  rx    : End
  queue : List UInt8
  shut  : Bool

/-- What happens on a connection: an end builds a future, or something happens to its future; a
    `write` or `read` returns; the writing end is closed. -/
inductive ConnAct where
  | write (buf : List UInt8)
  | writeAll (buf : List UInt8)
  | read (len : Nat)
  | tx (a : NetAct)
  | rx (a : NetAct)
  | written (a : Answer)
  | received (a : Answer)
  | close

/-- What `read` may answer. No bytes mean the end of the stream, when some were asked for. -/
def Conn.mayRead (c : Conn) (len : Nat) (ret : Int) : Bool :=
  ret ≤ len && ret ≤ c.queue.length && (ret ≠ 0 || len = 0 || (c.shut && c.queue.isEmpty))

/-- One step of a connection. Buffers are smaller than half the address space. -/
def Conn.step (c : Conn) : ConnAct → Option Conn
  | .write buf =>
    if c.shut ∨ 2 ^ 63 ≤ buf.length then none
    else (c.tx.build (.write buf)).map fun tx => { c with tx }
  | .writeAll buf =>
    if c.shut ∨ 2 ^ 63 ≤ buf.length then none
    else (c.tx.build (.writeAll buf)).map fun tx => { c with tx }
  | .read len => (c.rx.build (.read len)).map fun rx => { c with rx }
  | .tx a => (c.tx.act a).map fun tx => { c with tx }
  | .rx a => (c.rx.act a).map fun rx => { c with rx }
  | .written a =>
    match c.tx.sys.pc with
    | .calling (.write _ off len) =>
      if a.ret ≤ len then
        let bytes := (c.tx.job.buf.drop off).take a.ret.toNat
        (c.tx.answer a bytes).map fun tx => { c with tx, queue := c.queue ++ bytes }
      else none
    | _ => none
  | .received a =>
    match c.rx.sys.pc with
    | .calling (.read _ len) =>
      if c.mayRead len a.ret then
        let bytes := c.queue.take a.ret.toNat
        (c.rx.answer a bytes).map fun rx => { c with rx, queue := c.queue.drop a.ret.toNat }
      else none
    | _ => none
  | .close => if c.tx.sys.pc = .dropped then some { c with shut := true } else none

def Conn.start (dtx drx : IoDriver) (wfd rfd : Int) : Conn where
  tx    := .start dtx wfd
  rx    := .start drx rfd
  queue := []
  shut  := false

/-! ## What is said of a future

The contract of a future that has been dropped, in terms of its result and of the bytes that it has
moved.
-/

/-- **The contract of a dropped future.** A `write` or `read` that was not `Ready` has moved nothing;
    else its result counts the bytes it has moved, from the front of its buffer. A `write_all` has
    sent a front part of its buffer, which is all of it iff the result is its length. -/
def Transfer.Ok (t : Transfer) : Prop :=
  match t.job with
  | .read len =>
    t.moved.length ≤ len ∧ (t.ready = false → t.moved = []) ∧
      ∀ v, t.value = some v → t.moved.length = v.toNat
  | .write buf =>
    t.moved <+: buf ∧ (t.ready = false → t.moved = []) ∧
      ∀ v, t.value = some v → t.moved = buf.take v.toNat
  | .writeAll buf =>
    t.moved <+: buf ∧
      ∀ v, t.value = some v → (v = buf.length ↔ t.moved = buf) ∧
        (0 ≤ v → t.moved = buf.take v.toNat)

/-- A `read` that has reported the end of the stream. -/
def Transfer.Eof (t : Transfer) : Prop :=
  ∃ len, t.job = .read len ∧ 0 < len ∧ t.value = some 0

/-! ## Parts of a poll

From the head of its loop a poll comes to its system call, waits, or, for a `write_all` with nothing
left, is done.
-/

theorem awaitReady_results (wait : Wait) (net : Net) :
    Eff.wp (awaitReady wait) (fun _ net' => net'.results = net.results) (fun _ => True) net := by
  unfold awaitReady
  cases wait.awaiting with
  | false => rfl
  | true =>
      cases wait.readiness with
      | none => trivial
      | some b =>
          refine Eff.wp_seq (P := fun _ net' => net'.results = net.results) rfl ?_
          intro r net' hres
          dsimp only
          split
          · exact hres
          · cases r.2 with
            | none => exact hres
            | some f => exact hres

/-- `*out` holds the value, when there is a place for it. -/
def Net.holds (net : Net) (out : Option Nat) (v : Int) : Prop := ∀ p, out = some p → net.results p = v

/-- After the store `*out` holds the value. -/
theorem storeResult_holds (out : Option Nat) (v : Int) (net : Net) {Q : Unit → Net → Prop}
    {E : Net → Prop} (h : ∀ net', net'.holds out v → Q () net') :
    Eff.wp (storeResult out v) Q E net := by
  cases out with
  | none => exact h net nofun
  | some p =>
      apply h
      rintro q ⟨⟩
      exact Function.update_self _ _ _

/-- What a `read` or `write` asks of the kernel. -/
def RwBox.call (b : RwBox) (fd : Int) : Call :=
  if b.isWrite then .write fd 0 b.len else .read fd b.len

/-- A `read` or `write` from the head of its loop waits, or calls. -/
def RwHead (b : RwBox) (r : Next × IoFut) : Prop :=
  ∃ wait, r.2 = .rw { b with wait } ∧ (r.1 = .pending ∨ ∃ fd, r.1 = .call (b.call fd))

theorem rwPoll_head (b : RwBox) (net : Net) :
    Eff.wp (rwPoll b) (fun r _ => RwHead b r) (fun _ => True) net := by
  apply Eff.wp_seq (awaitReady_results b.wait net)
  intro r net' _
  dsimp only
  split
  · exact ⟨r.2, rfl, .inl rfl⟩
  · exact ⟨r.2, rfl, .inr ⟨_, rfl⟩⟩

/-- Behind its call it is `Ready` with the answer, or the call has failed and it starts again. -/
theorem rwReturn_spec (b : RwBox) (out : Option Nat) (a : Answer) (net : Net) :
    Eff.wp (rwReturn b out a)
      (fun r net' => (r = (.ready, .rw b) ∧ net'.holds out a.ret) ∨ (a.ret < 0 ∧ RwHead b r))
      (fun _ => True) net := by
  have hintr : -EINTR < 0 := by decide
  have hagain : -EAGAIN < 0 := by decide
  unfold rwReturn
  split
  · rw [Eff.wp_bind]
    exact storeResult_holds out a.ret net fun net' h => .inl ⟨rfl, h⟩
  next hneg =>
    have hneg : a.ret < 0 := Int.not_le.mp hneg
    split
    · exact Eff.wp_mono (rwPoll_head b net) (fun r _ h => .inr ⟨hneg, h⟩) fun _ => id
    split
    · exact Eff.wp_mono (rwPoll_head _ _) (fun r _ h => .inr ⟨hneg, h⟩) fun _ => id
    · rw [Eff.wp_bind]
      exact storeResult_holds out a.ret net fun net' h => .inl ⟨rfl, h⟩

/-- A `write_all` from the head of its loop waits, has sent everything, or asks for the rest. -/
def WriteallHead (b : WriteallBox) (out : Option Nat) (r : Next × IoFut) (net : Net) : Prop :=
  ∃ wait, r.2 = .writeall { b with wait } ∧ (r.1 = .pending ∨
    (b.off = b.len ∧ r.1 = .ready ∧ net.holds out b.len) ∨
    (b.off < b.len ∧ ∃ fd, r.1 = .call (.write fd b.off (b.len - b.off))))

/-- A `write_all` from the head of its loop. -/
theorem writeallPoll_head (b : WriteallBox) (hoff : b.off ≤ b.len) (hlen : b.len < 2 ^ 63)
    (out : Option Nat) (net : Net) :
    Eff.wp (writeallPoll b out) (WriteallHead b out) (fun _ => True) net := by
  apply Eff.wp_seq (awaitReady_results b.wait net)
  intro r net' _
  dsimp only
  split
  · exact ⟨r.2, rfl, .inl rfl⟩
  split
  next hfull =>
    rw [Eff.wp_bind, toIsize_eq hlen]
    have heq : b.off = b.len := Nat.le_antisymm hoff hfull
    exact storeResult_holds out b.len net' fun net'' h => ⟨r.2, rfl, .inr (.inl ⟨heq, rfl, h⟩)⟩
  next hrest => exact ⟨r.2, rfl, .inr (.inr ⟨Nat.not_le.mp hrest, _, rfl⟩)⟩

/-- Behind its call it goes on after the bytes that were accepted, or it is `Ready` before the end. -/
theorem writeallReturn_spec {b : WriteallBox} {a : Answer} (hoff : b.off + a.ret.toNat ≤ b.len)
    (hrest : b.off < b.len) (hlen : b.len < 2 ^ 63) (out : Option Nat) (net : Net) :
    Eff.wp (writeallReturn b out a)
      (fun r net' => WriteallHead { b with off := b.off + a.ret.toNat } out r net' ∨
        (a.ret.toNat = 0 ∧ r = (.ready, .writeall b) ∧ ∃ v, net'.holds out v ∧ (v < 0 ∨ v = b.off)))
      (fun _ => True) net := by
  unfold writeallReturn
  split
  next hpos =>
    have hadd : wadd b.off a.ret.toNat = b.off + a.ret.toNat := wadd_eq (by omega)
    rw [hadd]
    exact Eff.wp_mono (writeallPoll_head { b with off := b.off + a.ret.toNat } hoff hlen out net)
      (fun _ _ => .inl) fun _ => id
  next hpos =>
    have hzero : a.ret.toNat = 0 := by omega
    have hle : b.off ≤ b.len := Nat.le_of_lt hrest
    rw [hzero, Nat.add_zero]
    split
    · exact Eff.wp_mono (writeallPoll_head b hle hlen out net) (fun _ _ => .inl) fun _ => id
    split
    · rw [Eff.wp_bind, Eff.wp_move]
      exact Eff.wp_mono (writeallPoll_head
        { b with wait := awaitOn (net.streams b.stream) true a.alloc } hle hlen out net)
        (fun _ _ => .inl) fun _ => id
    · rw [Eff.wp_bind]
      refine storeResult_holds out _ net fun net' h => .inr ⟨rfl, rfl, _, h, ?_⟩
      by_cases hneg : a.ret < 0
      · rw [if_pos hneg]
        exact .inl hneg
      · rw [if_neg hneg]
        exact .inr (toIsize_eq (by omega))

/-! ## How far a future has got

The state of the box against the bytes that were moved. A `read` or `write` moves bytes once, in the
call that makes it `Ready`; a `write_all` moves them piece by piece, and `off` counts them.
-/

/-- A `read` or `write` moves nothing before it is `Ready`. -/
def RwStage (b : RwBox) (e : End) : IoPc → Prop
  | .calling c => e.moved = [] ∧ ∃ fd, c = b.call fd
  | .ready     => e.moved.length ≤ b.len ∧ (b.isWrite = true → e.moved <+: e.job.buf) ∧
    ∃ v, e.sys.net.holds e.sys.out v ∧ e.moved.length = v.toNat
  | .idle | .dropped => e.moved = []
  | .crashed   => True

/-- A `write_all` has sent what is in front of `off`. -/
def WriteallStage (b : WriteallBox) (e : End) : IoPc → Prop
  | .idle      => e.moved = e.job.buf.take b.off
  | .calling c => e.moved = e.job.buf.take b.off ∧ b.off < b.len ∧
    ∃ fd, c = .write fd b.off (b.len - b.off)
  | .ready     => e.moved = e.job.buf.take b.off ∧ ∃ v, e.sys.net.holds e.sys.out v ∧
    (b.off = b.len ∧ v = b.len ∨ b.off < b.len ∧ (v < 0 ∨ v = b.off))
  | .dropped   => e.moved = []
  | .crashed   => e.moved <+: e.job.buf

/-- The future is the one that was built, and has got so far. -/
def End.Stage (e : End) : Prop :=
  match e.job with
  | .read len => ∃ b, e.sys.fut = .rw b ∧ b.isWrite = false ∧ b.len = len ∧ RwStage b e e.sys.pc
  | .write buf =>
    ∃ b, e.sys.fut = .rw b ∧ b.isWrite = true ∧ b.len = buf.length ∧ RwStage b e e.sys.pc
  | .writeAll buf => ∃ b, e.sys.fut = .writeall b ∧ b.len = buf.length ∧ b.len < 2 ^ 63 ∧
    b.off ≤ b.len ∧ WriteallStage b e e.sys.pc

theorem End.stage_start (driver : IoDriver) (fd : Int) : (End.start driver fd).Stage :=
  ⟨_, rfl, rfl, rfl, rfl⟩

/-- A dropped future has nothing left to account for. -/
theorem End.Stage.moved_dropped {e : End} (h : e.Stage) (hpc : e.sys.pc = .dropped) :
    e.moved = [] := by
  unfold End.Stage at h
  split at h
  · obtain ⟨b, -, -, -, hstage⟩ := h
    rwa [hpc] at hstage
  · obtain ⟨b, -, -, -, hstage⟩ := h
    rwa [hpc] at hstage
  · obtain ⟨b, -, -, -, -, hstage⟩ := h
    rwa [hpc] at hstage

/-- A `write_all` sends a front part of its buffer. -/
theorem End.Stage.moved_writeAll {e : End} (h : e.Stage) {buf : List UInt8}
    (hjob : e.job = .writeAll buf) : e.moved <+: buf := by
  unfold End.Stage at h
  rw [hjob] at h
  obtain ⟨b, -, -, -, -, hstage⟩ := h
  have hbuf : e.job.buf = buf := by rw [hjob, IoJob.buf]
  have htake : e.moved = e.job.buf.take b.off → e.moved <+: buf := fun htake => by
    rw [htake, hbuf]
    exact List.take_prefix _ _
  cases hpc : e.sys.pc <;> rw [hpc] at hstage
  case idle => exact htake hstage
  case calling => exact htake hstage.1
  case ready => exact htake hstage.1
  case dropped => exact (show e.moved = [] from hstage) ▸ List.nil_prefix
  case crashed => exact hbuf ▸ hstage

/-- A new future has moved nothing. -/
theorem End.build_spec {e e' : End} {job : IoJob} (h : e.Stage) (hjob : job.buf.length < 2 ^ 63)
    (hs : e.build job = some e') :
    e'.Stage ∧ e'.job = job ∧ e'.sys.pc = .idle ∧ e'.log = e.log ∧ e'.moved = e.moved := by
  obtain ⟨hpc, hs⟩ := Option.ite_none_right_eq_some.mp hs
  cases hs
  have hmoved := h.moved_dropped hpc
  refine ⟨?_, rfl, rfl, rfl, rfl⟩
  cases job with
  | read len => exact ⟨_, rfl, rfl, rfl, hmoved⟩
  | write buf => exact ⟨_, rfl, rfl, rfl, hmoved⟩
  | writeAll buf =>
      refine ⟨_, rfl, rfl, hjob, Nat.zero_le _, ?_⟩
      show e.moved = buf.take 0
      rw [hmoved, List.take_zero]

/-- A part of a poll has run, or has got stuck. -/
theorem enter_spec (out : Option Nat) {s : NetSys} {x : Eff Net (Next × IoFut)}
    {Q : Next × IoFut → Net → Prop} {E : Net → Prop} (h : Eff.wp x Q E s.net) :
    (∃ next fut net, s.enter out x = ⟨net, fut, out, next.pc⟩ ∧ Q (next, fut) net) ∨
      ((s.enter out x).pc = .crashed ∧ (s.enter out x).fut = s.fut) := by
  unfold Eff.wp at h
  unfold NetSys.enter
  rcases hx : x s.net with ⟨_ | ⟨next, fut⟩, net⟩ <;> rw [hx] at h
  · exact .inr ⟨rfl, rfl⟩
  · exact .inl ⟨next, fut, net, rfl, h⟩

theorem enter_out (s : NetSys) (out : Option Nat) (x : Eff Net (Next × IoFut)) :
    (s.enter out x).out = out := by
  unfold NetSys.enter
  split <;> rfl

/-- A `read` or `write` is at the head of its loop, and has moved nothing. -/
theorem RwHead.stage {b : RwBox} {next : Next} {fut : IoFut} {e : End} (h : RwHead b (next, fut))
    (hmoved : e.moved = []) : ∃ b' : RwBox, fut = .rw b' ∧ b'.isWrite = b.isWrite ∧ b'.len = b.len ∧
      RwStage b' e next.pc ∧ next.pc ≠ .ready := by
  obtain ⟨wait, hfut, hnext⟩ := h
  refine ⟨{ b with wait }, hfut, rfl, rfl, ?_⟩
  rcases hnext with hnext | ⟨fd, hnext⟩
  · rw [show next = .pending from hnext]
    exact ⟨hmoved, nofun⟩
  · rw [show next = .call (b.call fd) from hnext]
    exact ⟨⟨hmoved, fd, rfl⟩, nofun⟩

/-- A `write_all` is at the head of its loop, and has sent what is in front of `off`. -/
theorem WriteallHead.stage {b : WriteallBox} {next : Next} {fut : IoFut} {e : End}
    (h : WriteallHead b e.sys.out (next, fut) e.sys.net) (hmoved : e.moved = e.job.buf.take b.off) :
    ∃ b' : WriteallBox, fut = .writeall b' ∧ b'.len = b.len ∧ b'.off = b.off ∧
      WriteallStage b' e next.pc := by
  obtain ⟨wait, hfut, hnext⟩ := h
  refine ⟨{ b with wait }, hfut, rfl, rfl, ?_⟩
  rcases hnext with hnext | ⟨hfull, hnext, hholds⟩ | ⟨hrest, fd, hnext⟩
  · rw [show next = .pending from hnext]
    exact hmoved
  · rw [show next = .ready from hnext]
    exact ⟨hmoved, _, hholds, .inl ⟨hfull, rfl⟩⟩
  · rw [show next = .call _ from hnext]
    exact ⟨hmoved, hrest, fd, rfl⟩

/-- A `read` or `write` is polled. -/
theorem End.rw_poll {e : End} {b : RwBox} (hfut : e.sys.fut = .rw b) (hmoved : e.moved = [])
    (out : Option Nat) : ∃ b' : RwBox, (e.sys.enter out (rwPoll b)).fut = .rw b' ∧
      b'.isWrite = b.isWrite ∧ b'.len = b.len ∧ (e.sys.enter out (rwPoll b)).pc ≠ .ready ∧
      RwStage b' { e with sys := e.sys.enter out (rwPoll b) } (e.sys.enter out (rwPoll b)).pc := by
  rcases enter_spec out (rwPoll_head b e.sys.net) with
    ⟨next, fut, net, henter, hhead⟩ | ⟨hpc, hfut'⟩
  · rw [henter]
    obtain ⟨b', hb', hw, hlen, hstage, hnot⟩ :=
      hhead.stage (e := { e with sys := ⟨net, fut, out, next.pc⟩ }) hmoved
    exact ⟨b', hb', hw, hlen, hnot, hstage⟩
  · refine ⟨b, hfut'.trans hfut, rfl, rfl, ?_, ?_⟩
    · rw [hpc]
      exact nofun
    · rw [hpc]
      trivial

/-- **A poll** takes the future on; a `read` or `write` is not `Ready` before a call. -/
theorem End.stage_poll {e : End} (h : e.Stage) (hpc : e.sys.pc = .idle) (out : Option Nat) :
    ({ e with sys := e.sys.enter out (ioPoll out e.sys.fut) } : End).Stage ∧
      ∀ len, e.job = .read len → (e.sys.enter out (ioPoll out e.sys.fut)).pc ≠ .ready := by
  obtain ⟨sys, job, moved, log⟩ := e
  cases job with
  | read len =>
      obtain ⟨b, hfut, hw, hlen, hstage⟩ := h
      dsimp only at hfut hpc hstage ⊢
      rw [hpc] at hstage
      rw [hfut]
      obtain ⟨b', hfut', hw', hlen', hnot, hstage'⟩ :=
        End.rw_poll (e := ⟨sys, .read len, moved, log⟩) hfut hstage out
      exact ⟨⟨b', hfut', hw'.trans hw, hlen'.trans hlen, hstage'⟩, fun _ _ => hnot⟩
  | write buf =>
      obtain ⟨b, hfut, hw, hlen, hstage⟩ := h
      dsimp only at hfut hpc hstage ⊢
      rw [hpc] at hstage
      rw [hfut]
      obtain ⟨b', hfut', hw', hlen', -, hstage'⟩ :=
        End.rw_poll (e := ⟨sys, .write buf, moved, log⟩) hfut hstage out
      exact ⟨⟨b', hfut', hw'.trans hw, hlen'.trans hlen, hstage'⟩, nofun⟩
  | writeAll buf =>
      obtain ⟨b, hfut, hlen, hsmall, hoff, hstage⟩ := h
      dsimp only at hfut hpc hstage ⊢
      rw [hpc] at hstage
      rw [hfut]
      refine ⟨?_, nofun⟩
      rcases enter_spec out (writeallPoll_head b hoff hsmall out sys.net) with
        ⟨next, fut, net, henter, hhead⟩ | ⟨hpc', hfut'⟩
      · obtain ⟨b', hb', hlen', hoff', hstage'⟩ :=
          hhead.stage (e := ⟨⟨net, fut, out, next.pc⟩, .writeAll buf, moved, log⟩) hstage
        rw [show sys.enter out (ioPoll out (.writeall b)) = _ from henter]
        exact ⟨b', hb', hlen'.trans hlen, hlen' ▸ hsmall, by rw [hlen', hoff']; exact hoff, hstage'⟩
      · refine ⟨b, hfut'.trans hfut, hlen, hsmall, hoff, ?_⟩
        show WriteallStage b _ (sys.enter out (ioPoll out (.writeall b))).pc
        rw [show (sys.enter out (ioPoll out (.writeall b))).pc = _ from hpc']
        exact (show moved = buf.take b.off from hstage) ▸ List.take_prefix _ _

/-- The call of a `read` or `write` returns. -/
theorem End.rw_answer {e : End} {b : RwBox} {a : Answer} {bytes : List UInt8}
    (hfut : e.sys.fut = .rw b) (hmoved : e.moved = []) (hbytes : bytes.length = a.ret.toNat)
    (hle : a.ret ≤ b.len) (hbuf : b.isWrite = true → bytes <+: e.job.buf) :
    ∃ b' : RwBox, (e.sys.enter e.sys.out (rwReturn b e.sys.out a)).fut = .rw b' ∧
      b'.isWrite = b.isWrite ∧ b'.len = b.len ∧
      ((e.sys.enter e.sys.out (rwReturn b e.sys.out a)).pc = .ready →
        (e.sys.enter e.sys.out (rwReturn b e.sys.out a)).net.holds e.sys.out a.ret) ∧
      RwStage b' { e with sys := e.sys.enter e.sys.out (rwReturn b e.sys.out a),
                          moved := e.moved ++ bytes }
        (e.sys.enter e.sys.out (rwReturn b e.sys.out a)).pc := by
  rw [hmoved, List.nil_append]
  rcases enter_spec e.sys.out (rwReturn_spec b e.sys.out a e.sys.net) with
    ⟨next, fut, net, henter, ⟨hready, hholds⟩ | ⟨hneg, hhead⟩⟩ | ⟨hpc, hfut'⟩
  · rw [henter]
    cases hready
    refine ⟨b, rfl, rfl, rfl, fun _ => hholds, ?_, hbuf, a.ret, hholds, hbytes⟩
    show bytes.length ≤ b.len
    omega
  · -- the call has failed, so nothing was moved
    have hnil : bytes = [] := List.eq_nil_of_length_eq_zero (by omega)
    rw [henter]
    obtain ⟨b', hb', hw, hlen, hstage, hnot⟩ :=
      hhead.stage (e := { e with sys := ⟨net, fut, e.sys.out, next.pc⟩, moved := bytes }) hnil
    exact ⟨b', hb', hw, hlen, fun hr => absurd hr hnot, hstage⟩
  · refine ⟨b, hfut'.trans hfut, rfl, rfl, ?_, ?_⟩
    · rw [hpc]
      exact nofun
    · rw [hpc]
      trivial

/-- A `read` returns. -/
theorem End.stage_received {e : End} (h : e.Stage) {fd : Int} {len : Nat}
    (hpc : e.sys.pc = .calling (.read fd len)) {a : Answer} {bytes : List UInt8}
    (hbytes : bytes.length = a.ret.toNat) (hle : a.ret ≤ len) :
    ({ e with sys := e.sys.enter e.sys.out (ioReturn e.sys.out a e.sys.fut (.read fd len)),
              moved := e.moved ++ bytes } : End).Stage ∧ e.job = .read len ∧
      ((e.sys.enter e.sys.out (ioReturn e.sys.out a e.sys.fut (.read fd len))).pc = .ready →
        (e.sys.enter e.sys.out (ioReturn e.sys.out a e.sys.fut (.read fd len))).net.holds
          e.sys.out a.ret) := by
  obtain ⟨sys, job, moved, log⟩ := e
  cases job with
  | read n =>
      obtain ⟨b, hfut, hw, hlen, hstage⟩ := h
      dsimp only at hfut hpc hstage ⊢
      rw [hpc] at hstage
      obtain ⟨hmoved, fd', hcall⟩ := hstage
      rw [RwBox.call, hw] at hcall
      cases hcall
      rw [hfut]
      obtain ⟨b', hfut', hw', hlen', hholds, hstage'⟩ :=
        End.rw_answer (e := ⟨sys, .read n, moved, log⟩) hfut hmoved hbytes hle (by simp [hw])
      exact ⟨⟨b', hfut', hw'.trans hw, hlen'.trans hlen, hstage'⟩, by rw [hlen], hholds⟩
  | write buf =>
      obtain ⟨b, -, hw, -, hstage⟩ := h
      dsimp only at hpc hstage
      rw [hpc] at hstage
      obtain ⟨-, fd', hcall⟩ := hstage
      rw [RwBox.call, hw] at hcall
      cases hcall
  | writeAll buf =>
      obtain ⟨b, -, -, -, -, hstage⟩ := h
      dsimp only at hpc hstage
      rw [hpc] at hstage
      obtain ⟨-, -, fd', hcall⟩ := hstage
      cases hcall

/-- A `write` returns. -/
theorem End.stage_written {e : End} (h : e.Stage) {fd : Int} {off len : Nat}
    (hpc : e.sys.pc = .calling (.write fd off len)) {a : Answer} (hle : a.ret ≤ len) :
    ({ e with sys := e.sys.enter e.sys.out (ioReturn e.sys.out a e.sys.fut (.write fd off len)),
              moved := e.moved ++ (e.job.buf.drop off).take a.ret.toNat } : End).Stage := by
  obtain ⟨sys, job, moved, log⟩ := e
  cases job with
  | read n =>
      obtain ⟨b, -, hw, -, hstage⟩ := h
      dsimp only at hpc hstage
      rw [hpc] at hstage
      obtain ⟨-, fd', hcall⟩ := hstage
      rw [RwBox.call, hw] at hcall
      cases hcall
  | write buf =>
      obtain ⟨b, hfut, hw, hlen, hstage⟩ := h
      dsimp only at hfut hpc hstage ⊢
      rw [hpc] at hstage
      obtain ⟨hmoved, fd', hcall⟩ := hstage
      rw [RwBox.call, hw] at hcall
      cases hcall
      rw [hfut]
      have hbytes : ((buf.drop 0).take a.ret.toNat).length = a.ret.toNat := by
        rw [List.length_take, List.drop_zero]
        omega
      obtain ⟨b', hfut', hw', hlen', -, hstage'⟩ :=
        End.rw_answer (e := ⟨sys, .write buf, moved, log⟩) hfut hmoved hbytes hle
          fun _ => List.take_prefix _ _
      exact ⟨b', hfut', hw'.trans hw, hlen'.trans hlen, hstage'⟩
  | writeAll buf =>
      obtain ⟨b, hfut, hlen, hsmall, hoff, hstage⟩ := h
      dsimp only at hfut hpc hstage ⊢
      rw [hpc] at hstage
      obtain ⟨hmoved, hrest, fd', hcall⟩ := hstage
      cases hcall
      rw [hfut]
      have hoff' : b.off + a.ret.toNat ≤ b.len := by omega
      -- the bytes in front of the new `off`
      have hmoved' : moved ++ (buf.drop b.off).take a.ret.toNat =
          buf.take (b.off + a.ret.toNat) := by
        rw [show moved = buf.take b.off from hmoved, List.take_add]
      rcases enter_spec sys.out (writeallReturn_spec hoff' hrest hsmall sys.out sys.net)
        with ⟨next, fut, net, henter, hhead | ⟨hzero, hready, v, hholds, hv⟩⟩ | ⟨hpc', hfut'⟩
      · obtain ⟨b', hb', hlen', hoff'', hstage'⟩ :=
          hhead.stage (e := ⟨⟨net, fut, sys.out, next.pc⟩, .writeAll buf, _, log⟩) hmoved'
        rw [show sys.enter sys.out (ioReturn sys.out a (.writeall b) _) = _ from henter]
        exact ⟨b', hb', hlen'.trans hlen, hlen' ▸ hsmall, by rw [hlen', hoff'']; exact hoff', hstage'⟩
      · rw [show sys.enter sys.out (ioReturn sys.out a (.writeall b) _) = _ from henter]
        cases hready
        refine ⟨b, rfl, hlen, hsmall, hoff, ?_, v, hholds, .inr ⟨hrest, hv⟩⟩
        show moved ++ (buf.drop b.off).take a.ret.toNat = buf.take b.off
        rw [hmoved', hzero, Nat.add_zero]
      · refine ⟨b, hfut'.trans hfut, hlen, hsmall, hoff, ?_⟩
        show WriteallStage b _ (sys.enter sys.out (ioReturn sys.out a (.writeall b) _)).pc
        rw [show (sys.enter sys.out (ioReturn sys.out a (.writeall b) _)).pc = _ from hpc']
        exact hmoved' ▸ List.take_prefix _ _

/-- Where a future is dropped, it has kept to its contract. -/
theorem End.Stage.transfer_ok {e : End} (h : e.Stage) (hpc : e.sys.pc = .idle ∨ e.sys.pc = .ready) :
    e.transfer.Ok := by
  obtain ⟨sys, job, moved, log⟩ := e
  have hvalue : ∀ {v w}, (End.transfer ⟨sys, job, moved, log⟩).value = some v →
      sys.net.holds sys.out w → v = w := by
    intro v w hv hw
    simp only [End.transfer, Option.ite_none_right_eq_some, Option.map_eq_some_iff] at hv
    obtain ⟨-, p, hp, rfl⟩ := hv
    exact hw p hp
  have hnone : ∀ {v}, sys.pc = .idle → (End.transfer ⟨sys, job, moved, log⟩).value ≠ some v := by
    intro v hidle hv
    simp [End.transfer, hidle] at hv
  cases job with
  | read len =>
      obtain ⟨b, -, -, hlen, hstage⟩ := h
      dsimp only at hpc hstage
      rcases hpc with hpc | hpc <;> rw [hpc] at hstage
      · refine ⟨?_, fun _ => hstage, fun v hv => absurd hv (hnone hpc)⟩
        show moved.length ≤ len
        rw [show moved = [] from hstage]
        exact Nat.zero_le _
      · obtain ⟨hle, -, w, hholds, hcount⟩ := hstage
        refine ⟨hlen ▸ hle, ?_, fun v hv => ?_⟩
        · simp [End.transfer, hpc]
        · rw [hvalue hv hholds]
          exact hcount
  | write buf =>
      obtain ⟨b, -, hw, -, hstage⟩ := h
      dsimp only at hpc hstage
      rcases hpc with hpc | hpc <;> rw [hpc] at hstage
      · refine ⟨?_, fun _ => hstage, fun v hv => absurd hv (hnone hpc)⟩
        show moved <+: buf
        rw [show moved = [] from hstage]
        exact List.nil_prefix
      · obtain ⟨-, hfront, w, hholds, hcount⟩ := hstage
        have hfront : moved <+: buf := hfront hw
        refine ⟨hfront, ?_, fun v hv => ?_⟩
        · simp [End.transfer, hpc]
        · rw [hvalue hv hholds, ← hcount]
          exact List.prefix_iff_eq_take.mp hfront
  | writeAll buf =>
      obtain ⟨b, -, hlen, -, hoff, hstage⟩ := h
      dsimp only at hpc hstage
      rcases hpc with hpc | hpc <;> rw [hpc] at hstage
      · refine ⟨?_, fun v hv => absurd hv (hnone hpc)⟩
        show moved <+: buf
        rw [show moved = buf.take b.off from hstage]
        exact List.take_prefix _ _
      · obtain ⟨hmoved, w, hholds, hw⟩ := hstage
        have hmoved : moved = buf.take b.off := hmoved
        have hlength : moved.length = b.off := by
          rw [hmoved, List.length_take]
          omega
        refine ⟨hmoved ▸ List.take_prefix _ _, fun v hv => ?_⟩
        rw [hvalue hv hholds]
        show (w = buf.length ↔ moved = buf) ∧ (0 ≤ w → moved = buf.take w.toNat)
        have hall : moved = buf ↔ b.off = buf.length := by
          constructor
          · intro heq
            rw [← hlength, heq]
          · intro heq
            rw [hmoved, heq, List.take_length]
        constructor
        · rw [hall]
          omega
        · intro hpos
          have : w.toNat = b.off := by omega
          rw [this, hmoved]

theorem End.value_eq_none {e : End} (h : e.sys.pc ≠ .ready) : e.transfer.value = none := if_neg h

/-- Where the driver is changed, the future is not. -/
theorem End.stage_driver {e : End} (h : e.Stage) (d : IoDriver) :
    ({ e with sys := { e.sys with net := { e.sys.net with driver := d } } } : End).Stage := by
  obtain ⟨sys, job, moved, log⟩ := e
  cases job with
  | read len =>
      obtain ⟨b, hfut, hw, hlen, hstage⟩ := h
      refine ⟨b, hfut, hw, hlen, ?_⟩
      dsimp only at hstage ⊢
      cases hpc : sys.pc <;> rw [hpc] at hstage <;> exact hstage
  | write buf =>
      obtain ⟨b, hfut, hw, hlen, hstage⟩ := h
      refine ⟨b, hfut, hw, hlen, ?_⟩
      dsimp only at hstage ⊢
      cases hpc : sys.pc <;> rw [hpc] at hstage <;> exact hstage
  | writeAll buf =>
      obtain ⟨b, hfut, hlen, hsmall, hoff, hstage⟩ := h
      refine ⟨b, hfut, hlen, hsmall, hoff, ?_⟩
      dsimp only at hstage ⊢
      cases hpc : sys.pc <;> rw [hpc] at hstage <;> exact hstage

/-- The future is dropped. -/
theorem End.stage_drop {e : End} (h : e.Stage) :
    ({ e with sys := e.sys.leave, moved := [], log := e.log ++ [e.transfer] } : End).Stage := by
  have hleave : e.sys.leave.fut = e.sys.fut ∧
      (e.sys.leave.pc = .dropped ∨ e.sys.leave.pc = .crashed) := by
    unfold NetSys.leave
    split <;> simp
  obtain ⟨hfut', hpc⟩ := hleave
  unfold End.Stage at h ⊢
  dsimp only
  rw [hfut']
  cases hjob : e.job with
  | read len =>
      rw [hjob] at h
      obtain ⟨b, hfut, hw, hlen, -⟩ := h
      refine ⟨b, hfut, hw, hlen, ?_⟩
      rcases hpc with hpc | hpc <;> rw [hpc] <;> trivial
  | write buf =>
      rw [hjob] at h
      obtain ⟨b, hfut, hw, hlen, -⟩ := h
      refine ⟨b, hfut, hw, hlen, ?_⟩
      rcases hpc with hpc | hpc <;> rw [hpc] <;> trivial
  | writeAll buf =>
      rw [hjob] at h
      obtain ⟨b, hfut, hlen, hsmall, hoff, -⟩ := h
      refine ⟨b, hfut, hlen, hsmall, hoff, ?_⟩
      rcases hpc with hpc | hpc <;> rw [hpc]
      · rfl
      · exact List.nil_prefix

/-- **One act.** Nothing is moved, and a future that is dropped has kept to its contract. -/
theorem End.act_spec {e e' : End} {a : NetAct} (h : e.Stage) (hs : e.act a = some e') :
    e'.Stage ∧ e'.job = e.job ∧ e'.total = e.total ∧ (e.sys.pc = .dropped → e'.sys.pc = .dropped) ∧
      (e'.log = e.log ∨ e'.log = e.log ++ [e.transfer] ∧ e.transfer.Ok) ∧
      ∀ len, e.job = .read len → ∀ v, e'.transfer.value = some v → e.transfer.value = some v := by
  cases a with
  | answer a => cases hs
  | stream p fd => cases hs
  | poll out =>
      obtain ⟨sys, hsys, rfl⟩ := Option.map_eq_some_iff.mp hs
      obtain ⟨hpc, hsys⟩ := Option.ite_none_right_eq_some.mp hsys
      cases hsys
      obtain ⟨hstage, hnot⟩ := End.stage_poll h hpc out
      refine ⟨hstage, rfl, rfl, ?_, .inl rfl, ?_⟩
      · rw [hpc]
        exact nofun
      · intro len hjob v hv
        rw [End.value_eq_none (hnot len hjob)] at hv
        cases hv
  | drop =>
      obtain ⟨sys, hsys, rfl⟩ := Option.map_eq_some_iff.mp hs
      obtain ⟨hpc, hsys⟩ := Option.ite_none_right_eq_some.mp hsys
      cases hsys
      refine ⟨End.stage_drop h, rfl, ?_, ?_, .inr ⟨rfl, h.transfer_ok hpc⟩, ?_⟩
      · simp [End.total, End.transfer]
      · intro hdropped
        rw [hdropped] at hpc
        rcases hpc with hpc | hpc <;> cases hpc
      · intro len _ v hv
        have hnot : e.sys.leave.pc ≠ .ready := by
          unfold NetSys.leave
          split <;> simp
        rw [End.value_eq_none hnot] at hv
        cases hv
  | driver d =>
      obtain ⟨sys, hsys, rfl⟩ := Option.map_eq_some_iff.mp hs
      obtain ⟨-, hsys⟩ := Option.ite_none_right_eq_some.mp hsys
      cases hsys
      exact ⟨End.stage_driver h d, rfl, rfl, id, .inl rfl, fun _ _ _ hv => hv⟩

/-! ## Runs of a connection

Sent is received plus what is on its way; each action moves bytes from one to the next, or adds a
contract to the log.
-/

/-- The writing end is closed, and everything was read. -/
def Conn.Ended (c : Conn) : Prop := c.shut = true ∧ c.queue = []

/-- A `read` that reported the end of the stream came after all bytes. -/
def Conn.EndsAt (c : Conn) (pre : List Transfer) (t : Transfer) : Prop :=
  t.Eof → c.Ended ∧ (pre.map Transfer.moved).flatten = c.tx.total

structure Conn.Inv (c : Conn) : Prop where
  tx    : c.tx.Stage
  rx    : c.rx.Stage
  reads : ∃ len, c.rx.job = .read len
  sent  : ∀ t ∈ c.tx.log, t.Ok
  got   : ∀ t ∈ c.rx.log, t.Ok
  total : c.rx.total ++ c.queue = c.tx.total
  shut  : c.shut = true → c.tx.sys.pc = .dropped
  last  : c.rx.transfer.Eof → c.Ended
  ends  : Each c.EndsAt c.rx.log

theorem Conn.inv_start (dtx drx : IoDriver) (wfd rfd : Int) : (Conn.start dtx drx wfd rfd).Inv where
  tx    := End.stage_start dtx wfd
  rx    := End.stage_start drx rfd
  reads := ⟨0, rfl⟩
  sent  := nofun
  got   := nofun
  total := rfl
  shut  := nofun
  last  := by
    rintro ⟨len, -, -, hv⟩
    cases hv
  ends  := each_nil

theorem End.total_eq {e e' : End} (hlog : e'.log = e.log) (hmoved : e'.moved = e.moved) :
    e'.total = e.total := by
  rw [End.total, End.total, hlog, hmoved]

section Inv

variable {c : Conn}

/-- The writing end builds a future. -/
theorem Conn.Inv.build_tx (h : c.Inv) {job : IoJob} (hjob : job.buf.length < 2 ^ 63)
    (hopen : c.shut ≠ true) {tx : End} (hs : c.tx.build job = some tx) :
    ({ c with tx } : Conn).Inv := by
  obtain ⟨hstage, -, -, hlog, hmoved⟩ := End.build_spec h.tx hjob hs
  have htotal : tx.total = c.tx.total := End.total_eq hlog hmoved
  refine { h with tx := hstage, sent := hlog ▸ h.sent, total := htotal ▸ h.total,
                  shut := fun hs => absurd hs hopen, ends := ?_ }
  exact h.ends.mono fun _ _ hold he => ⟨(hold he).1, (hold he).2.trans htotal.symm⟩

/-- The reading end builds a future. -/
theorem Conn.Inv.build_rx (h : c.Inv) {len : Nat} {rx : End}
    (hs : c.rx.build (.read len) = some rx) : ({ c with rx } : Conn).Inv := by
  obtain ⟨hstage, hjob, hpc, hlog, hmoved⟩ := End.build_spec h.rx (by simp [IoJob.buf]) hs
  have htotal : rx.total = c.rx.total := End.total_eq hlog hmoved
  refine { h with rx := hstage, reads := ⟨len, hjob⟩, got := hlog ▸ h.got,
                  total := htotal ▸ h.total, last := ?_, ends := hlog ▸ h.ends }
  rintro ⟨n, -, -, hv⟩
  have hnot : rx.sys.pc ≠ .ready := by
    rw [hpc]
    exact nofun
  rw [End.value_eq_none hnot] at hv
  cases hv

/-- Something happens to the future of the writing end. -/
theorem Conn.Inv.act_tx (h : c.Inv) {a : NetAct} {tx : End} (hs : c.tx.act a = some tx) :
    ({ c with tx } : Conn).Inv := by
  obtain ⟨hstage, -, htotal, hdropped, hlog, -⟩ := End.act_spec h.tx hs
  refine { h with tx := hstage, sent := ?_, total := htotal ▸ h.total,
                  shut := fun hs => hdropped (h.shut hs), ends := ?_ }
  · rcases hlog with hlog | ⟨hlog, hok⟩
    · exact hlog ▸ h.sent
    · show ∀ t ∈ tx.log, t.Ok
      rw [hlog]
      exact List.forall_mem_append.mpr ⟨h.sent, List.forall_mem_singleton.mpr hok⟩
  · exact h.ends.mono fun _ _ hold he => ⟨(hold he).1, (hold he).2.trans htotal.symm⟩

/-- Something happens to the future of the reading end. -/
theorem Conn.Inv.act_rx (h : c.Inv) {a : NetAct} {rx : End} (hs : c.rx.act a = some rx) :
    ({ c with rx } : Conn).Inv := by
  obtain ⟨hstage, hjob, htotal, -, hlog, hvalue⟩ := End.act_spec h.rx hs
  obtain ⟨len, hlen⟩ := h.reads
  refine { h with rx := hstage, reads := ⟨len, hjob.trans hlen⟩, got := ?_,
                  total := htotal ▸ h.total, last := ?_, ends := ?_ }
  · rcases hlog with hlog | ⟨hlog, hok⟩
    · exact hlog ▸ h.got
    · show ∀ t ∈ rx.log, t.Ok
      rw [hlog]
      exact List.forall_mem_append.mpr ⟨h.got, List.forall_mem_singleton.mpr hok⟩
  · rintro ⟨n, hn, hpos, hv⟩
    exact h.last ⟨n, hjob.symm.trans hn, hpos, hvalue len hlen 0 hv⟩
  · rcases hlog with hlog | ⟨hlog, hok⟩
    · exact hlog ▸ h.ends
    · show Each _ rx.log
      rw [hlog, each_concat]
      refine ⟨h.ends, fun heof => ?_⟩
      -- the end of the stream: nothing is on its way, and this future has moved nothing
      have hended := h.last heof
      obtain ⟨n, hn, -, hv⟩ := heof
      have hmoved : c.rx.moved = [] := by
        unfold Transfer.Ok at hok
        rw [hn] at hok
        exact List.eq_nil_of_length_eq_zero (hok.2.2 0 hv)
      have hsum := h.total
      rw [End.total, hmoved, hended.2, List.append_nil, List.append_nil] at hsum
      exact ⟨hended, hsum⟩

/-- A `write` returns. -/
theorem Conn.Inv.written (h : c.Inv) {fd : Int} {off len : Nat}
    (hpc : c.tx.sys.pc = .calling (.write fd off len)) {a : Answer} (hle : a.ret ≤ len) {tx : End}
    (hs : c.tx.answer a ((c.tx.job.buf.drop off).take a.ret.toNat) = some tx) :
    ({ c with tx, queue := c.queue ++ (c.tx.job.buf.drop off).take a.ret.toNat } : Conn).Inv := by
  obtain ⟨sys, hsys, rfl⟩ := Option.map_eq_some_iff.mp hs
  simp only [NetSys.step, hpc, Option.some.injEq] at hsys
  subst hsys
  have hopen : c.shut ≠ true := fun hshut => by
    have := h.shut hshut
    rw [hpc] at this
    cases this
  have hnot : ¬ c.Ended := fun he => hopen he.1
  refine { h with tx := End.stage_written h.tx hpc hle, total := ?_,
                  shut := fun hs => absurd hs hopen, last := fun he => absurd (h.last he) hnot,
                  ends := ?_ }
  · rw [← List.append_assoc, h.total]
    simp [End.total]
  · exact h.ends.mono fun _ _ hold he => absurd (hold he).1 hnot

/-- A `read` returns. -/
theorem Conn.Inv.received (h : c.Inv) {fd : Int} {len : Nat}
    (hpc : c.rx.sys.pc = .calling (.read fd len)) {a : Answer} (hmay : c.mayRead len a.ret = true)
    {rx : End} (hs : c.rx.answer a (c.queue.take a.ret.toNat) = some rx) :
    ({ c with rx, queue := c.queue.drop a.ret.toNat } : Conn).Inv := by
  simp only [Conn.mayRead, Bool.and_eq_true, Bool.or_eq_true, decide_eq_true_eq,
    List.isEmpty_iff] at hmay
  obtain ⟨⟨hle, hqueue⟩, hzero⟩ := hmay
  obtain ⟨sys, hsys, rfl⟩ := Option.map_eq_some_iff.mp hs
  simp only [NetSys.step, hpc, Option.some.injEq] at hsys
  subst hsys
  have hbytes : (c.queue.take a.ret.toNat).length = a.ret.toNat := by
    rw [List.length_take]
    omega
  obtain ⟨hstage, hjob, hholds⟩ := End.stage_received h.rx hpc hbytes hle
  have hended : c.Ended → c.shut = true ∧ c.queue.drop a.ret.toNat = [] := fun he =>
    ⟨he.1, by rw [he.2, List.drop_nil]⟩
  refine { h with rx := hstage, total := ?_, last := ?_, ends := ?_ }
  · rw [← h.total]
    simp [End.total]
  · -- no bytes were read although some were asked for
    rintro ⟨n, hn, hpos, hv⟩
    simp only [End.transfer, Option.ite_none_right_eq_some, Option.map_eq_some_iff] at hv
    obtain ⟨hready, p, hp, hv⟩ := hv
    rw [enter_out] at hp
    have hret : a.ret = 0 := (hholds hready p hp).symm.trans hv
    cases hjob.symm.trans hn
    rcases hzero with (hzero | hzero) | hzero
    · exact absurd hret hzero
    · exact absurd hzero (Nat.ne_of_gt hpos)
    · exact hended hzero
  · exact h.ends.mono fun _ _ hold he => ⟨hended (hold he).1, (hold he).2⟩

/-- **Step lemma.** -/
theorem Conn.Inv.step (h : c.Inv) {a : ConnAct} {c' : Conn} (hs : c.step a = some c') : c'.Inv := by
  cases a with
  | write buf =>
      obtain ⟨hok, hs⟩ := Option.ite_none_left_eq_some.mp hs
      obtain ⟨tx, htx, rfl⟩ := Option.map_eq_some_iff.mp hs
      rw [not_or, Nat.not_le] at hok
      exact h.build_tx (show (IoJob.write buf).buf.length < _ from hok.2) hok.1 htx
  | writeAll buf =>
      obtain ⟨hok, hs⟩ := Option.ite_none_left_eq_some.mp hs
      obtain ⟨tx, htx, rfl⟩ := Option.map_eq_some_iff.mp hs
      rw [not_or, Nat.not_le] at hok
      exact h.build_tx (show (IoJob.writeAll buf).buf.length < _ from hok.2) hok.1 htx
  | read len =>
      obtain ⟨rx, hrx, rfl⟩ := Option.map_eq_some_iff.mp hs
      exact h.build_rx hrx
  | tx a =>
      obtain ⟨tx, htx, rfl⟩ := Option.map_eq_some_iff.mp hs
      exact h.act_tx htx
  | rx a =>
      obtain ⟨rx, hrx, rfl⟩ := Option.map_eq_some_iff.mp hs
      exact h.act_rx hrx
  | written a =>
      simp only [Conn.step] at hs
      split at hs
      next fd off len hpc =>
        obtain ⟨hle, hs⟩ := Option.ite_none_right_eq_some.mp hs
        obtain ⟨tx, htx, rfl⟩ := Option.map_eq_some_iff.mp hs
        exact h.written hpc hle htx
      · cases hs
  | received a =>
      simp only [Conn.step] at hs
      split at hs
      next fd len hpc =>
        obtain ⟨hmay, hs⟩ := Option.ite_none_right_eq_some.mp hs
        obtain ⟨rx, hrx, rfl⟩ := Option.map_eq_some_iff.mp hs
        exact h.received hpc hmay hrx
      · cases hs
  | close =>
      obtain ⟨hpc, hs⟩ := Option.ite_none_right_eq_some.mp hs
      cases hs
      exact { h with shut := fun _ => hpc, last := fun he => ⟨rfl, (h.last he).2⟩,
                     ends := h.ends.mono fun _ _ hold he => ⟨⟨rfl, (hold he).1.2⟩, (hold he).2⟩ }

end Inv

/-- **Bytes arrive once and in order.** In every run of a connection, what the reading end has got and
    what is on its way is what the writing end has sent. Every future that was dropped has kept to its
    contract: a `read` or `write` that was dropped before it was `Ready` has moved nothing. A `read`
    that reported the end of the stream came after all bytes, and none come later. So where every
    write was a `write_all` that returned its length, the reads give the buffers, one after the
    other. -/
theorem bytes_in_order {dtx drx : IoDriver} {wfd rfd : Int} {acts : List ConnAct} {c : Conn}
    (h : run Conn.step (.start dtx drx wfd rfd) acts = some c) :
    c.rx.total ++ c.queue = c.tx.total ∧ (∀ t ∈ c.tx.log ++ c.rx.log, t.Ok) ∧
      (∀ pre t post, c.rx.log = pre ++ t :: post → t.Eof →
        c.queue = [] ∧ (pre.map Transfer.moved).flatten = c.tx.total) ∧
      ((∀ t ∈ c.tx.log, ∃ buf, t.job = .writeAll buf ∧ t.value = some (buf.length : Int)) →
        (c.rx.log.map Transfer.moved).flatten ++ c.rx.moved ++ c.queue =
          (c.tx.log.map fun t => t.job.buf).flatten ++ c.tx.moved) := by
  have hinv : c.Inv := run_invariant (fun _ _ _ hc => hc.step) (Conn.inv_start dtx drx wfd rfd) h
  refine ⟨hinv.total, List.forall_mem_append.mpr ⟨hinv.sent, hinv.got⟩, ?_, ?_⟩
  · intro pre t post hlog heof
    obtain ⟨hended, htotal⟩ := hinv.ends pre t post hlog heof
    exact ⟨hended.2, htotal⟩
  · intro hall
    have hmoved : c.tx.log.map Transfer.moved = c.tx.log.map fun t => t.job.buf := by
      apply List.map_congr_left
      intro t ht
      obtain ⟨buf, hjob, hvalue⟩ := hall t ht
      have hok := hinv.sent t ht
      unfold Transfer.Ok at hok
      rw [hjob] at hok
      rw [hjob]
      exact (hok.2 _ hvalue).1.mp rfl
    have htotal := hinv.total
    rw [End.total, End.total, hmoved] at htotal
    exact htotal

def connStart : Conn :=
  .start ⟨[⟨3, 0, 0, false, false, 0⟩], [], 0⟩ ⟨[⟨4, 0, 0, false, false, 0⟩], [], 0⟩ 3 4

/-- Three bytes in two `write`s, and between two `read`s one that is dropped while it waits. -/
def cancelledRead : List ConnAct :=
  [.writeAll [1, 2, 3], .tx (.poll (some 0)), .written ⟨2, true, true⟩,
    .read 8, .rx (.poll (some 0)), .received ⟨2, true, true⟩, .rx .drop,
    .read 8, .rx (.poll (some 0)), .received ⟨-EAGAIN, true, true⟩, .rx .drop,
    .written ⟨1, true, true⟩, .tx .drop,
    .read 8, .rx (.poll (some 0)), .received ⟨1, true, true⟩, .rx .drop]

theorem bytes_in_order_cancelled : ∃ c, run Conn.step connStart cancelledRead = some c ∧
    c.rx.log.map Transfer.moved = [[1, 2], [], [3]] ∧ c.rx.total ++ c.queue = c.tx.total := by
  have hrun : (run Conn.step connStart cancelledRead).map (fun c => c.rx.log.map Transfer.moved) =
      some [[1, 2], [], [3]] := by decide +kernel
  obtain ⟨c, hc, hlog⟩ := Option.map_eq_some_iff.mp hrun
  exact ⟨c, hc, hlog, (bytes_in_order hc).1⟩

end CustLib.Exec
