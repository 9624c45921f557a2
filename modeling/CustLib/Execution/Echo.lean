import CustLib.Execution.Connection

/-!
# The echo of the integration test

Two state machines of `cexec_sm` on one executor: a server that accepts a connection, reads once and
sends back what it has read, and a client that connects, sends "ping", reads once and compares. They
run over the two directions of one connection, each a `Conn`, and everything else is left open: in which
order they are polled, when the kernel answers and with how many bytes, and what happens to the driver.
Only the boxes of the futures are always allocated. What a machine does between two futures is the loop
of `sm_poll` (`enter`); that it is what `smPoll` does with the tables of the test is shown in
`CustLib.Execution.EchoMachine`.

Each machine reads once, so a short read ends the exchange early. That, or a call that fails, is all
that can go wrong (`echo_safe`): the bytes that come back are a front part of those that were sent, the
comparison fails only by the count, and a machine waits in vain only if nothing was ever sent to it.
-/

namespace CustLib.Echo

open CustLib.Exec
open CustLib.Machine (run run_invariant)

/-! ## The state functions

`sv_accept` to `sv_echo` and `cl_connect` to `cl_verify`, each on the context, with the future that it
returns and the number of the next state. Both machines have one context type; `ok` is used by the
client only.
-/

def ping : List UInt8 := [112, 105, 110, 103]

/-- `struct echo_ctx` and `struct echo_client_ctx`, less what is the same in every state. Of the stream
    there is `cexec_stream_is_open`, and `ok` is what the client's points to. -/
structure Ctx where
  opened     : Bool
  haveStream : Bool
  buf        : List UInt8
  n          : Int
  ok         : Int
  deriving DecidableEq, Repr

/-- The futures that the states await: `accept` or `connect`, with `&c->stream` for its output, or one
    of the stream. A `read` has `&c->n` for its output, a `write_all` the null pointer. -/
inductive Awaited where
  | stream
  | io (job : IoJob)
  deriving DecidableEq, Repr

/-- `struct cexec_step`; `none` is the null future, and `cexec_sm_done()`. -/
structure SmStep (S : Type) where
  fut  : Option Awaited
  next : Option S

inductive Sv where
  | accept
  | afterAccept
  | read
  | afterRead
  | echo
  deriving DecidableEq, Repr

def svAccept (c : Ctx) : Ctx × SmStep Sv := (c, ⟨some .stream, some .afterAccept⟩)

def svAfterAccept (c : Ctx) : Ctx × SmStep Sv :=
  let c := { c with haveStream := c.opened }
  (c, ⟨none, if c.haveStream then some .read else none⟩)

def svRead (c : Ctx) : Ctx × SmStep Sv := (c, ⟨some (.io (.read 64)), some .afterRead⟩)

def svAfterRead (c : Ctx) : Ctx × SmStep Sv := (c, ⟨none, if c.n > 0 then some .echo else none⟩)

def svEcho (c : Ctx) : Ctx × SmStep Sv :=
  (c, ⟨some (.io (.writeAll (c.buf.take c.n.toNat))), none⟩)

def serverStates : Sv → Ctx → Ctx × SmStep Sv
  | .accept      => svAccept
  | .afterAccept => svAfterAccept
  | .read        => svRead
  | .afterRead   => svAfterRead
  | .echo        => svEcho

inductive Cl where
  | connect
  | afterConnect
  | write
  | read
  | verify
  deriving DecidableEq, Repr

def clConnect (c : Ctx) : Ctx × SmStep Cl := (c, ⟨some .stream, some .afterConnect⟩)

def clAfterConnect (c : Ctx) : Ctx × SmStep Cl :=
  let c := { c with haveStream := c.opened }
  if !c.haveStream then ({ c with ok := 0 }, ⟨none, none⟩) else (c, ⟨none, some .write⟩)

def clWrite (c : Ctx) : Ctx × SmStep Cl := (c, ⟨some (.io (.writeAll ping)), some .read⟩)

def clRead (c : Ctx) : Ctx × SmStep Cl := (c, ⟨some (.io (.read 64)), some .verify⟩)

def clVerify (c : Ctx) : Ctx × SmStep Cl :=
  ({ c with ok := if c.n = 4 ∧ c.buf.take 4 = ping then 1 else 0 }, ⟨none, none⟩)

def clientStates : Cl → Ctx → Ctx × SmStep Cl
  | .connect      => clConnect
  | .afterConnect => clAfterConnect
  | .write        => clWrite
  | .read         => clRead
  | .verify       => clVerify

/-! ## The machines

A machine is in a state function or waits for a future. Between two awaited futures it runs through the
states without I/O (`enter`); a future that is `Ready` is dropped and the machine goes on (`finish`,
`serverGo`, `clientGo`).
-/

/-- `struct sm_box`: the child in flight, and the state to run after it; without a child the machine is
    `Ready`. -/
structure Party (S : Type) where
  ctx  : Ctx
  cur  : Option Awaited
  next : Option S

/-- The loop of `sm_poll` from the head, up to the first future that is not null. -/
def enter {S : Type} (states : S → Ctx → Ctx × SmStep S) : Nat → Ctx → Option S → Option (Party S)
  | _, ctx, none            => some ⟨ctx, none, none⟩
  | 0, _, some _            => none
  | fuel + 1, ctx, some st  =>
    let (ctx, step) := states st ctx
    match step.fut with
    | none   => enter states fuel ctx step.next
    | some a => some ⟨ctx, some a, step.next⟩

/-- The future of a state is built, on the connection that it reads from or writes to. -/
def build (inbound outbound : Conn) : Option Awaited → Option (Conn × Conn)
  | some (.io (.read len))     => (inbound.step (.read len)).map (·, outbound)
  | some (.io (.write buf))    => (outbound.step (.write buf)).map (inbound, ·)
  | some (.io (.writeAll buf)) => (outbound.step (.writeAll buf)).map (inbound, ·)
  | some .stream | none        => some (inbound, outbound)

/-- The child is `Ready`, has stored its output, and is dropped. -/
def finish (inbound outbound : Conn) (ctx : Ctx) : IoJob → Option (Conn × Conn × Ctx)
  | .read _ =>
    if inbound.rx.sys.pc = .ready then
      let bytes := inbound.rx.moved
      let ctx := { ctx with buf := bytes ++ ctx.buf.drop bytes.length,
                            n := inbound.rx.transfer.value.getD ctx.n }
      (inbound.step (.rx .drop)).map (·, outbound, ctx)
    else none
  | .write _ | .writeAll _ =>
    if outbound.tx.sys.pc = .ready then (outbound.step (.tx .drop)).map (inbound, ·, ctx) else none

/-- The server, the client, and the two directions between them: `up` to the server, `down` to the
    client. -/
structure Sys where
  server : Party Sv
  client : Party Cl
  up     : Conn
  down   : Conn

/-- `accept` and `connect` give a stream, which may be closed; there is traffic on a connection; the
    future that a machine awaits is `Ready`, and the machine goes on. -/
inductive Act where
  | accepted (opened : Bool)
  | connected (opened : Bool)
  | up (a : ConnAct)
  | down (a : ConnAct)
  | serverReady
  | clientReady

/-- What happens on a connection between the building of a future and its drop. The polls come from
    the machines, which give the outputs of their states. -/
def traffic : ConnAct → Bool
  | .tx (.poll none) | .rx (.poll (some 0)) | .tx (.driver _) | .rx (.driver _)
  | .written _ | .received _ => true
  | _                        => false

def Sys.serverGo (s : Sys) (ctx : Ctx) (up down : Conn) : Option Sys := do
  let server ← enter serverStates 5 ctx s.server.next
  let (up, down) ← build up down server.cur
  return { s with server, up, down }

def Sys.clientGo (s : Sys) (ctx : Ctx) (up down : Conn) : Option Sys := do
  let client ← enter clientStates 5 ctx s.client.next
  let (down, up) ← build down up client.cur
  return { s with client, up, down }

def Sys.step (s : Sys) : Act → Option Sys
  | .accepted opened =>
    if s.server.cur = some .stream then s.serverGo { s.server.ctx with opened } s.up s.down else none
  | .connected opened =>
    if s.client.cur = some .stream then s.clientGo { s.client.ctx with opened } s.up s.down else none
  | .up a   => if traffic a then (s.up.step a).map fun up => { s with up } else none
  | .down a => if traffic a then (s.down.step a).map fun down => { s with down } else none
  | .serverReady =>
    match s.server.cur with
    | some (.io job) => do
      let (up, down, ctx) ← finish s.up s.down s.server.ctx job
      s.serverGo ctx up down
    | _ => none
  | .clientReady =>
    match s.client.cur with
    | some (.io job) => do
      let (down, up, ctx) ← finish s.down s.up s.client.ctx job
      s.clientGo ctx up down
    | _ => none

/-- Before the first poll of the two machines has returned. -/
def Sys.start (dsv dcl : IoDriver) (sfd cfd : Int) : Sys where
  server := ⟨⟨false, false, List.replicate 64 0, 0, 0⟩, some .stream, some .afterAccept⟩
  client := ⟨⟨false, false, List.replicate 64 0, 0, 0⟩, some .stream, some .afterConnect⟩
  up     := .start dcl dsv cfd sfd
  down   := .start dsv dcl sfd cfd

/-! ## What happens to an end

Traffic leaves an end the future that it has. That the read was polled with a place for its count is
what makes `n` meaningful afterwards.
-/

/-- Between its building and its drop a future stays the one that was built. -/
structure Goes (e e' : End) : Prop where
  job   : e'.job = e.job
  log   : e'.log = e.log
  after : e.sys.pc = .dropped → e'.sys.pc = .dropped ∧ e'.moved = e.moved
  alive : e.sys.pc ≠ .dropped → e'.sys.pc ≠ .dropped

/-- The last poll had a place for the output. -/
def Polled (e : End) : Prop := e.sys.pc = .idle ∨ e.sys.out = some 0

theorem Goes.refl (e : End) : Goes e e := ⟨rfl, rfl, fun h => ⟨h, rfl⟩, id⟩

theorem enter_alive (s : NetSys) (out : Option Nat) (x : Eff Net (Next × IoFut)) :
    (s.enter out x).pc ≠ .dropped := by
  unfold NetSys.enter
  split
  next next _ _ _ => cases next <;> exact nofun
  next => exact nofun

/-- A poll leaves the future that there is. -/
theorem poll_goes {e e' : End} {out : Option Nat} (hs : e.act (.poll out) = some e') :
    Goes e e' ∧ e'.sys.out = out := by
  obtain ⟨sys, hsys, rfl⟩ := Option.map_eq_some_iff.mp hs
  obtain ⟨hpc, hsys⟩ := Option.ite_none_right_eq_some.mp hsys
  cases hsys
  refine ⟨⟨rfl, rfl, fun hover => ?_, fun _ => enter_alive _ _ _⟩, enter_out _ _ _⟩
  rw [hpc] at hover
  cases hover

/-- So does a change of the driver. -/
theorem driver_goes {e e' : End} {d : IoDriver} (hs : e.act (.driver d) = some e') :
    Goes e e' ∧ e'.sys.pc = e.sys.pc ∧ e'.sys.out = e.sys.out := by
  obtain ⟨sys, hsys, rfl⟩ := Option.map_eq_some_iff.mp hs
  obtain ⟨-, hsys⟩ := Option.ite_none_right_eq_some.mp hsys
  cases hsys
  exact ⟨⟨rfl, rfl, fun hover => ⟨hover, rfl⟩, id⟩, rfl, rfl⟩

/-- And an answer of the kernel. -/
theorem answer_goes {e e' : End} {a : Answer} {bytes : List UInt8} {call : Call}
    (hpc : e.sys.pc = .calling call) (hs : e.answer a bytes = some e') :
    Goes e e' ∧ e'.sys.out = e.sys.out := by
  obtain ⟨sys, hsys, rfl⟩ := Option.map_eq_some_iff.mp hs
  simp only [NetSys.step, hpc, Option.some.injEq] at hsys
  subst hsys
  refine ⟨⟨rfl, rfl, fun hover => ?_, fun _ => enter_alive _ _ _⟩, enter_out _ _ _⟩
  rw [hpc] at hover
  cases hover

/-- **Traffic** leaves both ends their futures. -/
theorem traffic_goes {c c' : Conn} {a : ConnAct} (ha : traffic a = true) (hs : c.step a = some c') :
    Goes c.tx c'.tx ∧ Goes c.rx c'.rx ∧ (Polled c.rx → Polled c'.rx) := by
  cases a with
  | write buf => cases ha
  | writeAll buf => cases ha
  | read len => cases ha
  | close => cases ha
  | tx a =>
      obtain ⟨tx, htx, rfl⟩ := Option.map_eq_some_iff.mp hs
      refine ⟨?_, .refl _, id⟩
      cases a with
      | poll out => exact (poll_goes htx).1
      | driver d => exact (driver_goes htx).1
      | answer a => cases ha
      | drop => cases ha
      | stream p fd => cases ha
  | rx a =>
      obtain ⟨rx, hrx, rfl⟩ := Option.map_eq_some_iff.mp hs
      refine ⟨.refl _, ?_⟩
      cases a with
      | poll out =>
          obtain ⟨hgoes, hout⟩ := poll_goes hrx
          obtain rfl : out = some 0 := by
            unfold traffic at ha
            split at ha <;> simp_all
          exact ⟨hgoes, fun _ => .inr hout⟩
      | driver d =>
          obtain ⟨hgoes, hpc, hout⟩ := driver_goes hrx
          exact ⟨hgoes, .imp hpc.trans hout.trans⟩
      | answer a => cases ha
      | drop => cases ha
      | stream p fd => cases ha
  | written a =>
      simp only [Conn.step] at hs
      split at hs
      next fd off len hpc =>
        obtain ⟨-, hs⟩ := Option.ite_none_right_eq_some.mp hs
        obtain ⟨tx, htx, rfl⟩ := Option.map_eq_some_iff.mp hs
        exact ⟨(answer_goes hpc htx).1, .refl _, id⟩
      next => cases hs
  | received a =>
      simp only [Conn.step] at hs
      split at hs
      next fd len hpc =>
        obtain ⟨-, hs⟩ := Option.ite_none_right_eq_some.mp hs
        obtain ⟨rx, hrx, rfl⟩ := Option.map_eq_some_iff.mp hs
        obtain ⟨hgoes, hout⟩ := answer_goes hpc hrx
        refine ⟨.refl _, hgoes, fun hpolled => .inr (hout.trans ?_)⟩
        exact hpolled.resolve_left fun hidle => by rw [hpc] at hidle; cases hidle
      next => cases hs

/-! ## Building and dropping

Each machine builds at most one read and one `write_all`, so an end of the connection is unused, busy,
or idle.
-/

structure Unused (e : End) : Prop where
  log   : e.log = []
  moved : e.moved = []
  after : e.sys.pc = .dropped

structure Idle (e : End) : Prop where
  moved : e.moved = []
  after : e.sys.pc = .dropped

theorem build_read {c c' : Conn} {len : Nat} (hs : c.step (.read len) = some c') :
    c'.tx = c.tx ∧ c'.rx.job = .read len ∧ c'.rx.sys.pc = .idle ∧ c'.rx.log = c.rx.log := by
  obtain ⟨rx, hrx, rfl⟩ := Option.map_eq_some_iff.mp hs
  obtain ⟨-, hrx⟩ := Option.ite_none_right_eq_some.mp hrx
  cases hrx
  exact ⟨rfl, rfl, rfl, rfl⟩

theorem build_writeAll {c c' : Conn} {buf : List UInt8} (hs : c.step (.writeAll buf) = some c') :
    c'.rx = c.rx ∧ c'.tx.job = .writeAll buf ∧ c'.tx.sys.pc = .idle ∧ c'.tx.log = c.tx.log := by
  obtain ⟨-, hs⟩ := Option.ite_none_left_eq_some.mp hs
  obtain ⟨tx, htx, rfl⟩ := Option.map_eq_some_iff.mp hs
  obtain ⟨-, htx⟩ := Option.ite_none_right_eq_some.mp htx
  cases htx
  exact ⟨rfl, rfl, rfl, rfl⟩

/-- The box of a future of a stream is freed, and its readiness future with it. -/
theorem dropWait_some (wait : Wait) (net : Net) : ∃ net', dropWait wait net = (some (), net') := by
  obtain ⟨_ | _, _ | b⟩ := wait <;> exact ⟨_, rfl⟩

theorem leave_dropped {e : End} (h : e.Stage) : e.sys.leave.pc = .dropped := by
  have hdrop : ∃ net', ioDrop e.sys.fut e.sys.net = (some (), net') := by
    unfold End.Stage at h
    split at h
    · obtain ⟨b, hfut, -⟩ := h
      rw [hfut]
      exact dropWait_some b.wait _
    · obtain ⟨b, hfut, -⟩ := h
      rw [hfut]
      exact dropWait_some b.wait _
    · obtain ⟨b, hfut, -⟩ := h
      rw [hfut]
      exact dropWait_some b.wait _
  obtain ⟨net', hnet⟩ := hdrop
  rw [NetSys.leave, hnet]

/-- A drop ends the future, which has kept its contract. -/
theorem drop_idle {e e' : End} (h : e.Stage) (hs : e.act .drop = some e') :
    Idle e' ∧ e'.total = e.total ∧ e.transfer.Ok := by
  obtain ⟨sys, hsys, rfl⟩ := Option.map_eq_some_iff.mp hs
  obtain ⟨hpc, hsys⟩ := Option.ite_none_right_eq_some.mp hsys
  cases hsys
  refine ⟨⟨rfl, leave_dropped h⟩, ?_, h.transfer_ok hpc⟩
  simp [End.total, End.transfer]

/-- The total of the first future of an end. -/
theorem total_first {e : End} (hlog : e.log = []) : e.total = e.moved := by
  rw [End.total, hlog]
  rfl

structure Got (ctx : Ctx) (e : End) : Prop where
  count : ctx.n.toNat = e.total.length
  bytes : ctx.buf.take ctx.n.toNat = e.total
  room  : ctx.buf.length = 64

/-- A machine whose `read` is `Ready` knows what was read. -/
theorem finish_read {inbound outbound inb outb : Conn} {ctx ctx' : Ctx} (h : inbound.Inv)
    (hjob : inbound.rx.job = .read 64) (hlog : inbound.rx.log = []) (hpolled : Polled inbound.rx)
    (hroom : ctx.buf.length = 64)
    (hs : finish inbound outbound ctx (.read 64) = some (inb, outb, ctx')) :
    inb.Inv ∧ inb.tx = inbound.tx ∧ outb = outbound ∧ Idle inb.rx ∧ Got ctx' inb.rx ∧
      ctx'.ok = ctx.ok := by
  obtain ⟨hready, hs⟩ := Option.ite_none_right_eq_some.mp hs
  obtain ⟨c, hc, heq⟩ := Option.map_eq_some_iff.mp hs
  cases heq
  have hinv := h.step hc
  obtain ⟨rx, hrx, rfl⟩ := Option.map_eq_some_iff.mp hc
  obtain ⟨hidle, htotal, hok⟩ := drop_idle h.rx hrx
  have hmoved := total_first hlog
  -- the last poll had a place for the output, so there is a value
  have hvalue : inbound.rx.transfer.value = some (inbound.rx.sys.net.results 0) := by
    have hout : inbound.rx.sys.out = some 0 := hpolled.resolve_left (by rw [hready]; exact nofun)
    simp [End.transfer, hready, hout]
  unfold Transfer.Ok at hok
  rw [show inbound.rx.transfer.job = .read 64 from hjob] at hok
  obtain ⟨hle, -, hcount⟩ := hok
  have hlen : (inbound.rx.sys.net.results 0).toNat = inbound.rx.moved.length :=
    (hcount _ hvalue).symm
  refine ⟨hinv, rfl, rfl, hidle, ⟨?_, ?_, ?_⟩, rfl⟩
  · rw [htotal, hmoved, hvalue]
    exact hlen
  · rw [htotal, hmoved, hvalue]
    exact hlen ▸ List.take_left
  · have hle : inbound.rx.moved.length ≤ 64 := hle
    simp only [List.length_append, List.length_drop, hroom]
    omega

theorem finish_writeAll {inbound outbound inb outb : Conn} {ctx ctx' : Ctx} {buf : List UInt8}
    (h : outbound.Inv)
    (hs : finish inbound outbound ctx (.writeAll buf) = some (inb, outb, ctx')) :
    outb.Inv ∧ outb.rx = outbound.rx ∧ inb = inbound ∧ ctx' = ctx ∧ Idle outb.tx ∧
      outb.tx.total = outbound.tx.total := by
  obtain ⟨-, hs⟩ := Option.ite_none_right_eq_some.mp hs
  obtain ⟨c, hc, heq⟩ := Option.map_eq_some_iff.mp hs
  cases heq
  have hinv := h.step hc
  obtain ⟨tx, htx, rfl⟩ := Option.map_eq_some_iff.mp hc
  obtain ⟨hidle, htotal, -⟩ := drop_idle h.tx htx
  exact ⟨hinv, rfl, rfl, rfl, hidle, htotal⟩

/-! ## The phases

The states of both machines from outside, with what each of them knows of its two ends. The phases
follow the tables.
-/

/-- The server, on what it receives and what it sends. -/
inductive Serving : Party Sv → End → End → Prop where
  | accepting {ctx : Ctx} {rx tx : End} (hn : ctx.n = 0) (hrx : Unused rx) (htx : Unused tx) :
      Serving ⟨ctx, some .stream, some .afterAccept⟩ rx tx
  | reading {ctx : Ctx} {rx tx : End} (hjob : rx.job = .read 64) (hlog : rx.log = [])
      (halive : rx.sys.pc ≠ .dropped) (hpolled : Polled rx) (htx : Unused tx) :
      Serving ⟨ctx, some (.io (.read 64)), some .afterRead⟩ rx tx
  | echoing {ctx : Ctx} {buf : List UInt8} {rx tx : End} (hrx : Idle rx) (hbuf : rx.total = buf)
      (hn : ctx.n.toNat = buf.length) (hjob : tx.job = .writeAll buf) (hlog : tx.log = [])
      (halive : tx.sys.pc ≠ .dropped) : Serving ⟨ctx, some (.io (.writeAll buf)), none⟩ rx tx
  | finished {ctx : Ctx} {rx tx : End} (hrx : Idle rx) (htx : Idle tx)
      (hn : ctx.n.toNat = rx.total.length) (hechoed : tx.total <+: rx.total) :
      Serving ⟨ctx, none, none⟩ rx tx

/-- The client, on what it sends and what it receives. -/
inductive Asking : Party Cl → End → End → Prop where
  | connecting {ctx : Ctx} {tx rx : End} (hok : ctx.ok = 0) (hn : ctx.n = 0) (htx : Unused tx)
      (hrx : Unused rx) : Asking ⟨ctx, some .stream, some .afterConnect⟩ tx rx
  | writing {ctx : Ctx} {tx rx : End} (hok : ctx.ok = 0) (hjob : tx.job = .writeAll ping)
      (hlog : tx.log = []) (halive : tx.sys.pc ≠ .dropped) (hrx : Unused rx) :
      Asking ⟨ctx, some (.io (.writeAll ping)), some .read⟩ tx rx
  | reading {ctx : Ctx} {tx rx : End} (hok : ctx.ok = 0) (htx : Idle tx) (hsent : tx.total <+: ping)
      (hjob : rx.job = .read 64) (hlog : rx.log = []) (halive : rx.sys.pc ≠ .dropped)
      (hpolled : Polled rx) : Asking ⟨ctx, some (.io (.read 64)), some .verify⟩ tx rx
  | finished {ctx : Ctx} {tx rx : End} (htx : Idle tx) (hrx : Idle rx) (hsent : tx.total <+: ping)
      (hn : ctx.n.toNat = rx.total.length) (hok : ctx.ok = if rx.total = ping then 1 else 0) :
      Asking ⟨ctx, none, none⟩ tx rx

theorem Unused.idle {e : End} (h : Unused e) : Idle e := ⟨h.moved, h.after⟩

theorem Unused.total {e : End} (h : Unused e) : e.total = [] := (total_first h.log).trans h.moved

theorem Unused.goes {e e' : End} (h : Unused e) (hgoes : Goes e e') : Unused e' where
  log   := hgoes.log.trans h.log
  moved := (hgoes.after h.after).2.trans h.moved
  after := (hgoes.after h.after).1

theorem Idle.goes {e e' : End} (h : Idle e) (hgoes : Goes e e') : Idle e' ∧ e'.total = e.total := by
  obtain ⟨hover, hmoved⟩ := hgoes.after h.after
  exact ⟨⟨hmoved.trans h.moved, hover⟩, End.total_eq hgoes.log hmoved⟩

/-- The phase does not depend on what happens between two steps of the machine. -/
theorem Serving.goes {p : Party Sv} {rx rx' tx tx' : End} (h : Serving p rx tx) (hrx : Goes rx rx')
    (hpolled : Polled rx → Polled rx') (htx : Goes tx tx') : Serving p rx' tx' := by
  cases h with
  | accepting hn hrx₀ htx₀ => exact .accepting hn (hrx₀.goes hrx) (htx₀.goes htx)
  | reading hjob hlog halive hpolled₀ htx₀ =>
      exact .reading (hrx.job.trans hjob) (hrx.log.trans hlog) (hrx.alive halive) (hpolled hpolled₀)
        (htx₀.goes htx)
  | echoing hrx₀ hbuf hn hjob hlog halive =>
      obtain ⟨hidle, htotal⟩ := hrx₀.goes hrx
      exact .echoing hidle (htotal.trans hbuf) hn (htx.job.trans hjob) (htx.log.trans hlog)
        (htx.alive halive)
  | finished hrx₀ htx₀ hn hechoed =>
      obtain ⟨hidle, htotal⟩ := hrx₀.goes hrx
      obtain ⟨hidle', htotal'⟩ := htx₀.goes htx
      exact .finished hidle hidle' (htotal ▸ hn) (by rw [htotal, htotal']; exact hechoed)

theorem Asking.goes {p : Party Cl} {tx tx' rx rx' : End} (h : Asking p tx rx) (htx : Goes tx tx')
    (hrx : Goes rx rx') (hpolled : Polled rx → Polled rx') : Asking p tx' rx' := by
  cases h with
  | connecting hok hn htx₀ hrx₀ => exact .connecting hok hn (htx₀.goes htx) (hrx₀.goes hrx)
  | writing hok hjob hlog halive hrx₀ =>
      exact .writing hok (htx.job.trans hjob) (htx.log.trans hlog) (htx.alive halive)
        (hrx₀.goes hrx)
  | reading hok htx₀ hsent hjob hlog halive hpolled₀ =>
      obtain ⟨hidle, htotal⟩ := htx₀.goes htx
      exact .reading hok hidle (htotal ▸ hsent) (hrx.job.trans hjob) (hrx.log.trans hlog)
        (hrx.alive halive) (hpolled hpolled₀)
  | finished htx₀ hrx₀ hsent hn hok =>
      obtain ⟨hidle, htotal⟩ := htx₀.goes htx
      obtain ⟨hidle', htotal'⟩ := hrx₀.goes hrx
      exact .finished hidle hidle' (htotal ▸ hsent) (htotal' ▸ hn) (htotal' ▸ hok)

/-! ## The steps of the machines

The invariant of the exchange: both connections are sound, and both machines are in one of their phases.
-/

structure Sys.Inv (s : Sys) : Prop where
  up         : s.up.Inv
  down       : s.down.Inv
  server     : Serving s.server s.up.rx s.down.tx
  client     : Asking s.client s.up.tx s.down.rx
  serverRoom : s.server.ctx.buf.length = 64
  clientRoom : s.client.ctx.buf.length = 64

theorem Sys.inv_start (dsv dcl : IoDriver) (sfd cfd : Int) : (Sys.start dsv dcl sfd cfd).Inv where
  up         := Conn.inv_start dcl dsv cfd sfd
  down       := Conn.inv_start dsv dcl sfd cfd
  server     := .accepting rfl ⟨rfl, rfl, rfl⟩ ⟨rfl, rfl, rfl⟩
  client     := .connecting rfl rfl ⟨rfl, rfl, rfl⟩ ⟨rfl, rfl, rfl⟩
  serverRoom := List.length_replicate
  clientRoom := List.length_replicate

theorem enter_afterAccept (ctx : Ctx) : enter serverStates 5 ctx (some .afterAccept) =
    some (if ctx.opened then ⟨{ ctx with haveStream := true }, some (.io (.read 64)), some .afterRead⟩
      else ⟨{ ctx with haveStream := false }, none, none⟩) := by
  obtain ⟨_ | _, _, _, _, _⟩ := ctx <;> rfl

theorem enter_afterRead (ctx : Ctx) : enter serverStates 5 ctx (some .afterRead) =
    some (if 0 < ctx.n then ⟨ctx, some (.io (.writeAll (ctx.buf.take ctx.n.toNat))), none⟩
      else ⟨ctx, none, none⟩) := by
  by_cases hn : 0 < ctx.n <;> simp [enter, serverStates, svAfterRead, svEcho, hn]

theorem enter_afterConnect (ctx : Ctx) : enter clientStates 5 ctx (some .afterConnect) =
    some (if ctx.opened then
        ⟨{ ctx with haveStream := true }, some (.io (.writeAll ping)), some .read⟩
      else ⟨{ ctx with haveStream := false, ok := 0 }, none, none⟩) := by
  obtain ⟨_ | _, _, _, _, _⟩ := ctx <;> rfl

theorem enter_verify (ctx : Ctx) : enter clientStates 5 ctx (some .verify) =
    some ⟨{ ctx with ok := if ctx.n = 4 ∧ ctx.buf.take 4 = ping then 1 else 0 }, none, none⟩ := rfl

/-- The comparison is right about what was read. -/
theorem verify_iff {ctx : Ctx} {e : End} (h : Got ctx e) :
    (ctx.n = 4 ∧ ctx.buf.take 4 = ping) ↔ e.total = ping := by
  constructor
  · rintro ⟨hn, hbuf⟩
    have hbytes := h.bytes
    rw [hn] at hbytes
    exact hbytes.symm.trans hbuf
  · intro htotal
    have hcount := h.count
    have hbytes := h.bytes
    rw [htotal] at hcount hbytes
    have hfour : ctx.n.toNat = 4 := hcount
    rw [hfour] at hbytes
    exact ⟨by omega, hbytes⟩

theorem serverGo_cases {s s' : Sys} {ctx : Ctx} {up down : Conn}
    (hs : s.serverGo ctx up down = some s') :
    ∃ p up' down', enter serverStates 5 ctx s.server.next = some p ∧
      build up down p.cur = some (up', down') ∧
      s' = { s with server := p, up := up', down := down' } := by
  obtain ⟨p, hp, hs⟩ := Option.bind_eq_some_iff.mp hs
  obtain ⟨⟨up', down'⟩, hbuild, hs⟩ := Option.bind_eq_some_iff.mp hs
  cases hs
  exact ⟨p, up', down', hp, hbuild, rfl⟩

theorem clientGo_cases {s s' : Sys} {ctx : Ctx} {up down : Conn}
    (hs : s.clientGo ctx up down = some s') :
    ∃ p up' down', enter clientStates 5 ctx s.client.next = some p ∧
      build down up p.cur = some (down', up') ∧
      s' = { s with client := p, up := up', down := down' } := by
  obtain ⟨p, hp, hs⟩ := Option.bind_eq_some_iff.mp hs
  obtain ⟨⟨down', up'⟩, hbuild, hs⟩ := Option.bind_eq_some_iff.mp hs
  cases hs
  exact ⟨p, up', down', hp, hbuild, rfl⟩

/-- A machine builds its `read`. -/
theorem begin_read {inbound outbound inb outb : Conn} (h : inbound.Inv)
    (hs : build inbound outbound (some (.io (.read 64))) = some (inb, outb)) :
    inb.Inv ∧ outb = outbound ∧ inb.tx = inbound.tx ∧ inb.rx.job = .read 64 ∧
      inb.rx.sys.pc = .idle ∧ inb.rx.log = inbound.rx.log := by
  obtain ⟨c, hc, heq⟩ := Option.map_eq_some_iff.mp hs
  cases heq
  obtain ⟨htx, hjob, hpc, hlog⟩ := build_read hc
  exact ⟨h.step hc, rfl, htx, hjob, hpc, hlog⟩

/-- A machine builds its `write_all`. -/
theorem begin_writeAll {inbound outbound inb outb : Conn} {buf : List UInt8} (h : outbound.Inv)
    (hs : build inbound outbound (some (.io (.writeAll buf))) = some (inb, outb)) :
    outb.Inv ∧ inb = inbound ∧ outb.rx = outbound.rx ∧ outb.tx.job = .writeAll buf ∧
      outb.tx.sys.pc = .idle ∧ outb.tx.log = outbound.tx.log := by
  obtain ⟨c, hc, heq⟩ := Option.map_eq_some_iff.mp hs
  cases heq
  obtain ⟨hrx, hjob, hpc, hlog⟩ := build_writeAll hc
  exact ⟨h.step hc, rfl, hrx, hjob, hpc, hlog⟩

section Steps

variable {s s' : Sys}

/-- The server has got a stream, or has not. -/
theorem Sys.Inv.accepted (h : s.Inv) {opened : Bool}
    (hs : s.step (.accepted opened) = some s') : s'.Inv := by
  obtain ⟨hcur, hs⟩ := Option.ite_none_right_eq_some.mp hs
  obtain ⟨p, up, down, hp, hbuild, rfl⟩ := serverGo_cases hs
  have hserver := h.server
  have hroom := h.serverRoom
  obtain ⟨⟨ctx, cur, next⟩, client, up₀, down₀⟩ := s
  cases hserver with
  | reading => cases hcur
  | echoing => cases hcur
  | finished => cases hcur
  | accepting hn hrx htx =>
      rw [enter_afterAccept] at hp
      cases hp
      cases opened with
      | false =>
          cases hbuild
          refine { h with server := ?_, serverRoom := hroom }
          refine .finished hrx.idle htx.idle ?_ (htx.total ▸ List.nil_prefix)
          show ctx.n.toNat = _
          rw [hn, hrx.total]
          rfl
      | true =>
          obtain ⟨hinv, rfl, htx', hjob, hpc, hlog⟩ := begin_read h.up hbuild
          refine { h with up := hinv, server := ?_, client := htx' ▸ h.client, serverRoom := hroom }
          exact .reading hjob (hlog.trans hrx.log) (by rw [hpc]; exact nofun) (.inl hpc) htx

/-- The future that the server awaits is `Ready`. -/
theorem Sys.Inv.serverReady (h : s.Inv) (hs : s.step .serverReady = some s') : s'.Inv := by
  have hserver := h.server
  have hroom := h.serverRoom
  obtain ⟨⟨ctx, cur, next⟩, client, up₀, down₀⟩ := s
  cases hserver with
  | accepting => cases hs
  | finished => cases hs
  | reading hjob hlog halive hpolled htx =>
      obtain ⟨⟨up₁, down₁, ctx₁⟩, hfinish, hs⟩ := Option.bind_eq_some_iff.mp hs
      obtain ⟨hup, htx', hdown, hidle, hgot, -⟩ := finish_read h.up hjob hlog hpolled hroom hfinish
      subst hdown
      obtain ⟨p, up, down, hp, hbuild, rfl⟩ := serverGo_cases hs
      rw [enter_afterRead] at hp
      cases hp
      by_cases hn : 0 < ctx₁.n
      · rw [if_pos hn, hgot.bytes] at hbuild ⊢
        obtain ⟨hinv, rfl, hrx', hjob', hpc', hlog'⟩ := begin_writeAll h.down hbuild
        refine { h with up := hup, down := hinv, server := ?_, client := ?_,
                        serverRoom := hgot.room }
        · exact .echoing hidle rfl hgot.count hjob' (hlog'.trans htx.log)
            (by rw [hpc']; exact nofun)
        · rw [htx', hrx']
          exact h.client
      · rw [if_neg hn] at hbuild ⊢
        cases hbuild
        refine { h with up := hup, server := ?_, client := htx' ▸ h.client,
                        serverRoom := hgot.room }
        exact .finished hidle htx.idle hgot.count (htx.total ▸ List.nil_prefix)
  | echoing hrx hbuf hn hjob hlog halive =>
      obtain ⟨⟨up₁, down₁, ctx₁⟩, hfinish, hs⟩ := Option.bind_eq_some_iff.mp hs
      have hmoved := End.Stage.moved_writeAll h.down.tx hjob
      have htotal := total_first hlog
      obtain ⟨hdown, hrx', rfl, rfl, hidle, htotal'⟩ := finish_writeAll h.down hfinish
      obtain ⟨p, up, down, hp, hbuild, rfl⟩ := serverGo_cases hs
      cases hp
      cases hbuild
      refine { h with down := hdown, server := ?_, client := hrx' ▸ h.client, serverRoom := hroom }
      refine .finished hrx hidle (hbuf ▸ hn) ?_
      rw [htotal', htotal, hbuf]
      exact hmoved

/-- The client has got a stream, or has not. -/
theorem Sys.Inv.connected (h : s.Inv) {opened : Bool}
    (hs : s.step (.connected opened) = some s') : s'.Inv := by
  obtain ⟨hcur, hs⟩ := Option.ite_none_right_eq_some.mp hs
  obtain ⟨p, up, down, hp, hbuild, rfl⟩ := clientGo_cases hs
  have hclient := h.client
  have hroom := h.clientRoom
  obtain ⟨server, ⟨ctx, cur, next⟩, up₀, down₀⟩ := s
  cases hclient with
  | writing => cases hcur
  | reading => cases hcur
  | finished => cases hcur
  | connecting hok hn htx hrx =>
      rw [enter_afterConnect] at hp
      cases hp
      cases opened with
      | false =>
          cases hbuild
          refine { h with client := ?_, clientRoom := hroom }
          refine .finished htx.idle hrx.idle (htx.total ▸ List.nil_prefix) ?_ ?_
          · show ctx.n.toNat = _
            rw [hn, hrx.total]
            rfl
          · rw [hrx.total]
            rfl
      | true =>
          obtain ⟨hinv, rfl, hrx', hjob, hpc, hlog⟩ := begin_writeAll h.up hbuild
          refine { h with up := hinv, server := hrx' ▸ h.server, client := ?_, clientRoom := hroom }
          exact .writing hok hjob (hlog.trans htx.log) (by rw [hpc]; exact nofun) hrx

/-- The future that the client awaits is `Ready`. -/
theorem Sys.Inv.clientReady (h : s.Inv) (hs : s.step .clientReady = some s') : s'.Inv := by
  have hclient := h.client
  have hroom := h.clientRoom
  obtain ⟨server, ⟨ctx, cur, next⟩, up₀, down₀⟩ := s
  cases hclient with
  | connecting => cases hs
  | finished => cases hs
  | writing hok hjob hlog halive hrx =>
      obtain ⟨⟨down₁, up₁, ctx₁⟩, hfinish, hs⟩ := Option.bind_eq_some_iff.mp hs
      have hmoved := End.Stage.moved_writeAll h.up.tx hjob
      have htotal := total_first hlog
      obtain ⟨hup, hrx', rfl, rfl, hidle, htotal'⟩ := finish_writeAll h.up hfinish
      obtain ⟨p, up, down, hp, hbuild, rfl⟩ := clientGo_cases hs
      cases hp
      obtain ⟨hinv, rfl, htx', hjob', hpc', hlog'⟩ := begin_read h.down hbuild
      refine { h with up := hup, down := hinv, server := ?_, client := ?_, clientRoom := hroom }
      · rw [hrx', htx']
        exact h.server
      · refine .reading hok hidle ?_ hjob' (hlog'.trans hrx.log) (by rw [hpc']; exact nofun)
          (.inl hpc')
        rw [htotal', htotal]
        exact hmoved
  | reading hok htx hsent hjob hlog halive hpolled =>
      obtain ⟨⟨down₁, up₁, ctx₁⟩, hfinish, hs⟩ := Option.bind_eq_some_iff.mp hs
      obtain ⟨hdown, htx', hup, hidle, hgot, -⟩ :=
        finish_read h.down hjob hlog hpolled hroom hfinish
      subst hup
      obtain ⟨p, up, down, hp, hbuild, rfl⟩ := clientGo_cases hs
      rw [enter_verify] at hp
      cases hp
      cases hbuild
      refine { h with down := hdown, server := htx' ▸ h.server, client := ?_,
                      clientRoom := hgot.room }
      exact .finished htx hidle hsent hgot.count (if_congr (verify_iff hgot) rfl rfl)

/-- **Step lemma.** -/
theorem Sys.Inv.step (h : s.Inv) {a : Act} (hs : s.step a = some s') : s'.Inv := by
  cases a with
  | accepted opened => exact h.accepted hs
  | connected opened => exact h.connected hs
  | serverReady => exact h.serverReady hs
  | clientReady => exact h.clientReady hs
  | up a =>
      obtain ⟨ha, hs⟩ := Option.ite_none_right_eq_some.mp hs
      obtain ⟨up, hup, rfl⟩ := Option.map_eq_some_iff.mp hs
      obtain ⟨htx, hrx, hpolled⟩ := traffic_goes ha hup
      exact { h with up := h.up.step hup, server := h.server.goes hrx hpolled (.refl _),
                     client := h.client.goes htx (.refl _) id }
  | down a =>
      obtain ⟨ha, hs⟩ := Option.ite_none_right_eq_some.mp hs
      obtain ⟨down, hdown, rfl⟩ := Option.map_eq_some_iff.mp hs
      obtain ⟨htx, hrx, hpolled⟩ := traffic_goes ha hdown
      exact { h with down := h.down.step hdown, server := h.server.goes (.refl _) id htx,
                     client := h.client.goes (.refl _) hrx hpolled }

end Steps

/-! ## What the exchange does

What is known of the bytes at every moment, and of the verdict of the client at the end.
-/

/-- While its `read` waits, a machine has received nothing. -/
theorem waiting_total {c : Conn} (h : c.Inv) (hjob : c.rx.job = .read 64) (hlog : c.rx.log = [])
    (hpc : c.rx.sys.pc = .idle) : c.rx.total = [] := by
  have hstage := h.rx
  unfold End.Stage at hstage
  rw [hjob, hpc] at hstage
  obtain ⟨b, -, -, -, hmoved⟩ := hstage
  exact (total_first hlog).trans hmoved

theorem total_prefix {c : Conn} (h : c.Inv) : c.rx.total <+: c.tx.total := ⟨c.queue, h.total⟩

/-- The server sends a front part of what it has read. -/
theorem Serving.echoed {p : Party Sv} {rx tx : End} (h : Serving p rx tx) (hstage : tx.Stage) :
    tx.total <+: rx.total := by
  cases h with
  | accepting hn hrx htx => exact htx.total ▸ List.nil_prefix
  | reading hjob hlog halive hpolled htx => exact htx.total ▸ List.nil_prefix
  | echoing hrx hbuf hn hjob hlog halive =>
      rw [hbuf, total_first hlog]
      exact hstage.moved_writeAll hjob
  | finished hrx htx hn hechoed => exact hechoed

/-- What the server sends, it has read, and counted. -/
theorem Serving.counted {p : Party Sv} {rx tx : End} (h : Serving p rx tx) (hsent : tx.total ≠ []) :
    p.ctx.n.toNat = rx.total.length := by
  cases h with
  | accepting hn hrx htx => exact absurd htx.total hsent
  | reading hjob hlog halive hpolled htx => exact absurd htx.total hsent
  | echoing hrx hbuf hn hjob hlog halive => exact hbuf ▸ hn
  | finished hrx htx hn hechoed => exact hn

theorem Asking.sent {p : Party Cl} {tx rx : End} (h : Asking p tx rx) (hstage : tx.Stage) :
    tx.total <+: ping := by
  cases h with
  | connecting hok hn htx hrx => exact htx.total ▸ List.nil_prefix
  | writing hok hjob hlog halive hrx =>
      rw [total_first hlog]
      exact hstage.moved_writeAll hjob
  | reading hok htx hsent hjob hlog halive hpolled => exact hsent
  | finished htx hrx hsent hn hok => exact hsent

/-- The verdict of the client. -/
theorem Asking.verdict {p : Party Cl} {tx rx : End} (h : Asking p tx rx) :
    p.ctx.ok = 1 ↔ p.cur = none ∧ rx.total = ping := by
  cases h with
  | connecting hok hn htx hrx => simp [hok]
  | writing hok hjob hlog halive hrx => simp [hok]
  | reading hok htx hsent hjob hlog halive hpolled => simp [hok]
  | finished htx hrx hsent hn hok => simp [hok]

structure Sys.Safe (s : Sys) : Prop where
  /-- Nothing but "ping" goes round: each place has a front part of what the place before it has. -/
  sent     : s.up.tx.total <+: ping
  arrived  : s.up.rx.total <+: s.up.tx.total
  echoed   : s.down.tx.total <+: s.up.rx.total
  returned : s.down.rx.total <+: s.down.tx.total
  /-- No `read` runs over a buffer. -/
  room     : s.server.ctx.buf.length = 64 ∧ s.client.ctx.buf.length = 64
  /-- The comparison fails by the count alone. -/
  verdict  : s.client.cur = none → (s.client.ctx.ok = 1 ↔ s.client.ctx.n = 4)
  /-- Where it succeeds, both machines have read everything at once. -/
  agreed   : s.client.ctx.ok = 1 →
    s.server.ctx.n = 4 ∧ s.up.rx.total = ping ∧ s.down.tx.total = ping ∧ s.down.rx.total = ping
  /-- A machine waits with nothing on its way only if nothing was ever sent to it. -/
  serverWaits : s.server.cur = some (.io (.read 64)) → s.up.rx.sys.pc = .idle → s.up.queue = [] →
    s.up.tx.total = []
  clientWaits : s.client.cur = some (.io (.read 64)) → s.down.rx.sys.pc = .idle →
    s.down.queue = [] → s.down.tx.total = []

/-- The invariant of the exchange says what it is for. -/
theorem Sys.Inv.safe {s : Sys} (h : s.Inv) : s.Safe := by
  have hsent := h.client.sent h.up.tx
  have harrived := total_prefix h.up
  have hechoed := h.server.echoed h.down.tx
  have hreturned := total_prefix h.down
  have hfront : s.down.rx.total <+: ping :=
    hreturned.trans (hechoed.trans (harrived.trans hsent))
  have hverdict := h.client.verdict
  refine ⟨hsent, harrived, hechoed, hreturned, ⟨h.serverRoom, h.clientRoom⟩, ?_, ?_, ?_, ?_⟩
  · intro hcur
    have hcount : s.client.ctx.n.toNat = s.down.rx.total.length := by
      have hclient := h.client
      generalize s.client = p, s.up.tx = tx, s.down.rx = rx at hclient hcur
      cases hclient with
      | connecting => cases hcur
      | writing => cases hcur
      | reading => cases hcur
      | finished htx hrx hsent hn hok => exact hn
    have hlen : s.down.rx.total = ping ↔ s.down.rx.total.length = 4 :=
      ⟨fun heq => heq ▸ rfl, fun hlen => hfront.eq_of_length hlen⟩
    rw [hverdict, hlen, ← hcount]
    simp only [hcur, true_and]
    omega
  · intro hok
    obtain ⟨-, hall⟩ := hverdict.mp hok
    rw [hall] at hreturned
    have hdown : s.down.tx.total = ping :=
      (hechoed.trans (harrived.trans hsent)).eq_of_length_le hreturned.length_le
    rw [hdown] at hechoed
    have hup : s.up.rx.total = ping := (harrived.trans hsent).eq_of_length_le hechoed.length_le
    have hcount := h.server.counted (by rw [hdown]; exact nofun)
    rw [hup] at hcount
    have hfour : s.server.ctx.n.toNat = 4 := hcount
    exact ⟨by omega, hup, hdown, hall⟩
  · intro hcur hpc hqueue
    have hserver := h.server
    have htotal := h.up.total
    generalize hp : s.server = p at hserver hcur
    generalize hrx : s.up.rx = rx at hserver
    generalize s.down.tx = tx at hserver
    cases hserver with
    | accepting => cases hcur
    | echoing => cases hcur
    | finished => cases hcur
    | reading hjob hlog halive hpolled htx =>
        rw [← hrx] at hjob hlog
        rw [waiting_total h.up hjob hlog hpc, hqueue] at htotal
        exact htotal.symm
  · intro hcur hpc hqueue
    have hclient := h.client
    have htotal := h.down.total
    generalize s.client = p at hclient hcur
    generalize s.up.tx = tx at hclient
    generalize hrx : s.down.rx = rx at hclient
    cases hclient with
    | connecting => cases hcur
    | writing => cases hcur
    | finished => cases hcur
    | reading hok htx hsent hjob hlog halive hpolled =>
        rw [← hrx] at hjob hlog
        rw [waiting_total h.down hjob hlog hpc, hqueue] at htotal
        exact htotal.symm

/-- **The echo is safe**, in whatever order the two machines are polled, and however the kernel cuts
    the bytes. -/
theorem echo_safe {dsv dcl : IoDriver} {sfd cfd : Int} {acts : List Act} {s : Sys}
    (h : run Sys.step (.start dsv dcl sfd cfd) acts = some s) : s.Safe :=
  (run_invariant (fun _ _ _ hs => hs.step) (Sys.inv_start dsv dcl sfd cfd) h).safe

/-- A server on the descriptor 4, and a client on 3. -/
def echoStart : Sys :=
  .start ⟨[⟨4, 0, 0, false, false, 0⟩], [], 0⟩ ⟨[⟨3, 0, 0, false, false, 0⟩], [], 0⟩ 4 3

/-- The server waits for the client, which sends "ping" in two parts before the server reads. -/
def wholeEcho : List Act :=
  [.accepted true, .up (.rx (.poll (some 0))), .up (.received ⟨-EAGAIN, true, true⟩),
    .connected true, .up (.tx (.poll none)), .up (.written ⟨3, true, true⟩),
    .up (.written ⟨1, true, true⟩), .clientReady,
    .down (.rx (.poll (some 0))), .down (.received ⟨-EAGAIN, true, true⟩),
    .up (.rx (.driver ⟨[⟨4, 0, 0, false, false, 0⟩], [], 0⟩)), .up (.rx (.poll (some 0))),
    .up (.received ⟨4, true, true⟩), .serverReady,
    .down (.tx (.poll none)), .down (.written ⟨4, true, true⟩), .serverReady,
    .down (.rx (.driver ⟨[⟨3, 0, 0, false, false, 0⟩], [], 0⟩)), .down (.rx (.poll (some 0))),
    .down (.received ⟨4, true, true⟩), .clientReady]

theorem echo_safe_whole :
    ∃ s, run Sys.step echoStart wholeEcho = some s ∧ s.client.ctx.ok = 1 ∧ s.Safe := by
  have hrun : (run Sys.step echoStart wholeEcho).map (fun s => s.client.ctx.ok) = some 1 := by
    decide +kernel
  obtain ⟨s, hs, hok⟩ := Option.map_eq_some_iff.mp hrun
  exact ⟨s, hs, hok, echo_safe hs⟩

end CustLib.Echo
