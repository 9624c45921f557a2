import CustLib.Lib.History
import CustLib.Execution.Stream

/-!
# `write_all`

`writeall_poll` with readiness futures of any behaviour, for runs in which the allocator serves every
request for one. It is cut at its `write` calls, as in `CustLib.Execution.Stream`; `stream_writeallPoll`
and `stream_writeallReturn` say that the code there is this code with the interest futures of the
driver.

The readiness futures are numbered, and what becomes of them is recorded (`recorded`), which nothing in
the model reads. `sent` are the places in the buffer of the bytes that the kernel has accepted, from the
arguments of the calls. `write_all_sends_once` is about all answers of the kernel, all answers of the
readiness futures, and all moments of polls and of the drop.
-/

namespace CustLib.WriteAll

open CustLib.Exec (EINTR EAGAIN toIsize toIsize_eq)
open CustLib.History (Each each_nil each_concat)
open CustLib.Machine (run run_invariant)

/-! ## The code

`writeall_poll` once more, over readiness futures of any behaviour. The code is the same; what is
abstracted is whom it waits for.
-/

structure Readiness (ρ σ : Type) where
  new  : Int → σ → ρ × σ
  poll : ρ → σ → (Bool × ρ) × σ
  drop : ρ → σ → σ

/-- `struct writeall_box`, less the stream and the buffer. It has a readiness future while it is
    `awaiting`. -/
structure Box (ρ : Type) where
  len       : Nat
  off       : Nat
  readiness : Option ρ
  deriving DecidableEq, Repr

/-- Where a poll has got to: it returns, with a value for `out` when it is `Ready`, or calls `write` for
    `len` bytes of the buffer from `off` on. -/
inductive Next where
  | pending
  | ready (value : Int)
  | write (off len : Nat)
  deriving DecidableEq, Repr

variable {ρ σ : Type}

/-- `writeall_poll` behind the wait. -/
def issue (b : Box ρ) : Next :=
  if b.off ≥ b.len then .ready (toIsize b.len) else .write b.off (b.len - b.off)

def writeallPoll (R : Readiness ρ σ) (b : Box ρ) (m : σ) : (Next × Box ρ) × σ :=
  match b.readiness with
  | none   => ((issue b, b), m)
  | some r =>
    let ((st, r), m) := R.poll r m
    if st then ((issue b, { b with readiness := none }), R.drop r m)
    else ((.pending, { b with readiness := some r }), m)

/-- `writeall_poll` behind its `write`, which has returned `ret`, a negated `errno` if it failed. -/
def writeallReturn (R : Readiness ρ σ) (fd : Int) (b : Box ρ) (ret : Int) (m : σ) :
    (Next × Box ρ) × σ :=
  if ret > 0 then writeallPoll R { b with off := wadd b.off ret.toNat } m
  else if ret = -EINTR then writeallPoll R b m
  else if ret = -EAGAIN then
    let (r, m) := R.new fd m
    writeallPoll R { b with readiness := some r } m
  else
    -- nothing was written, or a hard error
    ((.ready (if ret < 0 then ret else toIsize b.off), b), m)

def writeallDrop (R : Readiness ρ σ) (b : Box ρ) (m : σ) : σ :=
  match b.readiness with
  | none   => m
  | some r => R.drop r m

/-- `if (out) { *(isize *)out = value; }` of a poll that is `Ready`. -/
def Next.stored (next : Next) (out : Option Nat) (results : Nat → Int) : Nat → Int :=
  match next, out with
  | .ready value, some p => Function.update results p value
  | _, _                 => results

/-! ## The interest futures of a driver

The readiness futures of the crate are one instance, and on them the code here does what that of
`CustLib.Execution.Stream` does, poll by poll.
-/

/-- `cexec_fd_writable` on a driver: the interest futures of `io.c`, and the number of the next waker
    clone. -/
def interests : Readiness Exec.InterestBox (Exec.IoDriver × Exec.TaskId) where
  new fd m             := (Exec.interestNew fd true, m)
  poll b := fun (d, clones) =>
    let (st, d, b) := Exec.interestPoll d b clones
    ((st, b), d, clones + 1)
  drop b := fun (d, clones) => ((Exec.interestDrop d b).1, clones)

/-- The box in `CustLib.Execution.Stream`. -/
def boxOf (b : Exec.WriteallBox) : Box Exec.InterestBox :=
  ⟨b.len, b.off, if b.wait.awaiting then b.wait.readiness else none⟩

/-- Where a poll has got to in `CustLib.Execution.Stream`. -/
def Next.at (fd : Int) : Next → Exec.Next
  | .pending       => .pending
  | .ready _       => .ready
  | .write off len => .call (.write fd off len)

/-- `x` is what the poll of the box `b` does by the code above. -/
def Computes (b : Exec.WriteallBox) (out : Option Nat) (net : Exec.Net)
    (x : Option (Exec.Next × Exec.IoFut) × Exec.Net)
    (y : (Next × Box Exec.InterestBox) × Exec.IoDriver × Exec.TaskId) : Prop :=
  ∃ b' : Exec.WriteallBox, boxOf b' = y.1.2 ∧ b'.wait.Ok ∧ b'.stream = b.stream ∧
    x = (some (y.1.1.at (net.streams b.stream), .writeall b'),
      { net with driver := y.2.1, clones := y.2.2, results := y.1.1.stored out net.results })

theorem issue_at (b : Box ρ) (out : Option Nat) (results : Nat → Int) (fd : Int) :
    (issue b).at fd = (if b.off ≥ b.len then .ready else .call (.write fd b.off (b.len - b.off))) ∧
      (issue b).stored out results =
        if b.off ≥ b.len then (Next.ready (toIsize b.len)).stored out results else results := by
  unfold issue
  split
  · exact ⟨rfl, rfl⟩
  · exact ⟨rfl, rfl⟩

/-- What `CustLib.Execution.Stream` does behind the wait. -/
theorem stream_issue (b : Exec.WriteallBox) (out : Option Nat) (net : Exec.Net) :
    (do
      if b.off ≥ b.len then
        Exec.storeResult out (toIsize b.len)
        return (.ready, .writeall b)
      let fd ← Eff.move fun net => (net.streams b.stream, net)
      return (.call (.write fd b.off (b.len - b.off)), .writeall b) :
        Eff Exec.Net (Exec.Next × Exec.IoFut)) net =
      (some ((issue (boxOf b)).at (net.streams b.stream), .writeall b),
        { net with results := (issue (boxOf b)).stored out net.results }) := by
  rw [(issue_at (boxOf b) out net.results _).1, (issue_at (boxOf b) out net.results 0).2]
  by_cases hoff : b.off ≥ b.len
  · simp only [boxOf, hoff, if_true]
    cases out <;> rfl
  · simp only [boxOf, hoff, if_false]
    rfl

/-- **The head of the loop** is that of `CustLib.Execution.Stream`. -/
theorem stream_writeallPoll (b : Exec.WriteallBox) (hok : b.wait.Ok) (out : Option Nat)
    (net : Exec.Net) :
    Computes b out net (Exec.writeallPoll b out net)
      (writeallPoll interests (boxOf b) (net.driver, net.clones)) := by
  obtain ⟨stream, len, off, awaiting, readiness⟩ := b
  cases awaiting with
  | false =>
      refine ⟨⟨stream, len, off, false, readiness⟩, rfl, nofun, rfl, ?_⟩
      exact stream_issue ⟨stream, len, off, false, readiness⟩ out net
  | true =>
      obtain ⟨f, rfl⟩ := Option.ne_none_iff_exists'.mp (hok rfl)
      rcases hpoll : Exec.interestPoll net.driver f net.clones with ⟨st, d, f'⟩
      -- both loops poll the readiness future first
      have hfuture : Exec.pollFuture (some f) net =
          (some (st, some f'), { net with driver := d, clones := net.clones + 1 }) := by
        simp [Exec.pollFuture, Eff.move, hpoll]
      cases st with
      | false =>
          have hhead : writeallPoll interests (boxOf ⟨stream, len, off, true, some f⟩)
              (net.driver, net.clones) = ((.pending, ⟨len, off, some f'⟩), d, net.clones + 1) := by
            simp [writeallPoll, boxOf, interests, hpoll]
          rw [hhead]
          refine ⟨⟨stream, len, off, true, some f'⟩, rfl, nofun, rfl, ?_⟩
          have hwait : Exec.awaitReady ⟨true, some f⟩ net = (some (false, ⟨true, some f'⟩),
              { net with driver := d, clones := net.clones + 1 }) := by
            show (Exec.pollFuture (some f) >>= _) net = _
            rw [Eff.bind_run, hfuture]
            rfl
          show (Exec.awaitReady ⟨true, some f⟩ >>= _) net = _
          rw [Eff.bind_run, hwait]
          cases out <;> rfl
      | true =>
          have hhead : writeallPoll interests (boxOf ⟨stream, len, off, true, some f⟩)
              (net.driver, net.clones) =
                ((issue (boxOf ⟨stream, len, off, .idle⟩), boxOf ⟨stream, len, off, .idle⟩),
                  (Exec.interestDrop d f').1, net.clones + 1) := by
            simp [writeallPoll, boxOf, interests, hpoll, issue, Exec.Wait.idle]
          rw [hhead]
          refine ⟨⟨stream, len, off, .idle⟩, rfl, Exec.ok_idle, rfl, ?_⟩
          have hwait : Exec.awaitReady ⟨true, some f⟩ net = (some (true, .idle),
              { net with driver := (Exec.interestDrop d f').1, clones := net.clones + 1 }) := by
            show (Exec.pollFuture (some f) >>= _) net = _
            rw [Eff.bind_run, hfuture]
            rfl
          show (Exec.awaitReady ⟨true, some f⟩ >>= _) net = _
          rw [Eff.bind_run, hwait]
          exact stream_issue ⟨stream, len, off, .idle⟩ out
            { net with driver := (Exec.interestDrop d f').1, clones := net.clones + 1 }

/-- **The code behind a `write`** is that of `CustLib.Execution.Stream`, when the allocator serves the
    request for a readiness future. -/
theorem stream_writeallReturn (b : Exec.WriteallBox) (hb : b.wait = .idle) (out : Option Nat)
    {a : Exec.Answer} (ha : a.alloc = true) (net : Exec.Net) :
    Computes b out net (Exec.writeallReturn b out a net)
      (writeallReturn interests (net.streams b.stream) (boxOf b) a.ret (net.driver, net.clones)) := by
  obtain ⟨stream, len, off, wait⟩ := b
  subst hb
  unfold Exec.writeallReturn writeallReturn
  split
  · exact stream_writeallPoll ⟨stream, len, wadd off a.ret.toNat, .idle⟩ Exec.ok_idle out net
  split
  · exact stream_writeallPoll ⟨stream, len, off, .idle⟩ Exec.ok_idle out net
  split
  · have hpoll := stream_writeallPoll ⟨stream, len, off,
      Exec.awaitOn (net.streams stream) true a.alloc⟩ (Exec.ok_awaitOn ha _ _) out net
    rw [ha] at hpoll ⊢
    exact hpoll
  · refine ⟨⟨stream, len, off, .idle⟩, rfl, Exec.ok_idle, rfl, ?_⟩
    cases out <;> rfl

/-! ## Histories of readiness futures

Each poll that waits creates a readiness future, polls it until it is `Ready` and drops it. `Lives` are
the histories in which this is done in an orderly way, one future after the other.
-/

/-- What becomes of the readiness future number `k`. -/
inductive Event where
  | created (k : Nat)
  | polled (k : Nat) (ready : Bool)
  | dropped (k : Nat)
  deriving DecidableEq, Repr

def births (log : List Event) : Nat := log.countP fun | .created _ => true | _ => false

def recorded (R : Readiness ρ σ) : Readiness (Nat × ρ) (σ × List Event) where
  new fd := fun (m, log) =>
    let (r, m) := R.new fd m
    ((births log, r), m, log ++ [.created (births log)])
  poll := fun (k, r) (m, log) =>
    let ((st, r), m) := R.poll r m
    ((st, (k, r)), m, log ++ [.polled k st])
  drop := fun (k, r) (m, log) => (R.drop r m, log ++ [.dropped k])

inductive Phase where
  | none
  | alive (k : Nat)
  | spent (k : Nat)
  deriving DecidableEq, Repr

def Phase.current : Phase → Option Nat
  | .none              => Option.none
  | .alive k | .spent k => some k

inductive Lives : List Event → Phase → Prop
  | nil : Lives [] .none
  | created {log} : Lives log .none → Lives (log ++ [.created (births log)]) (.alive (births log))
  | pending {log k} : Lives log (.alive k) → Lives (log ++ [.polled k false]) (.alive k)
  | ready {log k} : Lives log (.alive k) → Lives (log ++ [.polled k true]) (.spent k)
  | dropped {log ph k} : Lives log ph → ph.current = some k → Lives (log ++ [.dropped k]) .none

/-- Only a future that is there and has not been `Ready` is polled. -/
def PolledAlive (log : List Event) : Prop :=
  Each (fun pre e => ∀ k r, e = .polled k r →
    .created k ∈ pre ∧ .polled k true ∉ pre ∧ .dropped k ∉ pre) log

/-- What a history of lives says of each readiness future. -/
structure Accounted (log : List Event) (ph : Phase) : Prop where
  polled  : PolledAlive log
  fresh   : ∀ k r, .created k ∈ log ∨ .polled k r ∈ log → k < births log
  created : ∀ k, log.count (.created k) ≤ 1
  dropped : ∀ k,
    log.count (.dropped k) + (if ph.current = some k then 1 else 0) = log.count (.created k)
  unready : ∀ k, ph = .alive k → .polled k true ∉ log

section Accounted

variable {log : List Event} {ph : Phase} {k : Nat}

/-- The current future was created and is not dropped. -/
theorem Accounted.current (h : Accounted log ph) (hk : ph.current = some k) :
    .created k ∈ log ∧ .dropped k ∉ log := by
  have hcount := h.dropped k
  have hone := h.created k
  rw [if_pos hk] at hcount
  constructor
  · exact List.count_pos_iff.mp (by omega)
  · exact List.count_eq_zero.mp (by omega)

/-- A poll of the current future. -/
theorem Accounted.poll (h : Accounted log (.alive k)) (r : Bool) {ph' : Phase}
    (hcur : ph'.current = some k) (hph : ∀ j, ph' = .alive j → r = false) :
    Accounted (log ++ [.polled k r]) ph' := by
  obtain ⟨hcreated, hdropped⟩ := h.current rfl
  have hbirths : births (log ++ [.polled k r]) = births log := by simp [births]
  refine ⟨each_concat.mpr ⟨h.polled, ?_⟩, ?_, ?_, ?_, ?_⟩
  · intro j r' he
    cases he
    exact ⟨hcreated, h.unready k rfl, hdropped⟩
  · intro j r' hj
    rw [hbirths]
    have hk := h.fresh k r (.inl hcreated)
    have hold := h.fresh j r'
    simp only [List.mem_append, List.mem_singleton, Event.polled.injEq, reduceCtorEq,
      or_false] at hj
    grind
  · intro j
    simpa [List.count_append] using h.created j
  · intro j
    have hcount := h.dropped j
    rw [hcur]
    simpa [List.count_append, Phase.current] using hcount
  · intro j hj hmem
    have hr := hph j hj
    subst hj
    cases hcur
    have hmem : .polled k true ∈ log := by simpa [hr] using hmem
    exact h.unready k rfl hmem

theorem Lives.accounted (h : Lives log ph) : Accounted log ph := by
  induction h with
  | nil => exact ⟨each_nil, by simp, by simp, by simp [Phase.current], nofun⟩
  | @created log _ ih =>
      have hbirths : births (log ++ [.created (births log)]) = births log + 1 := by
        simp [births]
      -- the numbers of readiness futures are handed out once
      have hnew : .created (births log) ∉ log := fun hmem =>
        Nat.lt_irrefl _ (ih.fresh _ true (.inl hmem))
      refine ⟨each_concat.mpr ⟨ih.polled, nofun⟩, ?_, ?_, ?_, ?_⟩
      · intro k r hk
        rw [hbirths]
        have hold := ih.fresh k r
        simp only [List.mem_append, List.mem_singleton, Event.created.injEq, reduceCtorEq,
          or_false] at hk
        grind
      · intro k
        have hcount := ih.created k
        have hzero := List.count_eq_zero.mpr hnew
        simp only [List.count_append, List.count_singleton]
        grind
      · intro k
        have hcount := ih.dropped k
        simp only [List.count_append, List.count_singleton, Phase.current] at hcount ⊢
        grind
      · intro k hk hmem
        cases hk
        have hmem : .polled (births log) true ∈ log := by simpa using hmem
        exact Nat.lt_irrefl _ (ih.fresh _ true (.inr hmem))
  | pending _ ih => exact ih.poll false rfl fun _ _ => rfl
  | ready _ ih => exact ih.poll true rfl nofun
  | @dropped log ph k _ hk ih =>
      have hbirths : births (log ++ [.dropped k]) = births log := by simp [births]
      refine ⟨each_concat.mpr ⟨ih.polled, nofun⟩, ?_, ?_, ?_, nofun⟩
      · intro j r hj
        rw [hbirths]
        exact ih.fresh j r (by simpa using hj)
      · intro j
        simpa [List.count_append] using ih.created j
      · intro j
        have hcount := ih.dropped j
        rw [hk] at hcount
        simp only [List.count_append, List.count_singleton]
        grind [Phase.current]

end Accounted

/-! ## The life of a `write_all`

A run on one descriptor. The kernel takes a front part of what it is given; what it has taken so far is
recorded by position.
-/

/-- Where control is: outside, in a `write`, or outside for good. A future that is `Ready` is not polled
    again. -/
inductive Pc where
  | idle
  | writing (off len : Nat)
  | ready (value : Int)
  | dropped
  deriving DecidableEq, Repr

def Next.pc : Next → Pc
  | .pending       => .idle
  | .ready value   => .ready value
  | .write off len => .writing off len

/-- A `write_all` on the descriptor `fd`: the world of the readiness futures with their record, the box,
    the place that its last poll was given for the output, the `isize` results in the caller's
    memory, where control is, and which bytes of the buffer the kernel has accepted. -/
structure Sys (ρ σ : Type) where
  world   : σ × List Event
  box     : Box (Nat × ρ)
  fd      : Int
  out     : Option Nat
  results : Nat → Int
  pc      : Pc
  sent    : List Nat

/-- What happens to it: it is polled with some place for its output, a `write` returns, it is dropped.
    Between its polls the rest of the program works on the world, and on its own streams. -/
inductive Act (σ : Type) where
  | poll (out : Option Nat)
  | written (ret : Int)
  | drop
  | rest (f : σ → σ)
  | stream (fd : Int)

/-- `cexec_stream_write_all`, once the box is allocated. -/
def Sys.start (len : Nat) (fd : Int) (results : Nat → Int) (m : σ) : Sys ρ σ where
  world   := (m, [])
  box     := ⟨len, 0, none⟩
  fd      := fd
  out     := none
  results := results
  pc      := .idle
  sent    := []

def Sys.enter (s : Sys ρ σ) (out : Option Nat) (x : (Next × Box (Nat × ρ)) × σ × List Event) :
    Sys ρ σ :=
  { s with
    world := x.2
    box := x.1.2
    out
    results := x.1.1.stored out s.results
    pc := x.1.1.pc }

def Pc.outside : Pc → Bool
  | .writing _ _ => false
  | _            => true

/-- One step in the life of a `write_all`. The kernel accepts no more bytes than it is given. -/
def step (R : Readiness ρ σ) (s : Sys ρ σ) : Act σ → Option (Sys ρ σ)
  | .poll out =>
    if s.pc = .idle then some (s.enter out (writeallPoll (recorded R) s.box s.world)) else none
  | .written ret =>
    match s.pc with
    | .writing off len =>
      if ret ≤ len then
        some ({ s with sent := s.sent ++ List.range' off ret.toNat }.enter s.out
          (writeallReturn (recorded R) s.fd s.box ret s.world))
      else none
    | _ => none
  | .drop =>
    match s.pc with
    | .idle | .ready _ =>
      some { s with world := writeallDrop (recorded R) s.box s.world, pc := .dropped }
    | _ => none
  | .rest f => if s.pc.outside then some { s with world := (f s.world.1, s.world.2) } else none
  | .stream fd => if s.pc.outside then some { s with fd } else none

/-! ## What holds of every run

`off` is the number of bytes that the kernel has, and they are the first ones of the buffer, each sent
once. The result is the length, or a negative error, or less than the length where a `write` has
returned 0.
-/

def Box.phase (b : Box (Nat × ρ)) : Phase :=
  match b.readiness with
  | none        => .none
  | some (k, _) => .alive k

/-- Behind the wait the rest is written, or nothing is left. -/
theorem issue_spec (b : Box ρ) (hoff : b.off ≤ b.len) (hlen : b.len < 2 ^ 63) :
    b.off = b.len ∧ issue b = .ready b.len ∨
      b.off < b.len ∧ issue b = .write b.off (b.len - b.off) := by
  unfold issue
  by_cases hle : b.off ≥ b.len
  · refine .inl ⟨Nat.le_antisymm hoff hle, ?_⟩
    rw [if_pos hle, toIsize_eq hlen]
  · exact .inr ⟨Nat.lt_of_not_le hle, if_neg hle⟩

/-- A poll is `Pending` on a readiness future, or goes on without one. -/
theorem writeallPoll_spec (R : Readiness ρ σ) {b : Box (Nat × ρ)} {m : σ × List Event}
    (hlives : Lives m.2 b.phase) :
    (∃ b' m', writeallPoll (recorded R) b m = ((.pending, b'), m') ∧ b'.len = b.len ∧
        b'.off = b.off ∧ Lives m'.2 b'.phase) ∨
      ∃ m', writeallPoll (recorded R) b m = ((issue b, { b with readiness := none }), m') ∧
        Lives m'.2 .none := by
  obtain ⟨len, off, readiness⟩ := b
  obtain ⟨m, log⟩ := m
  cases readiness with
  | none => exact .inr ⟨(m, log), rfl, hlives⟩
  | some f =>
      obtain ⟨k, r⟩ := f
      rcases hpoll : R.poll r m with ⟨⟨st, r'⟩, m'⟩
      cases st with
      | false =>
          refine .inl ⟨⟨len, off, some (k, r')⟩, (m', log ++ [.polled k false]), ?_, rfl, rfl,
            hlives.pending⟩
          simp [writeallPoll, recorded, hpoll]
      | true =>
          refine .inr ⟨(R.drop r' m', log ++ [.polled k true] ++ [.dropped k]), ?_,
            hlives.ready.dropped rfl⟩
          simp [writeallPoll, recorded, hpoll, issue]

/-- Where control is, with the box and the history of the readiness futures. -/
def Stage (s : Sys ρ σ) : Pc → Prop
  | .idle            => Lives s.world.2 s.box.phase
  | .writing off len => s.box.readiness = none ∧ Lives s.world.2 .none ∧ off = s.box.off ∧
      len = s.box.len - off ∧ off < s.box.len
  | .ready value     => s.box.readiness = none ∧ Lives s.world.2 .none ∧
      (∀ p, s.out = some p → s.results p = value) ∧
      (s.box.off = s.box.len ∧ value = s.box.len ∨
        s.box.off < s.box.len ∧ (value < 0 ∨ value = s.box.off))
  | .dropped         => Lives s.world.2 .none

structure Kept (len : Nat) (s : Sys ρ σ) : Prop where
  length : s.box.len = len
  bound  : s.box.off ≤ len
  sent   : s.sent = List.range s.box.off
  stage  : Stage s s.pc

/-- A part of a poll that goes to the head of the loop. -/
theorem kept_poll (R : Readiness ρ σ) {len : Nat} (hlen : len < 2 ^ 63) (s : Sys ρ σ)
    {b : Box (Nat × ρ)} (hb : b.len = len) (hoff : b.off ≤ len)
    (hsent : s.sent = List.range b.off) {m : σ × List Event} (hlives : Lives m.2 b.phase)
    (out : Option Nat) : Kept len (s.enter out (writeallPoll (recorded R) b m)) := by
  subst hb
  rcases writeallPoll_spec R hlives with ⟨b', m', hpoll, hlen', hoff', hlives'⟩ |
    ⟨m', hpoll, hlives'⟩
  · rw [hpoll]
    exact ⟨hlen', hoff' ▸ hoff, hoff' ▸ hsent, hlives'⟩
  · rw [hpoll]
    refine ⟨rfl, hoff, hsent, ?_⟩
    rcases issue_spec b hoff hlen with ⟨hfull, hnext⟩ | ⟨hrest, hnext⟩
    · rw [hnext]
      refine ⟨rfl, hlives', ?_, .inl ⟨hfull, rfl⟩⟩
      rintro p rfl
      exact Function.update_self _ _ _
    · rw [hnext]
      exact ⟨rfl, hlives', rfl, rfl, hrest⟩

/-- A `write` returns. -/
theorem kept_written (R : Readiness ρ σ) {len : Nat} (hlen : len < 2 ^ 63) {s : Sys ρ σ}
    (h : Kept len s) {off n : Nat} (hpc : s.pc = .writing off n) {ret : Int} (hret : ret ≤ n) :
    Kept len ({ s with sent := s.sent ++ List.range' off ret.toNat }.enter s.out
      (writeallReturn (recorded R) s.fd s.box ret s.world)) := by
  have hstage := h.stage
  rw [hpc] at hstage
  obtain ⟨hnone, hlog, rfl, rfl, hrest⟩ := hstage
  have hlives : Lives s.world.2 s.box.phase := by
    rw [Box.phase, hnone]
    exact hlog
  have hlen' := h.length
  unfold writeallReturn
  split
  next hpos =>
    -- some bytes were accepted, and the loop goes on behind them
    have hadd : wadd s.box.off ret.toNat = s.box.off + ret.toNat := Nat.mod_eq_of_lt (by omega)
    have hnext : s.box.off + ret.toNat ≤ len := by omega
    have hsent : s.sent ++ List.range' s.box.off ret.toNat =
        List.range (s.box.off + ret.toNat) := by
      rw [h.sent, List.range_add, List.range'_eq_map_range]
    rw [hadd]
    exact kept_poll R hlen { s with sent := _ }
      (b := { s.box with off := s.box.off + ret.toNat }) hlen' hnext hsent hlives s.out
  next hpos =>
    -- a `write` that fails accepts nothing
    have hsent : s.sent ++ List.range' s.box.off ret.toNat = List.range s.box.off := by
      rw [Int.toNat_of_nonpos (Int.not_lt.mp hpos), List.range'_zero, List.append_nil, h.sent]
    split
    · exact kept_poll R hlen { s with sent := _ } hlen' h.bound hsent hlives s.out
    split
    · -- the box waits for a new readiness future
      exact kept_poll R hlen { s with sent := _ }
        (b := { s.box with readiness := some (births s.world.2, (R.new s.fd s.world.1).1) })
        (m := ((R.new s.fd s.world.1).2, s.world.2 ++ [.created (births s.world.2)]))
        hlen' h.bound hsent hlog.created s.out
    · refine ⟨hlen', h.bound, hsent, hnone, hlog, ?_, .inr ⟨hrest, ?_⟩⟩
      · intro p (hp : s.out = some p)
        show (Next.ready _).stored s.out s.results p = _
        rw [hp]
        exact Function.update_self _ _ _
      · by_cases hneg : ret < 0
        · rw [if_pos hneg]
          exact .inl hneg
        · rw [if_neg hneg]
          exact .inr (toIsize_eq (by omega))

/-- It is dropped, and its readiness future with it. -/
theorem kept_drop (R : Readiness ρ σ) {len : Nat} {s : Sys ρ σ} (h : Kept len s)
    (hlives : Lives s.world.2 s.box.phase) :
    Kept len { s with world := writeallDrop (recorded R) s.box s.world, pc := .dropped } := by
  refine ⟨h.length, h.bound, h.sent, ?_⟩
  show Lives (writeallDrop (recorded R) s.box s.world).2 .none
  unfold Box.phase at hlives
  unfold writeallDrop
  cases hbox : s.box.readiness with
  | none =>
      rw [hbox] at hlives
      exact hlives
  | some f =>
      rw [hbox] at hlives
      exact hlives.dropped rfl

/-- **Step lemma.** -/
theorem step_kept (R : Readiness ρ σ) {len : Nat} (hlen : len < 2 ^ 63) (s : Sys ρ σ) (a : Act σ)
    (s' : Sys ρ σ) (h : Kept len s) (hs : step R s a = some s') : Kept len s' := by
  have hstage := h.stage
  cases a with
  | poll out =>
      obtain ⟨hpc, hs⟩ := Option.ite_none_right_eq_some.mp hs
      cases hs
      rw [hpc] at hstage
      exact kept_poll R hlen s h.length h.bound h.sent hstage out
  | written ret =>
      simp only [step] at hs
      split at hs
      next off n hpc =>
        obtain ⟨hret, hs⟩ := Option.ite_none_right_eq_some.mp hs
        cases hs
        exact kept_written R hlen h hpc hret
      · cases hs
  | drop =>
      simp only [step] at hs
      split at hs
      next hpc =>
        cases hs
        rw [hpc] at hstage
        exact kept_drop R h hstage
      next v hpc =>
        cases hs
        rw [hpc] at hstage
        obtain ⟨hnone, hlog, -, -⟩ := hstage
        apply kept_drop R h
        rw [Box.phase, hnone]
        exact hlog
      · cases hs
  | rest f =>
      obtain ⟨hout, hs⟩ := Option.ite_none_right_eq_some.mp hs
      cases hs
      refine ⟨h.length, h.bound, h.sent, ?_⟩
      cases hpc : s.pc <;> rw [hpc] at hstage hout <;> exact hstage
  | stream fd =>
      obtain ⟨hout, hs⟩ := Option.ite_none_right_eq_some.mp hs
      cases hs
      refine ⟨h.length, h.bound, h.sent, ?_⟩
      cases hpc : s.pc <;> rw [hpc] at hstage hout <;> exact hstage

/-- **Run lemma.** -/
theorem run_kept (R : Readiness ρ σ) {len : Nat} (hlen : len < 2 ^ 63) {fd : Int}
    {results : Nat → Int} {m : σ} {acts : List (Act σ)} {s : Sys ρ σ}
    (h : run (step R) (Sys.start len fd results m) acts = some s) : Kept len s := by
  have hstart : Kept len (Sys.start len fd results m : Sys ρ σ) :=
    ⟨rfl, Nat.zero_le _, rfl, Lives.nil⟩
  exact run_invariant (step_kept R hlen) hstart h

/-- The phase of the readiness futures where control is outside for good. -/
theorem Kept.accounted {len : Nat} {s : Sys ρ σ} (h : Kept len s) :
    ∃ ph, Accounted s.world.2 ph ∧ (s.pc = .dropped ∨ (∃ v, s.pc = .ready v) → ph = .none) := by
  have hstage := h.stage
  cases hpc : s.pc with
  | idle =>
      rw [hpc] at hstage
      refine ⟨_, Lives.accounted hstage, ?_⟩
      rintro (hd | ⟨v, hv⟩)
      · cases hd
      · cases hv
  | writing off n =>
      rw [hpc] at hstage
      exact ⟨_, hstage.2.1.accounted, fun _ => rfl⟩
  | ready v =>
      rw [hpc] at hstage
      exact ⟨_, hstage.2.1.accounted, fun _ => rfl⟩
  | dropped =>
      rw [hpc] at hstage
      exact ⟨_, Lives.accounted hstage, fun _ => rfl⟩

/-- The kernel has accepted all bytes iff `off` is at the end. -/
theorem Kept.sent_all_iff {len : Nat} {s : Sys ρ σ} (h : Kept len s) :
    s.sent = List.range len ↔ s.box.off = len := by
  rw [h.sent]
  constructor
  · intro he
    simpa using congrArg List.length he
  · exact congrArg List.range

/-- A hard error is returned at once. -/
theorem writeallReturn_error (R : Readiness ρ σ) (fd : Int) (b : Box ρ) {ret : Int} (m : σ)
    (hneg : ret < 0) (hintr : ret ≠ -EINTR) (hagain : ret ≠ -EAGAIN) :
    writeallReturn R fd b ret m = ((.ready ret, b), m) := by
  have hpos : ¬ ret > 0 := by omega
  rw [writeallReturn, if_neg hpos, if_neg hintr, if_neg hagain, if_pos hneg]

/-- **`write_all` sends each byte once and in order.** At every moment the kernel has accepted the bytes
    in front of `off`, a `write` gets exactly the others, and a poll that is `Ready` returns `len` iff
    the kernel has accepted all; a hard error returns its negated `errno`, and accepts nothing. A
    readiness future is polled while it is there and has not been `Ready`, and dropped once: when
    `write_all` is `Ready` or dropped, all of them have been. -/
theorem write_all_sends_once (R : Readiness ρ σ) {len : Nat} (hlen : len < 2 ^ 63) {fd : Int}
    {results : Nat → Int} {m : σ} {acts : List (Act σ)} {s : Sys ρ σ}
    (h : run (step R) (Sys.start len fd results m) acts = some s) :
    (s.sent = List.range s.box.off ∧ s.box.off ≤ len) ∧
      (∀ off n, s.pc = .writing off n → off = s.box.off ∧ n = len - off ∧ 0 < n) ∧
      (∀ v, s.pc = .ready v → (v = len ↔ s.sent = List.range len) ∧
        ∀ p, s.out = some p → s.results p = v) ∧
      (∀ ret s', ret < 0 → ret ≠ -EINTR → ret ≠ -EAGAIN → step R s (.written ret) = some s' →
        s'.pc = .ready ret ∧ s'.sent = s.sent) ∧
      PolledAlive s.world.2 ∧
      (∀ k, s.world.2.count (.dropped k) ≤ s.world.2.count (.created k) ∧
        s.world.2.count (.created k) ≤ 1) ∧
      (s.pc = .dropped ∨ (∃ v, s.pc = .ready v) →
        ∀ k, s.world.2.count (.dropped k) = s.world.2.count (.created k)) := by
  have hkept := run_kept R hlen h
  have hstage := hkept.stage
  have hlength := hkept.length
  obtain ⟨ph, hacc, hend⟩ := hkept.accounted
  refine ⟨⟨hkept.sent, hkept.bound⟩, ?_, ?_, ?_, hacc.polled, ?_, ?_⟩
  · intro off n hpc
    rw [hpc] at hstage
    obtain ⟨-, -, rfl, rfl, hrest⟩ := hstage
    refine ⟨rfl, ?_, ?_⟩
    · rw [hlength]
    · omega
  · intro v hpc
    rw [hpc] at hstage
    obtain ⟨-, -, hstored, hvalue⟩ := hstage
    refine ⟨?_, hstored⟩
    rw [hkept.sent_all_iff]
    omega
  · intro ret s' hneg hintr hagain hs
    simp only [step] at hs
    split at hs
    next off n hpc =>
      obtain ⟨-, hs⟩ := Option.ite_none_right_eq_some.mp hs
      cases hs
      rw [writeallReturn_error _ _ _ _ hneg hintr hagain]
      refine ⟨rfl, ?_⟩
      simp [Sys.enter, Int.toNat_of_nonpos (Int.le_of_lt hneg)]
    · cases hs
  · intro k
    have hcount := hacc.dropped k
    exact ⟨by omega, hacc.created k⟩
  · intro hpc k
    -- at the end no readiness future is in flight
    have hcount := hacc.dropped k
    rw [hend hpc] at hcount
    simpa [Phase.current] using hcount

/-- Readiness futures that are `Ready` when they are polled again. -/
def onceMore : Readiness Bool Unit where
  new _ m         := (false, m)
  poll polled m   := ((polled, true), m)
  drop _ m        := m

/-- Two bytes, a full socket, and the other three. -/
theorem write_all_sends_once_partial :
    ∃ s, run (step onceMore) (Sys.start 5 3 (fun _ => 0) ())
        [.poll (some 0), .written 2, .written (-EAGAIN), .poll (some 0), .written 3] = some s ∧
      s.world.2 = [.created 0, .polled 0 false, .polled 0 true, .dropped 0] ∧
      (5 = (5 : Int) ↔ s.sent = List.range 5) := by
  have hrun : (run (step onceMore) (Sys.start 5 3 (fun _ => 0) ())
      [.poll (some 0), .written 2, .written (-EAGAIN), .poll (some 0), .written 3]).map
        (fun s => (s.pc, s.world.2)) =
      some (.ready 5, [.created 0, .polled 0 false, .polled 0 true, .dropped 0]) := by
    decide +kernel
  obtain ⟨s, hs, he⟩ := Option.map_eq_some_iff.mp hrun
  obtain ⟨hpc, hlog⟩ := Prod.mk.inj he
  have hsends := write_all_sends_once onceMore (show 5 < 2 ^ 63 by omega) hs
  exact ⟨s, hs, hlog, (hsends.2.2.1 5 hpc).1⟩

end CustLib.WriteAll
