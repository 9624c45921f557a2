import CustLib.Execution.Echo
import CustLib.Execution.StateMachine

/-!
# The machines of the echo as futures of `cexec_sm`

The exchange keeps of each machine which future it awaits, and runs its state functions with a loop of
its own (`enter`). Here a machine is the `sm_box` that `smPoll` works on: its table has the state
functions in the order of the enumeration, its children are leaves, whose behaviour is left open, and
its context is the first part of the memory.

A poll of the box is then what the exchange makes of it. While the child is `Pending` the box stays as
it is (`poll_pending`). Once the child is `Ready` and dropped, the poll goes on as a poll of the box of
the machine that `enter` gives (`poll_ready`), so that every step of the exchange that a machine takes
is a part of a poll (`serverGo_polls`, `clientGo_polls`).
-/

namespace CustLib.Echo

open CustLib.Exec

variable {S ρ L F : Type}

/-! ## The box of a machine

A machine of the exchange is a state, a future and a context. In the `sm_box` the state is a number, the
future a child with a box of its own, and the context is behind a pointer. `Entered` relates the two
where `enter` has stopped.
-/

/-- The number of a state in its enumeration, or what `cexec_sm_done` returns. -/
def stateNum (num : S → Nat) : Option S → Nat
  | none   => smDone
  | some s => num s

/-- `table` has the state functions in the order of their numbers. -/
structure Numbered (table : List S) (num : S → Nat) : Prop where
  at_num : ∀ s, table[num s]? = some s
  done   : table[smDone]? = none

/-- The place for the output: 0 for `&c->n`, 1 for `&c->stream`. -/
def Awaited.out : Awaited → Option Nat
  | .stream                          => some 1
  | .io (.read _)                    => some 0
  | .io (.write _) | .io (.writeAll _) => none

/-- What `sm_poll` gets from a state function; `box` is a future that was just built. -/
def SmStep.toStep (box : Awaited → L) (num : S → Nat) (step : SmStep S) : Exec.SmStep L F S :=
  ⟨step.fut.elim .null fun a => .leaf (box a), step.fut.bind Awaited.out, stateNum num step.next⟩

/-- The environment calls the state functions on the context. -/
def Hosts (env : Env L F S (Ctx × ρ)) (states : S → Ctx → Ctx × SmStep S) (box : Awaited → L)
    (num : S → Nat) : Prop :=
  ∀ s ctx rest, env.stateFn s (ctx, rest) =
    ((states s ctx).2.toStep box num, (states s ctx).1, rest)

/-- The box of a machine whose child is in flight: the child was built in the state `s`. -/
def waiting (id : Nat) (table : List S) (num : S → Nat) (s : S) (child : Fut L F S) (a : Awaited)
    (next : Option S) : Fut L F S :=
  .sm id table (num s) child a.out (stateNum num next) true

/-- The box of a machine that `enter` has stopped: at a child that was just built, as the node `i`, or
    behind the table. -/
inductive Entered (id : Nat) (table : List S) (num : S → Nat) (box : Awaited → L) (i : Nat) :
    Party S → Fut L F S → Prop
  | waits {ctx s a next} : Entered id table num box i ⟨ctx, some a, next⟩
      (waiting id table num s (.leaf i (box a)) a next)
  | done {ctx cur out next} : Entered id table num box i ⟨ctx, none, none⟩
      (.sm id table smDone cur out next false)

/-! ## The loop

One round of `sm_poll` at the entry of a state: it goes on when the state awaits nothing, and otherwise
has the child in flight, in the same round. By induction the loop is `enter`.
-/

section Loop

variable {env : Env L F S (Ctx × ρ)} {states : S → Ctx → Ctx × SmStep S} {box : Awaited → L}
  {num : S → Nat} {table : List S} {poll : Poller L F S (Ctx × ρ)} {id : Nat} {wk : TaskId}

variable (henv : Hosts env states box num) (hnum : Numbered table num) {s : S} {ctx ctx' : Ctx}
  {next' : Option S} {rest : ρ}

include henv hnum in
/-- A state that awaits nothing takes one round. -/
theorem smPoll_null (hs : states s ctx = (ctx', ⟨none, next'⟩)) (cur : Fut L F S)
    (out : Option Nat) (curNext n : Nat) {w : World (Ctx × ρ)} (hmem : w.mem = (ctx, rest)) :
    smPoll env poll id table wk (n + 1) (num s) cur out curNext false w =
      smPoll env poll id table wk n (stateNum num next') .null none (stateNum num next') false
        { w with mem := (ctx', rest) } := by
  have hfn := henv s ctx rest
  rw [hs, ← hmem] at hfn
  rw [smPoll_enter (hnum.at_num s)]
  simp only [Eff.bind_run, onMem, Eff.move, hfn]
  rfl

include henv hnum in
/-- A state that awaits a future has it in flight in the same round. -/
theorem smPoll_waiting {a : Awaited} (hs : states s ctx = (ctx', ⟨some a, next'⟩))
    (cur : Fut L F S) (out : Option Nat) (curNext n : Nat) (o : Option Nat)
    {w : World (Ctx × ρ)} (hmem : w.mem = (ctx, rest)) :
    smPoll env poll id table wk (n + 1) (num s) cur out curNext false w =
      nodePoll env poll (n + 1) (waiting id table num s (.leaf w.next (box a)) a next') wk o
        { w with mem := (ctx', rest), next := w.next + 1, log := w.log ++ [.born w.next] } := by
  have hfn := henv s ctx rest
  rw [hs, ← hmem] at hfn
  rw [smPoll_enter (hnum.at_num s)]
  simp only [Eff.bind_run, onMem, Eff.move, hfn]
  rfl

include henv hnum in
/-- The loop of `sm_poll` is `enter`, up to the first child: after `k` rounds without a child it has
    come to the box of the machine that `enter` gives. -/
theorem smPoll_eq_enter {fuel : Nat} {next : Option S} {p : Party S}
    (h : enter states fuel ctx next = some p) (cur : Fut L F S) (out : Option Nat) (curNext : Nat)
    {w : World (Ctx × ρ)} (hmem : w.mem = (ctx, rest)) :
    ∃ k ≤ fuel, ∃ f w', Entered id table num box w.next p f ∧ w'.mem = (p.ctx, rest) ∧
      ∀ n o, smPoll env poll id table wk (k + n + 1) (stateNum num next) cur out curNext false w =
        nodePoll env poll (n + 1) f wk o w' := by
  induction fuel generalizing ctx next cur out curNext w with
  | zero =>
      cases next with
      | none =>
          cases h
          exact ⟨0, le_rfl, _, w, .done, hmem, fun n o => by rw [Nat.zero_add]; rfl⟩
      | some s => cases h
  | succ fuel ih =>
      cases next with
      | none =>
          cases h
          exact ⟨0, Nat.zero_le _, _, w, .done, hmem, fun n o => by rw [Nat.zero_add]; rfl⟩
      | some s =>
          simp only [enter] at h
          rcases hs : states s ctx with ⟨ctx', fut, next'⟩
          rw [hs] at h
          cases fut with
          | none =>
              obtain ⟨k, hk, f, w', hbox, hmem', hloop⟩ := ih h .null none (stateNum num next')
                (w := { w with mem := (ctx', rest) }) rfl
              refine ⟨k + 1, Nat.succ_le_succ hk, f, w', hbox, hmem', fun n o => ?_⟩
              rw [← hloop n o, Nat.add_right_comm k 1]
              exact smPoll_null henv hnum hs cur out curNext _ hmem
          | some a =>
              cases h
              refine ⟨0, Nat.zero_le _, _,
                { w with mem := (ctx', rest), next := w.next + 1, log := w.log ++ [.born w.next] },
                .waits (s := s), rfl, fun n o => ?_⟩
              rw [Nat.zero_add]
              exact smPoll_waiting henv hnum hs cur out curNext n o hmem

/-! ## The poll of a box

What the rest of the program sees of a machine is its polls. Each begins with the child in flight.
-/

variable {child child' : Fut L F S} {a : Awaited} {next : Option S} {w w₁ w₂ : World (Ctx × ρ)}

include hnum in
/-- **A poll while the child is `Pending`** leaves the machine where it is. -/
theorem poll_pending (hchild : child.isNull = false)
    (hpoll : poll child wk a.out w = (some (false, child'), w₁)) (n : Nat) (o : Option Nat) :
    nodePoll env poll (n + 1) (waiting id table num s child a next) wk o w =
      (some (false, waiting id table num s child' a next), w₁) := by
  refine (congrFun (smPoll_inFlight (hnum.at_num s) hchild _ _) w).trans ?_
  rw [Eff.bind_run, hpoll]
  rfl

include henv hnum in
/-- **A poll that finds the child `Ready`** drops it, and goes on as a poll of the machine that
    `enter` gives. -/
theorem poll_ready (hchild : child.isNull = false)
    (hpoll : poll child wk a.out w = (some (true, child'), w₁))
    (hdrop : futureDrop env child' w₁ = (some (), w₂)) (hmem : w₂.mem = (ctx, rest)) {fuel : Nat}
    {p : Party S} (h : enter states fuel ctx next = some p) :
    ∃ k ≤ fuel, ∃ f w', Entered id table num box w₂.next p f ∧ w'.mem = (p.ctx, rest) ∧
      ∀ n o, nodePoll env poll (k + n + 2) (waiting id table num s child a next) wk o w =
        nodePoll env poll (n + 1) f wk o w' := by
  obtain ⟨k, hk, f, w', hbox, hmem', hloop⟩ :=
    smPoll_eq_enter henv hnum h child' a.out (stateNum num next) hmem
  refine ⟨k, hk, f, w', hbox, hmem', fun n o => ?_⟩
  rw [← hloop n o]
  refine (congrFun (smPoll_inFlight (hnum.at_num s) hchild _ _) w).trans ?_
  rw [Eff.bind_run, hpoll]
  simp only [if_true, Eff.bind_run, hdrop]

end Loop

/-! ## Server and client

The tables of the test, in the order of the two enumerations. `cexec_sm_in` is given the first state of
each.
-/

def Sv.num : Sv → Nat
  | .accept      => 0
  | .afterAccept => 1
  | .read        => 2
  | .afterRead   => 3
  | .echo        => 4

def Cl.num : Cl → Nat
  | .connect      => 0
  | .afterConnect => 1
  | .write        => 2
  | .read         => 3
  | .verify       => 4

def serverTable : List Sv := [.accept, .afterAccept, .read, .afterRead, .echo]

def clientTable : List Cl := [.connect, .afterConnect, .write, .read, .verify]

/-- The tables are in the order of their numbers. -/
theorem serverTable_numbered : Numbered serverTable Sv.num :=
  ⟨fun s => by cases s <;> rfl, List.getElem?_eq_none (by decide)⟩

theorem clientTable_numbered : Numbered clientTable Cl.num :=
  ⟨fun s => by cases s <;> rfl, List.getElem?_eq_none (by decide)⟩

/-- The exchange starts with both machines in their first polls, at the states that `cexec_sm_in` was
    given. -/
theorem start_entered (dsv dcl : IoDriver) (sfd cfd : Int) :
    let s := Sys.start dsv dcl sfd cfd
    enter serverStates 5 s.server.ctx (some .accept) = some s.server ∧
      enter clientStates 5 s.client.ctx (some .connect) = some s.client := ⟨rfl, rfl⟩

section Exchange

variable {box : Awaited → L} {id : Nat} {wk : TaskId} {a : Awaited} {ctx : Ctx} {rest : ρ}
  {sys sys' : Sys} {up down : Conn}

/-- **The server's steps are polls of its box**, from the moment its child is `Ready` to the next
    child. -/
theorem serverGo_polls {env : Env L F Sv (Ctx × ρ)} {poll : Poller L F Sv (Ctx × ρ)}
    {child child' : Fut L F Sv} {w w₁ w₂ : World (Ctx × ρ)}
    (henv : Hosts env serverStates box Sv.num) (s : Sv) (hchild : child.isNull = false)
    (hpoll : poll child wk a.out w = (some (true, child'), w₁))
    (hdrop : futureDrop env child' w₁ = (some (), w₂)) (hmem : w₂.mem = (ctx, rest))
    (h : sys.serverGo ctx up down = some sys') :
    ∃ k ≤ 5, ∃ f w', Entered id serverTable Sv.num box w₂.next sys'.server f ∧
      w'.mem = (sys'.server.ctx, rest) ∧
      ∀ n o, nodePoll env poll (k + n + 2)
          (waiting id serverTable Sv.num s child a sys.server.next) wk o w =
        nodePoll env poll (n + 1) f wk o w' := by
  obtain ⟨p, up', down', henter, hbuild, rfl⟩ := serverGo_cases h
  exact poll_ready henv serverTable_numbered hchild hpoll hdrop hmem henter

/-- **The client's steps are polls of its box.** -/
theorem clientGo_polls {env : Env L F Cl (Ctx × ρ)} {poll : Poller L F Cl (Ctx × ρ)}
    {child child' : Fut L F Cl} {w w₁ w₂ : World (Ctx × ρ)}
    (henv : Hosts env clientStates box Cl.num) (s : Cl) (hchild : child.isNull = false)
    (hpoll : poll child wk a.out w = (some (true, child'), w₁))
    (hdrop : futureDrop env child' w₁ = (some (), w₂)) (hmem : w₂.mem = (ctx, rest))
    (h : sys.clientGo ctx up down = some sys') :
    ∃ k ≤ 5, ∃ f w', Entered id clientTable Cl.num box w₂.next sys'.client f ∧
      w'.mem = (sys'.client.ctx, rest) ∧
      ∀ n o, nodePoll env poll (k + n + 2)
          (waiting id clientTable Cl.num s child a sys.client.next) wk o w =
        nodePoll env poll (n + 1) f wk o w' := by
  obtain ⟨p, up', down', henter, hbuild, rfl⟩ := clientGo_cases h
  exact poll_ready henv clientTable_numbered hchild hpoll hdrop hmem henter

end Exchange

end CustLib.Echo
