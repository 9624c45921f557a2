import CustLib.Lib.Eff
import CustLib.Lib.Custody
import CustLib.Execution.Executor

/-!
# `cust_execution::future`, `cust_execution::combinators`

Futures are trees. A node is a leaf, whose behaviour is a parameter, or the box of a combinator. A
combinator owns its children, polls them with the waker it was given and drops them; each does its own
bookkeeping of which of them it still owns. The functions of `combinators.c` take the polling of a
child as an argument; `futurePoll` is the call through the vtable that ties them together. It is cut
off after a number of nested calls, and so is the loop of `smPoll`; a tree without state machines
needs no more calls than it is high (`futurePoll_total`).

Nodes are numbered in the order of their birth, so a box is never mistaken for a later one. `log` is
the history of their births, polls, completions and drops, which nothing in the model reads.
-/

namespace CustLib.Exec

/-! ## Trees

The boxes of `combinators.c`: `map_box`, `then_box`, `join_box`, `select_box` and `sm_box`, with the
children as trees. The constructors of `Expr` are the calls that build them.
-/

/-- A future: the boxes behind its `self` pointer. `L` are the states of leaves, `F` the functions
    for `map`, `K` the state functions. A dropped child stays in its box until the box is freed. -/
inductive Fut (L F K : Type) where
  | null
  | leaf (id : Nat) (l : L)
  | map (id : Nat) (inner : Fut L F K) (fn : Option F)
  | then_ (id : Nat) (a b : Fut L F K) (stage : Nat)
  | join2 (id : Nat) (a b : Fut L F K) (aSize : Nat) (aDone bDone : Bool)
  | select2 (id : Nat) (a b : Fut L F K)
  | sm (id : Nat) (states : List K) (state : Nat) (cur : Fut L F K) (curOut : Option Nat)
      (curNext : Nat) (haveCur : Bool)
  deriving DecidableEq, Repr

/-- How a program builds a future: the calls of the constructors. `null` is a leaf that could not be
    built. -/
inductive Expr (L F K : Type) where
  | null
  | leaf (l : L)
  | map (inner : Expr L F K) (fn : Option F)
  | then_ (a b : Expr L F K)
  | join2 (a : Expr L F K) (aSize : Nat) (b : Expr L F K)
  | select2 (a b : Expr L F K)
  | sm (states : List K) (start : Nat)
  deriving DecidableEq, Repr

/-- `struct cexec_step`, with the future that the state function builds. -/
structure SmStep (L F K : Type) where
  fut  : Expr L F K
  out  : Option Nat
  next : Nat

/-- The code around the combinators: the leaves, the functions the program passes, and the
    allocator. `σ` is the memory they work on. -/
structure Env (L F K σ : Type) where
  leafPoll : Nat → L → TaskId → Option Nat → σ → (Bool × L) × σ
  leafDrop : Nat → L → σ → σ
  mapFn    : F → Nat → σ → σ
  stateFn  : K → σ → SmStep L F K × σ
  refuses  : Nat → Bool

/-- The memory, the number of the next node, the number of allocations asked for, and the
    history. -/
structure World (σ : Type) where
  mem      : σ
  next     : Nat
  requests : Nat
  log      : List Custody.Event

variable {L F K σ : Type}

/-! ## What the program does to the world

The four effects of the code: events in the history, work on the memory, the birth of a node, and a
request to the allocator. A program is an `Eff` over a `World`; that it gets stuck means a null vtable
or a cut-off.
-/

def note (e : Custody.Event) : Eff (World σ) Unit :=
  Eff.modify fun w => { w with log := w.log ++ [e] }

def onMem {α : Type} (f : σ → α × σ) : Eff (World σ) α :=
  Eff.move fun w => ((f w.mem).1, { w with mem := (f w.mem).2 })

def birth : Eff (World σ) Nat :=
  Eff.move fun w => (w.next, { w with next := w.next + 1, log := w.log ++ [.born w.next] })

def request (env : Env L F K σ) : Eff (World σ) Bool :=
  Eff.move fun w => (!env.refuses w.requests, { w with requests := w.requests + 1 })

theorem wp_note {e : Custody.Event} {Q : Unit → World σ → Prop} {E : World σ → Prop} {w : World σ} :
    Eff.wp (note e) Q E w ↔ Q () { w with log := w.log ++ [e] } := Iff.rfl

theorem wp_onMem {α : Type} {f : σ → α × σ} {Q : α → World σ → Prop} {E : World σ → Prop}
    {w : World σ} :
    Eff.wp (onMem f) Q E w ↔ Q (f w.mem).1 { w with mem := (f w.mem).2 } := Iff.rfl

/-! ## Drops

`cexec_future_drop` goes through the vtable: `map_drop`, `then_drop`, `join_drop`, `select_drop` and
`sm_drop` drop the children that the node still owns. Which ones these are is told by `stage`, `a_done`,
`b_done` and `have_cur`.
-/

/-- `cexec_future_drop`, with the `drop` functions of the vtables. -/
def futureDrop (env : Env L F K σ) : Fut L F K → Eff (World σ) Unit
  | .null => pure ()
  | .leaf id l => do
    note (.released id)
    onMem fun m => ((), env.leafDrop id l m)
  | .map id inner _ => do
    note (.released id)
    futureDrop env inner
  | .then_ id a b stage => do
    note (.released id)
    Eff.when (stage = 0) (futureDrop env a)
    futureDrop env b
  | .join2 id a b _ aDone bDone => do
    note (.released id)
    Eff.when (!aDone) (futureDrop env a)
    Eff.when (!bDone) (futureDrop env b)
  | .select2 id a b => do
    note (.released id)
    futureDrop env a
    futureDrop env b
  | .sm id _ _ cur _ _ haveCur => do
    note (.released id)
    -- dropping a null `cur` does nothing
    Eff.when haveCur (futureDrop env cur)

/-! ## Constructors

`cexec_map_in`, `cexec_then_in`, `cexec_join2_in`, `cexec_select2_in` and `cexec_sm_in`. A constructor
that is refused its box drops its children and returns the null future; a child that is null is stored
as it is. `build` evaluates an expression of constructor calls from the inside out.
-/

def mapIn (env : Env L F K σ) (inner : Fut L F K) (fn : Option F) :
    Eff (World σ) (Fut L F K) := do
  if ← request env then
    return .map (← birth) inner fn
  futureDrop env inner
  return .null

/-- A constructor that takes two children. -/
def pairIn (env : Env L F K σ) (box : Nat → Fut L F K → Fut L F K → Fut L F K) (a b : Fut L F K) :
    Eff (World σ) (Fut L F K) := do
  if ← request env then
    return box (← birth) a b
  futureDrop env a
  futureDrop env b
  return .null

def thenIn (env : Env L F K σ) : Fut L F K → Fut L F K → Eff (World σ) (Fut L F K) :=
  pairIn env fun id a b => .then_ id a b 0

def join2In (env : Env L F K σ) (aSize : Nat) :
    Fut L F K → Fut L F K → Eff (World σ) (Fut L F K) :=
  pairIn env fun id a b => .join2 id a b aSize false false

def select2In (env : Env L F K σ) : Fut L F K → Fut L F K → Eff (World σ) (Fut L F K) :=
  pairIn env .select2

def smIn (env : Env L F K σ) (states : List K) (start : Nat) : Eff (World σ) (Fut L F K) := do
  if ← request env then
    return .sm (← birth) states start .null none 0 false
  return .null

def build (env : Env L F K σ) : Expr L F K → Eff (World σ) (Fut L F K)
  | .null           => pure .null
  | .leaf l         => do return .leaf (← birth) l
  | .map inner fn   => do mapIn env (← build env inner) fn
  | .then_ a b      => do thenIn env (← build env a) (← build env b)
  | .join2 a size b => do join2In env size (← build env a) (← build env b)
  | .select2 a b    => do select2In env (← build env a) (← build env b)
  | .sm states start => smIn env states start

/-! ## Polls

`map_poll`, `then_poll`, `join_poll`, `select_poll` and `sm_poll` of `combinators.c`. They call a child
through its vtable, so the polling of children is an argument of each of them; `futurePoll` closes the
knot. A child that has answered `Ready` stays in its box, and it is the node's own bookkeeping that
keeps it from being polled or dropped again.
-/

def Fut.isNull : Fut L F K → Bool
  | .null => true
  | _     => false

/-- The number of the node a future points to. -/
def Fut.id? : Fut L F K → Option Nat
  | .null => none
  | .leaf id _ | .map id _ _ | .then_ id _ _ _ | .join2 id _ _ _ _ _ | .select2 id _ _
  | .sm id _ _ _ _ _ _ => some id

/-- Polling: the future, the waker, the place for the output; whether it is `Ready`, and what has
    become of the future. -/
abbrev Poller (L F K σ : Type) := Fut L F K → TaskId → Option Nat → Eff (World σ) (Bool × Fut L F K)

/-- The transform of `map_poll`: only of a `Ready` output, and if there is one. -/
def applyFn (env : Env L F K σ) : Bool → Option F → Option Nat → Eff (World σ) Unit
  | true, some f, some p => onMem fun m => ((), env.mapFn f p m)
  | _, _, _              => pure ()

def mapPoll (env : Env L F K σ) (poll : Poller L F K σ) (id : Nat) (inner : Fut L F K)
    (fn : Option F) (w : TaskId) (out : Option Nat) : Eff (World σ) (Bool × Fut L F K) := do
  let (st, inner) ← poll inner w out
  applyFn env st fn out
  return (st, .map id inner fn)

def thenPoll (env : Env L F K σ) (poll : Poller L F K σ) (id : Nat) (a b : Fut L F K) (stage : Nat)
    (w : TaskId) (out : Option Nat) : Eff (World σ) (Bool × Fut L F K) := do
  if stage = 0 then
    let (st, a) ← poll a w none
    if !st then
      return (false, .then_ id a b 0)
    futureDrop env a
    let (st, b) ← poll b w out
    return (st, .then_ id a b 1)
  else
    let (st, b) ← poll b w out
    return (st, .then_ id a b stage)

/-- One child of `join_poll`. -/
def joinArm (env : Env L F K σ) (poll : Poller L F K σ) (child : Fut L F K) (done : Bool)
    (w : TaskId) (out : Option Nat) : Eff (World σ) (Bool × Fut L F K) := do
  if done then
    return (true, child)
  let (st, child) ← poll child w out
  Eff.when st (futureDrop env child)
  return (st, child)

def joinPoll (env : Env L F K σ) (poll : Poller L F K σ) (id : Nat) (a b : Fut L F K) (aSize : Nat)
    (aDone bDone : Bool) (w : TaskId) (out : Option Nat) : Eff (World σ) (Bool × Fut L F K) := do
  let (aDone, a) ← joinArm env poll a aDone w out
  let (bDone, b) ← joinArm env poll b bDone w (out.map (· + aSize))
  return (aDone && bDone, .join2 id a b aSize aDone bDone)

def selectPoll (poll : Poller L F K σ) (id : Nat) (a b : Fut L F K) (w : TaskId)
    (out : Option Nat) : Eff (World σ) (Bool × Fut L F K) := do
  let (st, a) ← poll a w out
  if st then
    return (true, .select2 id a b)
  let (st, b) ← poll b w out
  return (st, .select2 id a b)

/-- The child of a state: the one in flight, or the one that the state function builds. -/
def enterState (env : Env L F K σ) (k : K) (cur : Fut L F K) (curOut : Option Nat) (curNext : Nat)
    (haveCur : Bool) : Eff (World σ) (Fut L F K × Option Nat × Nat) := do
  if haveCur then
    return (cur, curOut, curNext)
  let step ← onMem (env.stateFn k)
  return (← build env step.fut, step.out, step.next)

/-- `sm_poll`; its loop is cut off after `n` rounds. -/
def smPoll (env : Env L F K σ) (poll : Poller L F K σ) (id : Nat) (states : List K) (w : TaskId) :
    Nat → Nat → Fut L F K → Option Nat → Nat → Bool → Eff (World σ) (Bool × Fut L F K)
  | 0, _, _, _, _, _ => Eff.stuck
  | n + 1, state, cur, curOut, curNext, haveCur =>
    match states[state]? with
    | none   => return (true, .sm id states state cur curOut curNext haveCur)
    | some k => do
      let (cur, curOut, curNext) ← enterState env k cur curOut curNext haveCur
      if cur.isNull then
        smPoll env poll id states w n curNext cur curOut curNext false
      else
        let (st, cur) ← poll cur w curOut
        if !st then
          return (false, .sm id states state cur curOut curNext true)
        futureDrop env cur
        smPoll env poll id states w n curNext cur curOut curNext false

def nodePoll (env : Env L F K σ) (poll : Poller L F K σ) (rounds : Nat) : Poller L F K σ
  | .null, _, _ => Eff.stuck
  | .leaf id l, w, out => do
    let (st, l) ← onMem (env.leafPoll id l w out)
    return (st, .leaf id l)
  | .map id inner fn, w, out => mapPoll env poll id inner fn w out
  | .then_ id a b stage, w, out => thenPoll env poll id a b stage w out
  | .join2 id a b aSize aDone bDone, w, out => joinPoll env poll id a b aSize aDone bDone w out
  | .select2 id a b, w, out => selectPoll poll id a b w out
  | .sm id states state cur curOut curNext haveCur, w, _ =>
    smPoll env poll id states w rounds state cur curOut curNext haveCur

/-- `cexec_future_poll`, cut off at a call depth. There is no vtable behind the null future. -/
def futurePoll (env : Env L F K σ) : Nat → Poller L F K σ
  | 0     => fun _ _ _ => Eff.stuck
  | n + 1 => fun f w out =>
    match f.id? with
    | none    => Eff.stuck
    | some id => do
      note (.used id)
      let (st, f) ← nodePoll env (futurePoll env n) n f w out
      Eff.when st (note (.finished id))
      return (st, f)

/-! ## Trees without state machines

Such a tree has a fixed height, so its polls cannot be cut off. State machines build new children in
their polls and are treated on their own, in `CustLib.Execution.StateMachine`.
-/

/-- No null child and no state machine. -/
def Fut.Plain : Fut L F K → Prop
  | .null => False
  | .leaf _ _ => True
  | .map _ inner _ => inner.Plain
  | .then_ _ a b _ => a.Plain ∧ b.Plain
  | .join2 _ a b _ _ _ => a.Plain ∧ b.Plain
  | .select2 _ a b => a.Plain ∧ b.Plain
  | .sm _ _ _ _ _ _ _ => False

def Fut.height : Fut L F K → Nat
  | .null => 0
  | .leaf _ _ => 1
  | .map _ inner _ => inner.height + 1
  | .then_ _ a b _ => max a.height b.height + 1
  | .join2 _ a b _ _ _ => max a.height b.height + 1
  | .select2 _ a b => max a.height b.height + 1
  | .sm _ _ _ cur _ _ _ => cur.height + 1

/-- A plain tree that polls can be nested in `n` times. -/
def Fut.Fits (n : Nat) (f : Fut L F K) : Prop := f.Plain ∧ f.height ≤ n

/-- A poll of a tree, with the depth of calls that it needs. -/
def Fut.poll (env : Env L F K σ) (f : Fut L F K) (w : TaskId) (out : Option Nat) :
    Eff (World σ) (Bool × Fut L F K) := futurePoll env f.height f w out

/-- The memory at the start of a program that has no futures yet. -/
def World.start (mem : σ) : World σ := ⟨mem, 0, 0, []⟩

/-- A tree with two children fits if both do. -/
theorem fits_pair {n : Nat} {a b : Fut L F K} :
    ((a.Plain ∧ b.Plain) ∧ max a.height b.height + 1 ≤ n + 1) ↔ a.Fits n ∧ b.Fits n := by
  rw [Nat.succ_le_succ_iff, Nat.max_le, and_and_and_comm]
  rfl

/-- Drops do not get stuck. -/
theorem futureDrop_total (env : Env L F K σ) (f : Fut L F K) (w : World σ) :
    Eff.wp (futureDrop env f) (fun _ _ => True) (fun _ => False) w := by
  have hwhen : ∀ {f : Fut L F K} (c : Bool),
      (∀ w, Eff.wp (futureDrop env f) (fun _ _ => True) (fun _ => False) w) → ∀ w,
      Eff.wp (Eff.when c (futureDrop env f)) (fun _ _ => True) (fun _ => False) w := by
    intro f c h w
    rw [Eff.wp_when]
    split
    · exact h w
    · trivial
  induction f generalizing w with
  | null => trivial
  | leaf id l => trivial
  | map id inner fn ih => exact ih _
  | then_ id a b stage iha ihb =>
      rw [futureDrop, Eff.wp_bind, wp_note]
      exact Eff.wp_seq (hwhen (stage = 0) iha _) fun _ w' _ => ihb w'
  | join2 id a b aSize aDone bDone iha ihb =>
      rw [futureDrop, Eff.wp_bind, wp_note]
      exact Eff.wp_seq (hwhen (!aDone) iha _) fun _ w' _ => hwhen (!bDone) ihb w'
  | select2 id a b iha ihb =>
      rw [futureDrop, Eff.wp_bind, wp_note]
      exact Eff.wp_seq (iha _) fun _ w' _ => ihb w'
  | sm id states state cur curOut curNext haveCur ih => exact hwhen haveCur ih _

/-- **Drops keep what the `drop` functions of the leaves keep**, if it does not depend on the
    history. -/
theorem futureDrop_keeps {env : Env L F K σ} {I : World σ → Prop}
    (hlog : ∀ w e, I w → I { w with log := w.log ++ [e] })
    (hleaf : ∀ id l w, I w → I { w with mem := env.leafDrop id l w.mem }) (f : Fut L F K) :
    Eff.Keeps I (futureDrop env f) fun _ => True := by
  have hnote : ∀ e, Eff.Keeps I (note e) fun _ => True := fun e =>
    Eff.keeps_modify fun w => hlog w e
  induction f with
  | null => exact Eff.keeps_pure trivial
  | leaf id l =>
      apply Eff.keeps_bind (hnote _)
      intro _ _
      exact Eff.keeps_move fun w hw => ⟨trivial, hleaf id l w hw⟩
  | map id inner fn ih => exact Eff.keeps_bind (hnote _) fun _ _ => ih
  | then_ id a b stage iha ihb =>
      apply Eff.keeps_bind (hnote _)
      intro _ _
      exact Eff.keeps_bind (Eff.keeps_when iha) fun _ _ => ihb
  | join2 id a b aSize aDone bDone iha ihb =>
      apply Eff.keeps_bind (hnote _)
      intro _ _
      exact Eff.keeps_bind (Eff.keeps_when iha) fun _ _ => Eff.keeps_when ihb
  | select2 id a b iha ihb =>
      apply Eff.keeps_bind (hnote _)
      intro _ _
      exact Eff.keeps_bind iha fun _ _ => ihb
  | sm id states state cur curOut curNext haveCur ih =>
      exact Eff.keeps_bind (hnote _) fun _ _ => Eff.keeps_when ih

/-- Polls of trees that fit return, and the tree still fits. -/
def Returns (n : Nat) (poll : Poller L F K σ) : Prop :=
  ∀ f wk out w, f.Fits n → Eff.wp (poll f wk out) (fun r _ => r.2.Fits n) (fun _ => False) w

theorem joinArm_returns {env : Env L F K σ} {poll : Poller L F K σ} {n : Nat} (hp : Returns n poll)
    {child : Fut L F K} (h : child.Fits n) (done : Bool) (wk : TaskId) (out : Option Nat)
    (w : World σ) :
    Eff.wp (joinArm env poll child done wk out) (fun r _ => r.2.Fits n) (fun _ => False) w := by
  unfold joinArm
  cases done with
  | true => exact h
  | false =>
      apply Eff.wp_seq (hp child wk out w h)
      rintro ⟨st, child'⟩ w' h'
      refine Eff.wp_seq (P := fun _ _ => True) ?_ fun _ _ _ => h'
      rw [Eff.wp_when]
      split
      · exact futureDrop_total env child' w'
      · trivial

/-- The polls of all nodes return, if those of their children do. -/
theorem nodePoll_returns {env : Env L F K σ} {poll : Poller L F K σ} {n : Nat}
    (hp : Returns n poll) (rounds : Nat) : Returns (n + 1) (nodePoll env poll rounds) := by
  intro f wk out w hf
  cases f with
  | null => exact hf.1.elim
  | leaf id l => exact hf
  | map id inner fn =>
      have hinner : inner.Fits n := ⟨hf.1, Nat.le_of_succ_le_succ hf.2⟩
      apply Eff.wp_seq (hp inner wk out w hinner)
      rintro ⟨st, inner'⟩ w' h'
      refine Eff.wp_seq (P := fun _ _ => True) ?_ fun _ _ _ => ⟨h'.1, Nat.succ_le_succ h'.2⟩
      unfold applyFn
      split <;> trivial
  | then_ id a b stage =>
      obtain ⟨ha, hb⟩ := fits_pair.mp hf
      have hsecond : ∀ {a : Fut L F K} (stage : Nat) (w : World σ), a.Fits n →
          Eff.wp (do
            let (st, b) ← poll b wk out
            return (st, Fut.then_ id a b stage)) (fun r _ => r.2.Fits (n + 1)) (fun _ => False) w :=
        fun stage w ha => Eff.wp_seq (hp b wk out w hb) fun r w' h' => fits_pair.mpr ⟨ha, h'⟩
      show Eff.wp (thenPoll env poll id a b stage wk out) _ _ w
      unfold thenPoll
      split
      · apply Eff.wp_seq (hp a wk none w ha)
        rintro ⟨st, a'⟩ w' ha'
        cases st with
        | false => exact fits_pair.mpr ⟨ha', hb⟩
        | true => exact Eff.wp_seq (futureDrop_total env a' w') fun _ w'' _ => hsecond 1 w'' ha'
      · exact hsecond stage w ha
  | join2 id a b aSize aDone bDone =>
      obtain ⟨ha, hb⟩ := fits_pair.mp hf
      apply Eff.wp_seq (joinArm_returns hp ha aDone wk out w)
      intro ra w' ha'
      exact Eff.wp_seq (joinArm_returns hp hb bDone wk _ w') fun rb w'' hb' =>
        fits_pair.mpr ⟨ha', hb'⟩
  | select2 id a b =>
      obtain ⟨ha, hb⟩ := fits_pair.mp hf
      apply Eff.wp_seq (hp a wk out w ha)
      rintro ⟨st, a'⟩ w' ha'
      cases st with
      | true => exact fits_pair.mpr ⟨ha', hb⟩
      | false => exact Eff.wp_seq (hp b wk out w' hb) fun rb w'' hb' => fits_pair.mpr ⟨ha', hb'⟩
  | sm id states state cur curOut curNext haveCur => exact hf.1.elim

/-- **A tree without state machines needs no more nested calls than it is high.** -/
theorem futurePoll_total (env : Env L F K σ) (n : Nat) : Returns n (futurePoll env n) := by
  induction n with
  | zero =>
      intro f wk out w hf
      cases f <;> first | exact hf.1.elim | exact absurd hf.2 (Nat.not_succ_le_zero _)
  | succ n ih =>
      intro f wk out w hf
      unfold futurePoll
      split
      next hnull => cases f <;> first | exact hf.1.elim | cases hnull
      next id hid =>
        refine Eff.wp_seq (P := fun _ _ => True) trivial fun _ w' _ => ?_
        apply Eff.wp_seq (nodePoll_returns ih n f wk out w' hf)
        rintro ⟨st, f'⟩ w'' h''
        cases st <;> exact h''

/-! ## The cut-off

A larger bound gives the same result wherever the smaller one gave any. So statements about some bound
hold of all larger ones.
-/

def PollLe (poll poll' : Poller L F K σ) : Prop :=
  ∀ f wk out, Eff.Le (poll f wk out) (poll' f wk out)

theorem joinArm_le {env : Env L F K σ} {poll poll' : Poller L F K σ} (hp : PollLe poll poll')
    (child : Fut L F K) (done : Bool) (wk : TaskId) (out : Option Nat) :
    Eff.Le (joinArm env poll child done wk out) (joinArm env poll' child done wk out) := by
  unfold joinArm
  cases done with
  | true => exact Eff.le_refl _
  | false => exact Eff.le_bind (hp child wk out) fun _ => Eff.le_refl _

/-- More rounds do not change what a poll has returned. -/
theorem smPoll_le {env : Env L F K σ} {poll poll' : Poller L F K σ} (hp : PollLe poll poll')
    {id : Nat} {states : List K} {wk : TaskId} {n m : Nat} (hn : n ≤ m) (state : Nat)
    (cur : Fut L F K) (curOut : Option Nat) (curNext : Nat) (haveCur : Bool) :
    Eff.Le (smPoll env poll id states wk n state cur curOut curNext haveCur)
      (smPoll env poll' id states wk m state cur curOut curNext haveCur) := by
  induction n generalizing m state cur curOut curNext haveCur with
  | zero => exact Eff.stuck_le _
  | succ n ih =>
      obtain ⟨m, rfl⟩ : ∃ k, m = k + 1 := ⟨m - 1, by omega⟩
      have hn := Nat.le_of_succ_le_succ hn
      unfold smPoll
      split
      · exact Eff.le_refl _
      · apply Eff.le_bind (Eff.le_refl _)
        rintro ⟨cur', curOut', curNext'⟩
        dsimp only
        split
        · exact ih hn _ _ _ _ _
        · apply Eff.le_bind (hp _ _ _)
          rintro ⟨st, cur''⟩
          cases st with
          | false => exact Eff.le_refl _
          | true => exact Eff.le_bind (Eff.le_refl _) fun _ => ih hn _ _ _ _ _

/-- Nor does a larger depth for the children. -/
theorem nodePoll_le {env : Env L F K σ} {poll poll' : Poller L F K σ} (hp : PollLe poll poll')
    {n m : Nat} (hn : n ≤ m) : PollLe (nodePoll env poll n) (nodePoll env poll' m) := by
  intro f wk out
  cases f with
  | null => exact Eff.le_refl _
  | leaf id l => exact Eff.le_refl _
  | map id inner fn => exact Eff.le_bind (hp inner wk out) fun _ => Eff.le_refl _
  | then_ id a b stage =>
      have hsecond : ∀ (a : Fut L F K) (stage : Nat),
          Eff.Le (do
            let (st, b) ← poll b wk out
            return (st, Fut.then_ id a b stage)) (do
            let (st, b) ← poll' b wk out
            return (st, Fut.then_ id a b stage)) := fun a stage =>
        Eff.le_bind (hp b wk out) fun _ => Eff.le_refl _
      show Eff.Le (thenPoll env poll id a b stage wk out) (thenPoll env poll' id a b stage wk out)
      unfold thenPoll
      split
      · apply Eff.le_bind (hp a wk none)
        rintro ⟨st, a'⟩
        cases st with
        | false => exact Eff.le_refl _
        | true => exact Eff.le_bind (Eff.le_refl _) fun _ => hsecond a' 1
      · exact hsecond a stage
  | join2 id a b aSize aDone bDone =>
      exact Eff.le_bind (joinArm_le hp a aDone wk out) fun _ =>
        Eff.le_bind (joinArm_le hp b bDone wk _) fun _ => Eff.le_refl _
  | select2 id a b =>
      apply Eff.le_bind (hp a wk out)
      rintro ⟨st, a'⟩
      cases st with
      | true => exact Eff.le_refl _
      | false => exact Eff.le_bind (hp b wk out) fun _ => Eff.le_refl _
  | sm id states state cur curOut curNext haveCur => exact smPoll_le hp hn _ _ _ _ _

theorem futurePoll_le (env : Env L F K σ) {n m : Nat} (h : n ≤ m) :
    PollLe (futurePoll env n) (futurePoll env m) := by
  induction n generalizing m with
  | zero => exact fun f wk out => Eff.stuck_le _
  | succ n ih =>
      obtain ⟨m, rfl⟩ : ∃ k, m = k + 1 := ⟨m - 1, by omega⟩
      have hn := Nat.le_of_succ_le_succ h
      intro f wk out
      unfold futurePoll
      split
      · exact Eff.le_refl _
      · apply Eff.le_bind (Eff.le_refl _)
        intro _
        exact Eff.le_bind (nodePoll_le (ih hn) hn f wk out) fun _ => Eff.le_refl _

/-- Every depth that a tree fits gives the same poll. -/
theorem futurePoll_fits (env : Env L F K σ) {n : Nat} {f : Fut L F K} (hf : f.Fits n) (wk : TaskId)
    (out : Option Nat) (w : World σ) : futurePoll env n f wk out w = f.poll env wk out w := by
  have hself : f.Fits f.height := ⟨hf.1, Nat.le_refl _⟩
  obtain ⟨r, w', hr, -⟩ := Eff.wp_total (futurePoll_total env f.height f wk out w hself)
  rw [Fut.poll, hr]
  exact futurePoll_le env hf.2 f wk out w r w' hr

end CustLib.Exec
