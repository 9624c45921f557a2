import CustLib.Execution.Future
import Mathlib.Algebra.Group.Nat.Defs

/-!
# The state machine and its blocking interpreter

`interpret` runs a state table as a blocking program would: it calls the state function, runs the
future to completion, and goes on. The future of `cexec_sm_in` does the same work in polls, and gives
control away whenever a child is `Pending`.

Both are given the same turns. A turn is what happens while a future is not ready: the rest of the
program works on the memory, and then the future is polled again. `interpret` uses turns only inside
the wait for a child. That the machine leaves the same turns (`sm_refines_interpreter`) says that each
of its polls goes on until a child is `Pending`.
-/

namespace CustLib.Exec

variable {L F K σ : Type}

/-! ## The end of a table

`cexec_sm_done` returns the largest `u32`, an index outside of every shorter table.
-/

def smDone : Nat := 0xFFFFFFFF

/-! ## Waiting

A leaf may be `Pending` any number of times. What the rest of the program does meanwhile is given as a
list of turns, so that machine and interpreter can be run against the same surroundings.
-/

structure Turn (σ : Type) where
  rest  : σ → σ
  waker : TaskId

/-- Poll until `Ready`, with a turn after every `Pending`. Without a turn left it stays suspended,
    which is `none`. Otherwise, the last waker and the turns that are left. -/
def pollUntilReady {φ : Type} (poll : φ → TaskId → Eff (World σ) (Bool × φ)) :
    List (Turn σ) → φ → TaskId → Eff (World σ) (Option (φ × TaskId × List (Turn σ)))
  | [], f, wk => do
    let (st, f) ← poll f wk
    return if st then some (f, wk, []) else none
  | t :: ts, f, wk => do
    let (st, f) ← poll f wk
    if st then
      return some (f, wk, t :: ts)
    onMem fun m => ((), t.rest m)
    pollUntilReady poll ts f t.waker

/-! ## The two ways to run a state table

`interpret` is the blocking program that the table stands for, `driveSm` the polls of the machine. Both
get a bound on their loops, and the turns.
-/

/-- Run a child to completion, and drop it. -/
def await (env : Env L F K σ) (poll : Poller L F K σ) (out : Option Nat) (ts : List (Turn σ))
    (fut : Fut L F K) (wk : TaskId) : Eff (World σ) (Option (TaskId × List (Turn σ))) := do
  match ← pollUntilReady (fun f wk => poll f wk out) ts fut wk with
  | none => return none
  | some (fut, wk, ts) =>
    futureDrop env fut
    return some (wk, ts)

/-- Go on after a wait, unless it is suspended. -/
def andThen {α : Type} (rest : TaskId → List (Turn σ) → Eff (World σ) (Option α)) :
    Option (TaskId × List (Turn σ)) → Eff (World σ) (Option α)
  | none          => return none
  | some (wk, ts) => rest wk ts

/-- The direct interpreter of a state table; its loop is cut off after `n` states. -/
def interpret (env : Env L F K σ) (poll : Poller L F K σ) (states : List K) :
    Nat → Nat → TaskId → List (Turn σ) → Eff (World σ) (Option (TaskId × List (Turn σ)))
  | 0, _, _, _ => Eff.stuck
  | n + 1, s, wk, ts =>
    match states[s]? with
    | none   => return some (wk, ts)
    | some k => do
      let step ← onMem (env.stateFn k)
      let fut ← build env step.fut
      if fut.isNull then
        interpret env poll states n step.next wk ts
      else
        let r ← await env poll step.out ts fut wk
        andThen (interpret env poll states n step.next) r

/-- Poll the machine, through the `poll` function of its vtable, until it is `Ready`. -/
def driveSm (env : Env L F K σ) (poll : Poller L F K σ) (n : Nat) (ts : List (Turn σ))
    (f : Fut L F K) (wk : TaskId) : Eff (World σ) (Option (TaskId × List (Turn σ))) := do
  let r ← pollUntilReady (fun f wk => nodePoll env poll n f wk none) ts f wk
  return r.map Prod.snd

/-! ## One poll at a time

The loop of `sm_poll` by cases: the entry of a state, and the poll of the child that is in flight. A
`Pending` ends the poll, and the next one takes up the same child.
-/

/-- What follows a `Pending`: a turn, if there is one left. -/
def resume {α : Type} (next : List (Turn σ) → TaskId → Eff (World σ) (Option α)) :
    List (Turn σ) → Eff (World σ) (Option α)
  | []      => return none
  | t :: ts => do
    onMem fun m => ((), t.rest m)
    next ts t.waker

/-- The wait, with its first poll in front. -/
theorem pollUntilReady_eq {φ : Type} (poll : φ → TaskId → Eff (World σ) (Bool × φ))
    (ts : List (Turn σ)) (f : φ) (wk : TaskId) :
    pollUntilReady poll ts f wk = (do
      let (st, f) ← poll f wk
      if st then return some (f, wk, ts) else resume (fun ts => pollUntilReady poll ts f) ts) := by
  cases ts with
  | nil =>
      unfold pollUntilReady
      apply bind_congr
      intro r
      obtain ⟨_ | _, f'⟩ := r <;> rfl
  | cons t ts => rfl

section Steps

variable {env : Env L F K σ} {poll : Poller L F K σ} {states : List K} {n id : Nat} {wk : TaskId}
  {ts : List (Turn σ)}

/-- The wait for a child, with its first poll in front. -/
theorem await_eq (out : Option Nat) (fut : Fut L F K) : await env poll out ts fut wk = (do
    let (st, fut) ← poll fut wk out
    if st then
      futureDrop env fut
      return some (wk, ts)
    else resume (fun ts => await env poll out ts fut) ts) := by
  unfold await
  rw [pollUntilReady_eq, bind_assoc]
  apply bind_congr
  intro r
  obtain ⟨_ | _, fut'⟩ := r
  · cases ts <;> simp [resume]
  · simp

def afterPoll (env : Env L F K σ) (poll : Poller L F K σ) (n : Nat) (ts : List (Turn σ))
    (wk : TaskId) (x : Eff (World σ) (Bool × Fut L F K)) :
    Eff (World σ) (Option (TaskId × List (Turn σ))) := do
  let (st, f) ← x
  if st then return some (wk, ts) else resume (fun ts => driveSm env poll n ts f) ts

/-- A drive begins with a poll of the machine. -/
theorem driveSm_eq (f : Fut L F K) :
    driveSm env poll n ts f wk = afterPoll env poll n ts wk (nodePoll env poll n f wk none) := by
  unfold driveSm afterPoll
  rw [pollUntilReady_eq, bind_assoc]
  apply bind_congr
  intro r
  obtain ⟨_ | _, fut'⟩ := r
  · cases ts <;> simp [resume, driveSm]
  · simp

/-- The entry of a state. -/
theorem smPoll_enter {k : K} {state : Nat} (hk : states[state]? = some k) (cur : Fut L F K)
    (curOut : Option Nat) (curNext : Nat) :
    smPoll env poll id states wk (n + 1) state cur curOut curNext false = (do
      let step ← onMem (env.stateFn k)
      let fut ← build env step.fut
      if fut.isNull then smPoll env poll id states wk n step.next fut step.out step.next false
      else smPoll env poll id states wk (n + 1) state fut step.out step.next true) := by
  simp only [smPoll, hk, enterState, Bool.false_eq_true, if_false, if_true, bind_assoc, pure_bind]
  refine bind_congr fun step => bind_congr fun fut => ?_
  by_cases hnull : fut.isNull = true <;> simp [hnull]

/-- The poll of the child in flight. -/
theorem smPoll_inFlight {k : K} {state : Nat} (hk : states[state]? = some k) {cur : Fut L F K}
    (hcur : cur.isNull = false) (curOut : Option Nat) (curNext : Nat) :
    smPoll env poll id states wk (n + 1) state cur curOut curNext true = (do
      let (st, cur) ← poll cur wk curOut
      if st then
        futureDrop env cur
        smPoll env poll id states wk n curNext cur curOut curNext false
      else return (false, .sm id states state cur curOut curNext true)) := by
  simp only [smPoll, hk, enterState, if_true, pure_bind, hcur, Bool.false_eq_true, if_false]
  apply bind_congr
  intro r
  obtain ⟨_ | _, cur'⟩ := r <;> rfl

end Steps

/-! ## The child in flight is not null

The loop of `sm_poll` tells a state that awaits something by whether its future is null. A future that
has been polled is not null.
-/

/-- Polls leave a future that is not null. -/
def Solid (poll : Poller L F K σ) : Prop :=
  ∀ f wk out w, Eff.wp (poll f wk out) (fun r _ => r.2.isNull = false) (fun _ => True) w

/-- The loop of `sm_poll` returns the machine, whatever it goes through. -/
theorem smPoll_solid (env : Env L F K σ) (poll : Poller L F K σ) (id : Nat) (states : List K)
    (wk : TaskId) (n state : Nat) (cur : Fut L F K) (curOut : Option Nat) (curNext : Nat)
    (haveCur : Bool) (w : World σ) :
    Eff.wp (smPoll env poll id states wk n state cur curOut curNext haveCur)
      (fun r _ => r.2.isNull = false) (fun _ => True) w := by
  induction n generalizing state cur curOut curNext haveCur w with
  | zero => trivial
  | succ n ih =>
      unfold smPoll
      split
      · rfl
      · apply Eff.wp_seq Eff.wp_trivial
        intro r w' _
        dsimp only
        split
        · apply ih
        · apply Eff.wp_seq Eff.wp_trivial
          intro r' w'' _
          obtain ⟨_ | _, cur'⟩ := r'
          · rfl
          · exact Eff.wp_seq Eff.wp_trivial fun _ w''' _ => ih _ _ _ _ _ w'''

theorem nodePoll_solid (env : Env L F K σ) (poll : Poller L F K σ) (n : Nat) :
    Solid (nodePoll env poll n) := by
  intro f wk out w
  cases f with
  | null => trivial
  | leaf id l => rfl
  | map id inner fn =>
      apply Eff.wp_seq Eff.wp_trivial
      intro r w' _
      exact Eff.wp_seq Eff.wp_trivial fun _ _ _ => rfl
  | then_ id a b stage =>
      show Eff.wp (thenPoll env poll id a b stage wk out) _ _ w
      unfold thenPoll
      split
      · apply Eff.wp_seq Eff.wp_trivial
        intro r w' _
        obtain ⟨_ | _, a'⟩ := r
        · rfl
        · apply Eff.wp_seq Eff.wp_trivial
          intro _ w'' _
          exact Eff.wp_seq Eff.wp_trivial fun _ _ _ => rfl
      · exact Eff.wp_seq Eff.wp_trivial fun _ _ _ => rfl
  | join2 id a b aSize aDone bDone =>
      apply Eff.wp_seq Eff.wp_trivial
      intro ra w' _
      exact Eff.wp_seq Eff.wp_trivial fun rb _ _ => rfl
  | select2 id a b =>
      apply Eff.wp_seq Eff.wp_trivial
      intro r w' _
      obtain ⟨_ | _, a'⟩ := r
      · exact Eff.wp_seq Eff.wp_trivial fun _ _ _ => rfl
      · rfl
  | sm id states state cur curOut curNext haveCur => apply smPoll_solid

theorem futurePoll_solid (env : Env L F K σ) (n : Nat) : Solid (futurePoll env n) := by
  intro f wk out w
  cases n with
  | zero => trivial
  | succ n =>
      unfold futurePoll
      split
      · trivial
      · apply Eff.wp_seq Eff.wp_trivial
        intro _ w' _
        apply Eff.wp_seq (nodePoll_solid env _ n f wk out w')
        intro r w'' hr
        exact Eff.wp_seq Eff.wp_trivial fun _ _ _ => hr

/-! ## The cut-off of the interpreter

As for polls: a larger bound gives the same run.
-/

section CutOff

variable {env : Env L F K σ} {poll poll' : Poller L F K σ}

theorem andThen_le {α : Type} {f g : TaskId → List (Turn σ) → Eff (World σ) (Option α)}
    (h : ∀ wk ts, Eff.Le (f wk ts) (g wk ts)) (r : Option (TaskId × List (Turn σ))) :
    Eff.Le (andThen f r) (andThen g r) := by
  cases r with
  | none => exact Eff.le_refl _
  | some r => exact h r.1 r.2

theorem pollUntilReady_le {φ : Type} {p q : φ → TaskId → Eff (World σ) (Bool × φ)}
    (h : ∀ f wk, Eff.Le (p f wk) (q f wk)) (ts : List (Turn σ)) (f : φ) (wk : TaskId) :
    Eff.Le (pollUntilReady p ts f wk) (pollUntilReady q ts f wk) := by
  induction ts generalizing f wk with
  | nil => exact Eff.le_bind (h f wk) fun _ => Eff.le_refl _
  | cons t ts ih =>
      apply Eff.le_bind (h f wk)
      intro r
      obtain ⟨_ | _, f'⟩ := r
      · exact Eff.le_bind (Eff.le_refl _) fun _ => ih f' t.waker
      · exact Eff.le_refl _

/-- More rounds do not change what has terminated. -/
theorem interpret_le (hp : PollLe poll poll') {states : List K} {n m : Nat} (hn : n ≤ m) (s : Nat)
    (wk : TaskId) (ts : List (Turn σ)) :
    Eff.Le (interpret env poll states n s wk ts) (interpret env poll' states m s wk ts) := by
  induction n generalizing m s wk ts with
  | zero => exact Eff.stuck_le _
  | succ n ih =>
      obtain ⟨m, rfl⟩ : ∃ k, m = k + 1 := ⟨m - 1, by omega⟩
      have hn := Nat.le_of_succ_le_succ hn
      unfold interpret
      split
      · exact Eff.le_refl _
      · refine Eff.le_bind (Eff.le_refl _) fun step => Eff.le_bind (Eff.le_refl _) fun fut => ?_
        split
        · exact ih hn _ _ _
        · refine Eff.le_bind ?_ fun r => andThen_le (fun wk ts => ih hn _ wk ts) r
          exact Eff.le_bind (pollUntilReady_le (fun f wk => hp f wk _) ts fut wk)
            fun _ => Eff.le_refl _

end CutOff

/-! ## The simulation

Both directions, by induction on the bound of one side. In the middle of a wait the machine keeps its
child in the box and the interpreter waits inside `await`; the two meet again at the entry of the next
state.
-/

section Simulation

variable {env : Env L F K σ} {poll : Poller L F K σ} {states : List K} {id : Nat}

/-- The wait for the child in flight, when `rest` is what the machine does after it. -/
theorem afterPoll_inFlight {k : K} {state : Nat} (hk : states[state]? = some k) {n : Nat}
    {ts : List (Turn σ)} {wk : TaskId} {m : Nat} {cur : Fut L F K} (hcur : cur.isNull = false)
    (curOut : Option Nat) (curNext : Nat) :
    afterPoll env poll n ts wk
      (smPoll env poll id states wk (m + 1) state cur curOut curNext true) = (do
        let (st, cur) ← poll cur wk curOut
        if st then
          futureDrop env cur
          afterPoll env poll n ts wk (smPoll env poll id states wk m curNext cur curOut curNext false)
        else
          resume (fun ts wk => afterPoll env poll n ts wk
            (smPoll env poll id states wk n state cur curOut curNext true)) ts) := by
  rw [smPoll_inFlight hk hcur, afterPoll, bind_assoc]
  apply bind_congr
  intro r
  obtain ⟨_ | _, cur'⟩ := r
  · simp only [Bool.false_eq_true, if_false, pure_bind]
    congr 1
    funext ts wk
    exact driveSm_eq _
  · simp [afterPoll]

theorem resume_le {α : Type} {f g : List (Turn σ) → TaskId → Eff (World σ) (Option α)}
    {ts : List (Turn σ)} (h : ∀ t ts', ts = t :: ts' → Eff.Le (f ts' t.waker) (g ts' t.waker)) :
    Eff.Le (resume f ts) (resume g ts) := by
  cases ts with
  | nil => exact Eff.le_refl _
  | cons t ts => exact Eff.le_bind (Eff.le_refl _) fun _ => h t ts rfl

/-- The interpreter's side of `afterPoll_inFlight`. -/
theorem await_inFlight {ts : List (Turn σ)} {wk : TaskId} (m : Nat) (cur : Fut L F K)
    (curOut : Option Nat) (curNext : Nat) :
    (do
      let r ← await env poll curOut ts cur wk
      andThen (interpret env poll states m curNext) r) = (do
        let (st, cur) ← poll cur wk curOut
        if st then
          futureDrop env cur
          interpret env poll states m curNext wk ts
        else
          resume (fun ts wk => do
            let r ← await env poll curOut ts cur wk
            andThen (interpret env poll states m curNext) r) ts) := by
  rw [await_eq, bind_assoc]
  apply bind_congr
  intro r
  obtain ⟨_ | _, cur'⟩ := r
  · cases ts <;> simp [resume, andThen]
  · simp [andThen]

/-- One poll of the machine, when what it does after a turn is known. The induction is on the rounds of
    the loop of `smPoll`. -/
theorem poll_le_interpret (hp : Solid poll) {n c : Nat} {ts : List (Turn σ)}
    (hturn : ∀ t ts', ts = t :: ts' → ∀ k state cur curOut curNext, states[state]? = some k →
      cur.isNull = false → Eff.Le
        (afterPoll env poll n ts' t.waker
          (smPoll env poll id states t.waker n state cur curOut curNext true))
        (do
          let r ← await env poll curOut ts' cur t.waker
          andThen (interpret env poll states c curNext) r))
    (wk : TaskId) (m : Nat) :
    (∀ state cur curOut curNext, Eff.Le
      (afterPoll env poll n ts wk (smPoll env poll id states wk m state cur curOut curNext false))
      (interpret env poll states (m + c) state wk ts)) ∧
    ∀ k state cur curOut curNext, states[state]? = some k → cur.isNull = false → Eff.Le
      (afterPoll env poll n ts wk (smPoll env poll id states wk (m + 1) state cur curOut curNext true))
      (do
        let r ← await env poll curOut ts cur wk
        andThen (interpret env poll states (m + c) curNext) r) := by
  -- a child in flight is finished by a machine that can enter the next state
  have hinFlight : ∀ m, (∀ state cur curOut curNext, Eff.Le
      (afterPoll env poll n ts wk (smPoll env poll id states wk m state cur curOut curNext false))
      (interpret env poll states (m + c) state wk ts)) →
      ∀ k state cur curOut curNext, states[state]? = some k → cur.isNull = false → Eff.Le
      (afterPoll env poll n ts wk (smPoll env poll id states wk (m + 1) state cur curOut curNext true))
      (do
        let r ← await env poll curOut ts cur wk
        andThen (interpret env poll states (m + c) curNext) r) := by
    intro m henter k state cur curOut curNext hk hcur
    rw [afterPoll_inFlight hk hcur, await_inFlight]
    apply Eff.le_bind_post (hp cur wk curOut)
    intro r hr
    obtain ⟨_ | _, cur'⟩ := r
    · simp only [Bool.false_eq_true, if_false]
      apply resume_le
      intro t ts' hts
      apply (hturn t ts' hts k state cur' curOut curNext hk hr).trans
      refine Eff.le_bind (Eff.le_refl _) fun r => andThen_le (fun wk ts => ?_) r
      exact interpret_le (fun _ _ _ => Eff.le_refl _) (Nat.le_add_left c m) _ _ _
    · exact Eff.le_bind (Eff.le_refl _) fun _ => henter _ _ _ _
  induction m with
  | zero =>
      have hstuck : ∀ state cur curOut curNext, Eff.Le
          (afterPoll env poll n ts wk (smPoll env poll id states wk 0 state cur curOut curNext false))
          (interpret env poll states (0 + c) state wk ts) := by
        intro state cur curOut curNext s a s' h
        cases h
      exact ⟨hstuck, hinFlight 0 hstuck⟩
  | succ m ih =>
      obtain ⟨henter, hflight⟩ := ih
      have hnext : ∀ state cur curOut curNext, Eff.Le
          (afterPoll env poll n ts wk
            (smPoll env poll id states wk (m + 1) state cur curOut curNext false))
          (interpret env poll states (m + 1 + c) state wk ts) := by
        intro state cur curOut curNext
        rw [Nat.add_right_comm, interpret]
        cases hk : states[state]? with
        | none =>
            rw [smPoll, hk]
            exact Eff.le_refl _
        | some k =>
            rw [smPoll_enter hk, afterPoll]
            simp only [bind_assoc]
            refine Eff.le_bind (Eff.le_refl _) fun step => Eff.le_bind (Eff.le_refl _) fun fut => ?_
            cases hnull : fut.isNull with
            | true => exact henter _ _ _ _
            | false => exact hflight k state fut _ _ hk hnull
      exact ⟨hnext, hinFlight (m + 1) hnext⟩

/-- **The machine does what the interpreter does**, also from inside a wait. The induction is on the
    turns. -/
theorem drive_le_interpret (hp : Solid poll) (n : Nat) (ts : List (Turn σ)) (wk : TaskId) (m : Nat) :
    (∀ state cur curOut curNext, Eff.Le
      (afterPoll env poll n ts wk (smPoll env poll id states wk m state cur curOut curNext false))
      (interpret env poll states (m + n * ts.length) state wk ts)) ∧
    ∀ k state cur curOut curNext, states[state]? = some k → cur.isNull = false → Eff.Le
      (afterPoll env poll n ts wk (smPoll env poll id states wk (m + 1) state cur curOut curNext true))
      (do
        let r ← await env poll curOut ts cur wk
        andThen (interpret env poll states (m + n * ts.length) curNext) r) := by
  induction ts generalizing wk m with
  | nil =>
      -- a poll that returns `Pending` is the last one
      apply poll_le_interpret hp
      intro t ts' hts
      cases hts
  | cons t ts ih =>
      apply poll_le_interpret hp
      intro t' ts' hts k state cur curOut curNext hk hcur
      obtain ⟨rfl, rfl⟩ := List.cons.inj hts
      cases n with
      | zero =>
          intro s a s' h
          cases h
      | succ n =>
          apply ((ih t.waker n).2 k state cur curOut curNext hk hcur).trans
          refine Eff.le_bind (Eff.le_refl _) fun r => andThen_le (fun wk ts => ?_) r
          apply interpret_le (fun _ _ _ => Eff.le_refl _)
          rw [List.length_cons, Nat.mul_succ]
          omega

/-- **The interpreter does what the machine does.** The induction is on the states that are entered,
    and for a wait on the turns. -/
theorem interpret_le_drive (hp : Solid poll) {m n : Nat} (hn : m ≤ n) (ts : List (Turn σ))
    (wk : TaskId) {m' : Nat} (hm : m ≤ m') (state : Nat) (cur : Fut L F K) (curOut : Option Nat)
    (curNext : Nat) : Eff.Le (interpret env poll states m state wk ts)
      (afterPoll env poll n ts wk
        (smPoll env poll id states wk m' state cur curOut curNext false)) := by
  induction m generalizing ts wk m' state cur curOut curNext with
  | zero => exact Eff.stuck_le _
  | succ m ih =>
      obtain ⟨m', rfl⟩ : ∃ k, m' = k + 1 := ⟨m' - 1, by omega⟩
      obtain ⟨n, rfl⟩ : ∃ k, n = k + 1 := ⟨n - 1, by omega⟩
      have hwait : ∀ (ts : List (Turn σ)) wk m' k state cur curOut curNext, m ≤ m' →
          states[state]? = some k → cur.isNull = false → Eff.Le
          (do
            let r ← await env poll curOut ts cur wk
            andThen (interpret env poll states m curNext) r)
          (afterPoll env poll (n + 1) ts wk
            (smPoll env poll id states wk (m' + 1) state cur curOut curNext true)) := by
        intro ts
        induction ts with
        | nil =>
            intro wk m' k state cur curOut curNext hm hk hcur
            rw [afterPoll_inFlight hk hcur, await_inFlight]
            apply Eff.le_bind (Eff.le_refl _)
            intro r
            obtain ⟨_ | _, cur'⟩ := r
            · exact Eff.le_refl _
            · exact Eff.le_bind (Eff.le_refl _) fun _ =>
                ih (Nat.le_of_succ_le hn) _ _ hm _ _ _ _
        | cons t ts iht =>
            intro wk m' k state cur curOut curNext hm hk hcur
            rw [afterPoll_inFlight hk hcur, await_inFlight]
            apply Eff.le_bind_post (hp cur wk curOut)
            intro r hr
            obtain ⟨_ | _, cur'⟩ := r
            · -- the next poll has `n + 1` rounds
              exact Eff.le_bind (Eff.le_refl _) fun _ =>
                iht t.waker n k state cur' curOut curNext (Nat.le_of_succ_le_succ hn) hk hr
            · exact Eff.le_bind (Eff.le_refl _) fun _ =>
                ih (Nat.le_of_succ_le hn) _ _ hm _ _ _ _
      rw [interpret]
      cases hk : states[state]? with
      | none =>
          rw [smPoll, hk]
          exact Eff.le_refl _
      | some k =>
          rw [smPoll_enter hk, afterPoll]
          simp only [bind_assoc]
          refine Eff.le_bind (Eff.le_refl _) fun step => Eff.le_bind (Eff.le_refl _) fun fut => ?_
          cases hnull : fut.isNull with
          | true => exact ih (Nat.le_of_succ_le hn) _ _ (Nat.le_of_succ_le_succ hm) _ _ _ _
          | false => exact hwait ts wk m' k state fut _ _ (Nat.le_of_succ_le_succ hm) hk hnull

end Simulation

/-! ## The refinement

Results, worlds and recorded calls of the state functions agree whenever one of the two terminates.
Every index beyond the table ends the program, `cexec_sm_done()` among them.
-/

/-- The program with a record of the calls of state functions: which one, and on what memory. The
    contexts are part of the memory. -/
def traced (env : Env L F K σ) : Env L F K (σ × List (K × σ)) where
  leafPoll id l wk out := fun (m, calls) =>
    let (r, m) := env.leafPoll id l wk out m
    (r, m, calls)
  leafDrop id l := fun (m, calls) => (env.leafDrop id l m, calls)
  mapFn f p     := fun (m, calls) => (env.mapFn f p m, calls)
  stateFn k     := fun (m, calls) =>
    let (step, m') := env.stateFn k m
    (step, m', calls ++ [(k, m)])
  refuses       := env.refuses

def Turn.traced (t : Turn σ) : Turn (σ × List (K × σ)) where
  rest  := fun (m, calls) => (t.rest m, calls)
  waker := t.waker

/-- What `cexec_sm_in` returns. -/
theorem smIn_eq {env : Env L F K σ} {states : List K} {start : Nat} {f : Fut L F K} {w₀ w : World σ}
    (h : smIn env states start w₀ = (some f, w)) :
    f = .null ∨ ∃ id, f = .sm id states start .null none 0 false := by
  have hwp : Eff.wp (smIn env states start)
      (fun f _ => f = .null ∨ ∃ id, f = .sm id states start .null none 0 false)
      (fun _ => False) w₀ := by
    refine Eff.wp_seq (P := fun _ _ => True) trivial fun granted w' _ => ?_
    cases granted with
    | false => exact .inl rfl
    | true => exact .inr ⟨_, rfl⟩
  exact (Eff.wp_iff.mp hwp).1 f (by rw [h])

/-- Past the end of the table the interpreter is done. -/
theorem interpret_done (env : Env L F K σ) (poll : Poller L F K σ) {states : List K} {s : Nat}
    (hs : states.length ≤ s) (n : Nat) (wk : TaskId) (ts : List (Turn σ)) :
    interpret env poll states (n + 1) s wk ts = return some (wk, ts) := by
  rw [interpret, List.getElem?_eq_none hs]

/-- A drive of a fresh machine and the interpreter return the same in the same world. -/
theorem driveSm_iff_interpret (env : Env L F K σ) (states : List K) (id start : Nat)
    (ts : List (Turn σ)) (wk : TaskId) (w : World σ) (r : Option (TaskId × List (Turn σ)))
    (w' : World σ) :
    (∃ n, driveSm env (futurePoll env n) n ts (.sm id states start .null none 0 false) wk w
      = (some r, w')) ↔
    ∃ n, interpret env (futurePoll env n) states n start wk ts w = (some r, w') := by
  constructor
  · intro ⟨n, hn⟩
    rw [driveSm_eq] at hn
    have hint := (drive_le_interpret (futurePoll_solid env n) n ts wk n).1 _ _ _ _ w r w' hn
    -- the interpreter needs the rounds of all polls together
    refine ⟨max n (n + n * ts.length), ?_⟩
    exact interpret_le (futurePoll_le env (Nat.le_max_left _ _)) (Nat.le_max_right _ _) _ _ _ w r w'
      hint
  · intro ⟨n, hn⟩
    refine ⟨n, ?_⟩
    rw [driveSm_eq]
    exact interpret_le_drive (futurePoll_solid env n) (Nat.le_refl n) ts wk (Nat.le_refl n) _ _ _ _
      w r w' hn

/-- **The state machine refines its blocking interpreter.** Driven by polls, the future of `cexec_sm_in`
    calls the same state functions on the same memories as `interpret`, is `Ready` after the same turns
    and leaves the same world, history included; or both do not return. The interpreter is done at every
    index past the table, `cexec_sm_done()` among them. -/
theorem sm_refines_interpreter (env : Env L F K σ) {states : List K} {start : Nat}
    {f : Fut L F K} {w₀ w : World (σ × List (K × σ))}
    (hin : smIn (traced env) states start w₀ = (some f, w)) (hf : f.isNull = false)
    (ts : List (Turn σ)) (wk : TaskId) :
    (∀ r w', (∃ n, driveSm (traced env) (futurePoll (traced env) n) n (ts.map Turn.traced) f wk w
        = (some r, w')) ↔
      ∃ n, interpret (traced env) (futurePoll (traced env) n) states n start wk
        (ts.map Turn.traced) w = (some r, w')) ∧
    ∀ s, states.length ≤ s ∨ states.length ≤ 2 ^ 32 - 1 ∧ s = smDone → ∀ n wk ts,
      interpret (traced env) (futurePoll (traced env) n) states (n + 1) s wk ts w =
        (some (some (wk, ts)), w) := by
  constructor
  · intro r w'
    obtain ⟨id, rfl⟩ := (smIn_eq hin).resolve_left fun hnull => by simp [hnull, Fut.isNull] at hf
    apply driveSm_iff_interpret
  · intro s hs n wk ts
    have hle : states.length ≤ s := by
      rcases hs with hs | ⟨hlen, rfl⟩
      · exact hs
      · exact hlen
    rw [interpret_done (traced env) _ hle]
    rfl

/-- A loop that adds 1 twice: a leaf is `Pending` as often as its state says, and then adds 1. -/
def loopEnv : Env Nat Unit Bool Nat where
  leafPoll _ l _ _ m := match l with
    | 0     => ((true, 0), m + 1)
    | l + 1 => ((false, l), m)
  leafDrop _ _ m := m
  mapFn _ _ m    := m
  stateFn load m := if load then (⟨.leaf 1, none, 0⟩, m)
    else (⟨.null, none, if m < 2 then 1 else smDone⟩, m)
  refuses _      := false

/-- Two waits of one turn each; the check of the loop runs three times. -/
theorem sm_refines_interpreter_loop :
    ∃ n w', interpret (traced loopEnv) (futurePoll (traced loopEnv) n) [false, true] n 0 7
      ([⟨id, 8⟩, ⟨id, 9⟩].map Turn.traced) ⟨(0, []), 1, 1, [.born 0]⟩ = (some (some (9, [])), w') ∧
      w'.mem = (2, [(false, 0), (true, 0), (false, 1), (true, 1), (false, 2)]) := by
  have hin : smIn (traced loopEnv) [false, true] 0 (World.start (0, [])) =
      (some (.sm 0 [false, true] 0 .null none 0 false), ⟨(0, []), 1, 1, [.born 0]⟩) := rfl
  obtain ⟨n, hn⟩ := ((sm_refines_interpreter loopEnv hin rfl [⟨id, 8⟩, ⟨id, 9⟩] 7).1 _ _).mp ⟨6, rfl⟩
  exact ⟨n, _, hn, rfl⟩

end CustLib.Exec
