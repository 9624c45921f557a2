import CustLib.Execution.Host

/-!
# The null future under out-of-memory

A constructor that is refused its box drops its children and returns the null future. One that gets
its box stores its children as they are, null or not, and `executor_push` does the same with the
root. So an allocation failure surfaces only when it is the last one that counts:
`oom_surfaces_iff`.

`Watch` adds a record to the memory, whether the null future was ever polled. A tree without null
children (`Fut.Whole`) never sets it, and stays without them as long as the state machines in it
get the boxes they ask for.
-/

namespace CustLib.Exec

open CustLib.ListHead
open CustLib.Custody (Token)

variable {L F K R σ : Type}

/-! ## Expressions

A program that is to be safe when memory is short must not pass a null future itself; so the expressions
are built from constructors only, and state functions return the null future only where they await
nothing.
-/

/-- The number of boxes that the constructors ask for. -/
def Expr.size : Expr L F K → Nat
  | .null => 0
  | .leaf _ => 1
  | .map inner _ => inner.size + 1
  | .then_ a b => a.size + b.size + 1
  | .join2 a _ b => a.size + b.size + 1
  | .select2 a b => a.size + b.size + 1
  | .sm _ _ => 1

/-- Built from constructors: the program itself passes no null future. -/
def Expr.NullFree : Expr L F K → Prop
  | .null => False
  | .leaf _ => True
  | .map inner _ => inner.NullFree
  | .then_ a b => a.NullFree ∧ b.NullFree
  | .join2 a _ b => a.NullFree ∧ b.NullFree
  | .select2 a b => a.NullFree ∧ b.NullFree
  | .sm _ _ => True

/-- A state function builds a child, or returns the null future for a state without one. -/
def Env.StepsOk (env : Env L F K σ) : Prop :=
  ∀ k m, (env.stateFn k m).1.fut = .null ∨ (env.stateFn k m).1.fut.NullFree

/-- The programs that only hand over what constructors built. -/
def Move.NullFree : Move L F K R → Prop
  | .spawn e | .blockOn e _ => e.NullFree
  | _ => True

/-- The two ways to hand over `e`. -/
inductive Offers (e : Expr L F K) : Move L F K R → Prop
  | spawn : Offers e (.spawn e)
  | blockOn (out : Option Nat) : Offers e (.blockOn e out)

/-! ## The watched program

Any program and any host, with a record of whether the null future was ever polled. The allocator fails
while one expression is built and handed over, in any pattern, and serves everything else.
-/

structure Watch (σ : Type) where
  mem        : σ
  nullPolled : Bool

/-- Code that works on the memory leaves the record alone. -/
def Watch.on {α : Type} (f : σ → α × σ) (m : Watch σ) : α × Watch σ :=
  ((f m.mem).1, { m with mem := (f m.mem).2 })

def Site.watched (site : Site L F K R σ) : Site L F K R (Watch σ) where
  leafPoll id l w out := Watch.on (site.leafPoll id l w out)
  leafDrop id l m     := { m with mem := site.leafDrop id l m.mem }
  mapFn f p m         := { m with mem := site.mapFn f p m.mem }
  stateFn k           := Watch.on (site.stateFn k)
  refuses             := site.refuses
  wakes               := Watch.on site.wakes
  hook                := Watch.on site.hook
  call r m            := { m with mem := site.call r m.mem }
  trap m              := ⟨site.trap m.mem, true⟩

/-- The allocator fails by `pattern` while `e` is built and handed over, and at no other time. -/
def Site.failing (site : Site L F K R σ) (e : Expr L F K) (pattern : Nat → Bool) :
    Site L F K R σ :=
  { site with refuses := fun k => decide (k ≤ e.size) && pattern k }

/-- What the program may rely on when `e` is built and handed over: the null future is not
    polled in any run, and a failed allocation is answered by the null future or by `false`,
    with everything that was built dropped once. -/
structure Surfaces (site : Site L F K R σ) (e : Expr L F K) (mem : σ) : Prop where
  notPolled : ∀ park offer moves h, Offers e offer → (∀ m ∈ moves, m.NullFree) →
    Machine.run (Host.step site.watched) (Host.init park ⟨mem, false⟩) (offer :: moves) = some h →
    h.world.mem.nullPolled = false
  surfaces : ∀ f granted w,
    handOver site.watched.toEnv e (World.start ⟨mem, false⟩) = (some (f, granted), w) →
    (∃ k ≤ e.size, site.refuses k = true) → (f.isNull = true ∨ granted = false) ∧
      ∀ id, .born id ∈ w.log → w.log.count (.released id) = 1

/-! ## Boxes asked for

The requests of a program are numbered, and the constructors of an expression ask for as many boxes as
it has nodes. So it is known which requests belong to the expression and to its task.
-/

section Requests

variable {env : Env L F K σ} {w : World σ}

def Asks {α : Type} (x : Eff (World σ) α) (n : Nat) : Prop :=
  ∀ w, Eff.wp x (fun _ w' => w'.requests = w.requests + n) (fun _ => False) w

theorem Asks.bind {α β : Type} {x : Eff (World σ) α} {f : α → Eff (World σ) β} {m n : Nat}
    (hx : Asks x m) (hf : ∀ a, Asks (f a) n) : Asks (x >>= f) (m + n) := by
  intro w
  apply Eff.wp_seq (hx w)
  intro a w' h
  apply Eff.wp_mono (hf a w')
  · intro b w'' h'
    rw [h', h, Nat.add_assoc]
  · exact fun _ => id

theorem asks_pure {α : Type} (a : α) : Asks (pure a : Eff (World σ) α) 0 := fun _ => rfl

theorem asks_note (e : Custody.Event) : Asks (note e : Eff (World σ) Unit) 0 := fun _ => rfl

theorem asks_onMem {α : Type} (f : σ → α × σ) : Asks (onMem f) 0 := fun _ => rfl

theorem asks_when {c : Bool} {x : Eff (World σ) Unit} (h : Asks x 0) : Asks (Eff.when c x) 0 := by
  cases c
  · exact asks_pure ()
  · exact h

theorem asks_birth : Asks (birth : Eff (World σ) Nat) 0 := fun _ => rfl

theorem asks_drop (env : Env L F K σ) (f : Fut L F K) : Asks (futureDrop env f) 0 := by
  induction f with
  | null => exact asks_pure ()
  | leaf id l => exact (asks_note _).bind fun _ => asks_onMem _
  | map id inner fn ih => exact (asks_note _).bind fun _ => ih
  | then_ id a b stage iha ihb =>
      exact (asks_note _).bind fun _ => (asks_when iha).bind fun _ => ihb
  | join2 id a b aSize aDone bDone iha ihb =>
      exact (asks_note _).bind fun _ => (asks_when iha).bind fun _ => asks_when ihb
  | select2 id a b iha ihb => exact (asks_note _).bind fun _ => iha.bind fun _ => ihb
  | sm id states state cur curOut curNext haveCur ih =>
      exact (asks_note _).bind fun _ => asks_when ih

theorem asks_box {α : Type} {box : Nat → α} {other : Eff (World σ) α} (h : Asks other 0) :
    Asks (do if ← request env then return box (← birth) else other) 1 := by
  apply Asks.bind (m := 1) (n := 0)
  · exact fun _ => rfl
  · intro granted
    cases granted
    · exact h
    · exact asks_birth.bind fun _ => asks_pure _

theorem asks_construct (env : Env L F K σ) (e : Expr L F K) : Asks (construct env e) e.size := by
  have hpair : ∀ (box : Nat → Fut L F K → Fut L F K → Fut L F K) (a b : Fut L F K),
      Asks (pairIn env box a b) 1 := by
    intro box a b
    apply asks_box
    exact (asks_drop env a).bind fun _ => (asks_drop env b).bind fun _ => asks_pure _
  induction e with
  | null => exact asks_pure _
  | leaf l => exact asks_box (asks_pure _)
  | map inner fn ih =>
      apply ih.bind
      intro f
      exact asks_box ((asks_drop env f).bind fun _ => asks_pure _)
  | then_ a b iha ihb =>
      rw [Expr.size, Nat.add_assoc]
      exact iha.bind fun fa => ihb.bind fun fb => hpair _ fa fb
  | join2 a size b iha ihb =>
      rw [Expr.size, Nat.add_assoc]
      exact iha.bind fun fa => ihb.bind fun fb => hpair _ fa fb
  | select2 a b iha ihb =>
      rw [Expr.size, Nat.add_assoc]
      exact iha.bind fun fa => ihb.bind fun fb => hpair _ fa fb
  | sm states start => exact asks_box (asks_pure _)

end Requests

/-! ## Trees without null children

A tree is whole when no child that will still be polled is null. Constructors that get their boxes make
whole trees out of whole trees.
-/

/-- No child that is still to be polled is null. -/
def Fut.Whole : Fut L F K → Prop
  | .null => False
  | .leaf _ _ => True
  | .map _ inner _ => inner.Whole
  | .then_ _ a b _ => a.Whole ∧ b.Whole
  | .join2 _ a b _ _ _ => a.Whole ∧ b.Whole
  | .select2 _ a b => a.Whole ∧ b.Whole
  | .sm _ _ _ cur _ _ haveCur => haveCur = true → cur.Whole

/-- The null future was not polled, and `S` holds of the number of boxes asked for. -/
def Calm (S : Nat → Prop) (w : World (Watch σ)) : Prop := w.mem.nullPolled = false ∧ S w.requests

section Calm

variable {site : Site L F K R σ} {S : Nat → Prop}

theorem calm_note (e : Custody.Event) : Eff.Keeps (Calm (σ := σ) S) (note e) fun _ => True := by
  apply Eff.keeps_modify
  exact fun _ h => h

/-- Code that works on the memory of the program. -/
theorem calm_onMem {α : Type} {f : Watch σ → α × Watch σ}
    (hf : ∀ m, (f m).2.nullPolled = m.nullPolled) :
    Eff.Keeps (Calm S) (onMem f) fun _ => True := by
  apply Eff.keeps_move
  exact fun w h => ⟨trivial, (hf w.mem).trans h.1, h.2⟩

theorem calm_birth : Eff.Keeps (Calm (σ := σ) S) birth fun _ => True := by
  apply Eff.keeps_move
  exact fun _ h => ⟨trivial, h⟩

theorem calm_request (hS : ∀ k, S k → S (k + 1)) {env : Env L F K (Watch σ)} :
    Eff.Keeps (Calm S) (request env) fun granted =>
      (∀ k, S k → env.refuses k = false) → granted = true := by
  apply Eff.keeps_move
  intro w h
  refine ⟨fun hserved => ?_, h.1, hS _ h.2⟩
  rw [hserved _ h.2]
  rfl

theorem calm_drop (f : Fut L F K) :
    Eff.Keeps (Calm S) (futureDrop site.watched.toEnv f) fun _ => True :=
  futureDrop_keeps (fun _ _ => id) (fun _ _ _ => id) f

/-- What a constructor returns is whole unless a box was refused. -/
def MakesWhole (site : Site L F K R σ) (S : Nat → Prop) (x : Eff (World (Watch σ)) (Fut L F K)) :
    Prop :=
  Eff.Keeps (Calm S) x fun f => (∀ k, S k → site.refuses k = false) → f.Whole

theorem makes_box (hS : ∀ k, S k → S (k + 1)) {box : Nat → Fut L F K}
    {other : Eff (World (Watch σ)) (Fut L F K)}
    (hbox : ∀ id, (∀ k, S k → site.refuses k = false) → (box id).Whole)
    (hother : Eff.Keeps (Calm S) other fun _ => True) :
    MakesWhole site S
      (do if ← request site.watched.toEnv then return box (← birth) else other) := by
  apply Eff.keeps_bind (calm_request hS)
  intro granted hgranted
  cases granted with
  | true => exact Eff.keeps_bind calm_birth fun id _ => Eff.keeps_pure (hbox id)
  | false =>
      -- the box was refused, so nothing is claimed of the result
      intro w hw
      refine Eff.wp_mono (hother w hw) (fun f w' h => ⟨fun hserved => ?_, h.2⟩) fun _ => id
      exact absurd (hgranted hserved) Bool.false_ne_true

theorem makes_pair (hS : ∀ k, S k → S (k + 1))
    {box : Nat → Fut L F K → Fut L F K → Fut L F K}
    (hbox : ∀ id a b, (box id a b).Whole = (a.Whole ∧ b.Whole))
    {x y : Eff (World (Watch σ)) (Fut L F K)} (hx : MakesWhole site S x)
    (hy : MakesWhole site S y) :
    MakesWhole site S (do pairIn site.watched.toEnv box (← x) (← y)) := by
  apply Eff.keeps_bind hx
  intro a ha
  apply Eff.keeps_bind hy
  intro b hb
  apply makes_box hS
  · intro id hserved
    rw [hbox]
    exact ⟨ha hserved, hb hserved⟩
  · apply Eff.keeps_bind (calm_drop a)
    intro _ _
    exact Eff.keeps_bind (calm_drop b) fun _ _ => Eff.keeps_pure trivial

theorem makes_map (hS : ∀ k, S k → S (k + 1)) {x : Eff (World (Watch σ)) (Fut L F K)}
    (hx : MakesWhole site S x) (fn : Option F) :
    MakesWhole site S (do mapIn site.watched.toEnv (← x) fn) := by
  apply Eff.keeps_bind hx
  intro inner hinner
  apply makes_box hS
  · exact fun id => hinner
  · exact Eff.keeps_bind (calm_drop inner) fun _ _ => Eff.keeps_pure trivial

theorem makes_sm (hS : ∀ k, S k → S (k + 1)) (states : List K) (start : Nat) :
    MakesWhole site S (smIn site.watched.toEnv states start) :=
  makes_box hS (fun _ _ => nofun) (Eff.keeps_pure trivial)

theorem makes_construct (hS : ∀ k, S k → S (k + 1)) {e : Expr L F K} (he : e.NullFree) :
    MakesWhole site S (construct site.watched.toEnv e) := by
  induction e with
  | null => exact he.elim
  | leaf l => exact makes_box hS (fun _ _ => trivial) (Eff.keeps_pure trivial)
  | map inner fn ih => exact makes_map hS (ih he) fn
  | then_ a b iha ihb => exact makes_pair hS (fun _ _ _ => rfl) (iha he.1) (ihb he.2)
  | join2 a size b iha ihb => exact makes_pair hS (fun _ _ _ => rfl) (iha he.1) (ihb he.2)
  | select2 a b iha ihb => exact makes_pair hS (fun _ _ _ => rfl) (iha he.1) (ihb he.2)
  | sm states start => exact makes_sm hS states start

/-- What an expression builds is whole, unless a box was refused. -/
theorem makes_build (hS : ∀ k, S k → S (k + 1)) {e : Expr L F K} (he : e.NullFree) :
    MakesWhole site S (build site.watched.toEnv e) := by
  induction e with
  | null => exact he.elim
  | leaf l => exact Eff.keeps_bind calm_birth fun _ _ => Eff.keeps_pure fun _ => trivial
  | map inner fn ih => exact makes_map hS (ih he) fn
  | then_ a b iha ihb => exact makes_pair hS (fun _ _ _ => rfl) (iha he.1) (ihb he.2)
  | join2 a size b iha ihb => exact makes_pair hS (fun _ _ _ => rfl) (iha he.1) (ihb he.2)
  | select2 a b iha ihb => exact makes_pair hS (fun _ _ _ => rfl) (iha he.1) (ihb he.2)
  | sm states start => exact makes_sm hS states start

variable (site) in
/-- The same of what is handed over. -/
theorem calm_handOver (hS : ∀ k, S k → S (k + 1)) {e : Expr L F K} (he : e.NullFree) :
    Eff.Keeps (Calm S) (handOver site.watched.toEnv e) fun r =>
      (∀ k, S k → site.refuses k = false) → r.1.Whole := by
  apply Eff.keeps_bind (makes_construct hS he)
  intro f hf
  apply Eff.keeps_bind (P := fun _ => True)
  · apply Eff.keeps_bind (calm_request hS)
    intro granted _
    exact Eff.keeps_bind (Eff.keeps_when (calm_drop f)) fun _ _ => Eff.keeps_pure trivial
  · exact fun _ _ => Eff.keeps_pure hf

/-! ## Polls of whole trees

A poll of a whole tree polls no null future and leaves a whole tree; `sm_poll` asks whether the future
is null before it polls.
-/

/-- Polls of whole trees keep calm, and leave whole trees. -/
def PollsWhole (S : Nat → Prop) (poll : Poller L F K (Watch σ)) : Prop :=
  ∀ f wk out, f.Whole → Eff.Keeps (Calm S) (poll f wk out) fun r => r.2.Whole

variable {poll : Poller L F K (Watch σ)}

theorem joinArm_whole (hp : PollsWhole S poll) {child : Fut L F K} (h : child.Whole) (done : Bool)
    (wk : TaskId) (out : Option Nat) :
    Eff.Keeps (Calm S) (joinArm site.watched.toEnv poll child done wk out) fun r => r.2.Whole := by
  unfold joinArm
  cases done with
  | true => exact Eff.keeps_pure h
  | false =>
      apply Eff.keeps_bind (hp child wk out h)
      intro r hr
      apply Eff.keeps_bind (Eff.keeps_when (calm_drop r.2))
      exact fun _ _ => Eff.keeps_pure hr

theorem thenPoll_whole (hp : PollsWhole S poll) (id : Nat) {a b : Fut L F K} (ha : a.Whole)
    (hb : b.Whole) (stage : Nat) (wk : TaskId) (out : Option Nat) :
    Eff.Keeps (Calm S) (thenPoll site.watched.toEnv poll id a b stage wk out)
      fun r => r.2.Whole := by
  have hsecond : ∀ (a : Fut L F K) (stage : Nat), a.Whole → Eff.Keeps (Calm S) (do
      let r ← poll b wk out
      return (r.1, Fut.then_ id a r.2 stage)) fun r => r.2.Whole := by
    intro a stage ha
    apply Eff.keeps_bind (hp b wk out hb)
    exact fun r hr => Eff.keeps_pure (show Fut.Whole (.then_ id a r.2 stage) from ⟨ha, hr⟩)
  unfold thenPoll
  split
  · apply Eff.keeps_bind (hp a wk none ha)
    intro r hr
    obtain ⟨_ | _, a'⟩ := r
    · exact Eff.keeps_pure ⟨hr, hb⟩
    · exact Eff.keeps_bind (calm_drop a') fun _ _ => hsecond a' 1 hr
  · exact hsecond a stage ha

/-- A state machine polls a child only if it is not null. -/
theorem smPoll_whole (hS : ∀ k, S k → S (k + 1)) (hserved : ∀ k, S k → site.refuses k = false)
    (hsteps : site.StepsOk) (hp : PollsWhole S poll) (id : Nat) (states : List K) (wk : TaskId)
    (n state : Nat) (cur : Fut L F K) (curOut : Option Nat) (curNext : Nat) {haveCur : Bool}
    (h : haveCur = true → cur.Whole) :
    Eff.Keeps (Calm S)
      (smPoll site.watched.toEnv poll id states wk n state cur curOut curNext haveCur)
      fun r => r.2.Whole := by
  -- the child of a state is the one in flight, one that was built, or null
  have henter : ∀ k cur curOut curNext haveCur, (haveCur = true → Fut.Whole cur) →
      Eff.Keeps (Calm S) (enterState site.watched.toEnv k cur curOut curNext haveCur)
      fun r => r.1.isNull = true ∨ r.1.Whole := by
    intro k cur curOut curNext haveCur h
    unfold enterState
    cases haveCur with
    | true => exact Eff.keeps_pure (.inr (h rfl))
    | false =>
        apply Eff.keeps_bind (P := fun step => step.fut = .null ∨ step.fut.NullFree)
        · exact Eff.keeps_move fun w hw => ⟨hsteps k w.mem.mem, hw⟩
        · intro step hstep
          apply Eff.keeps_bind (P := fun fut => fut.isNull = true ∨ fut.Whole)
          · rcases hstep with hnull | hfree
            · rw [hnull]
              exact Eff.keeps_pure (.inl rfl)
            · intro w hw
              refine Eff.wp_mono (makes_build hS hfree w hw) (fun f w' hf => ?_) fun _ h => h
              exact ⟨.inr (hf.1 hserved), hf.2⟩
          · exact fun fut hfut => Eff.keeps_pure hfut
  induction n generalizing state cur curOut curNext haveCur with
  | zero => exact Eff.keeps_stuck
  | succ n ih =>
      unfold smPoll
      split
      · exact Eff.keeps_pure h
      next k _ =>
        apply Eff.keeps_bind (henter k cur curOut curNext haveCur h)
        intro r hr
        dsimp only
        split
        · exact ih _ _ _ _ nofun
        next hnull =>
          apply Eff.keeps_bind (hp r.1 wk _ (hr.resolve_left hnull))
          intro r' hr'
          obtain ⟨_ | _, cur'⟩ := r'
          · exact Eff.keeps_pure fun _ => hr'
          · exact Eff.keeps_bind (calm_drop cur') fun _ _ => ih _ _ _ _ nofun

/-- The polls of all nodes keep calm, if those of their children do. -/
theorem nodePoll_whole (hS : ∀ k, S k → S (k + 1)) (hserved : ∀ k, S k → site.refuses k = false)
    (hsteps : site.StepsOk) (hp : PollsWhole S poll) (n : Nat) :
    PollsWhole S (nodePoll site.watched.toEnv poll n) := by
  intro f wk out hf
  cases f with
  | null => exact hf.elim
  | leaf id l => exact Eff.keeps_bind (calm_onMem fun _ => rfl) fun _ _ => Eff.keeps_pure trivial
  | map id inner fn =>
      apply Eff.keeps_bind (hp inner wk out hf)
      intro r hr
      apply Eff.keeps_bind (P := fun _ => True)
      · unfold applyFn
        split
        · exact calm_onMem fun _ => rfl
        · exact Eff.keeps_pure trivial
      · exact fun _ _ => Eff.keeps_pure hr
  | then_ id a b stage => exact thenPoll_whole hp id hf.1 hf.2 stage wk out
  | join2 id a b aSize aDone bDone =>
      apply Eff.keeps_bind (joinArm_whole hp hf.1 aDone wk out)
      intro ra ha
      apply Eff.keeps_bind (joinArm_whole hp hf.2 bDone wk _)
      exact fun rb hb => Eff.keeps_pure ⟨ha, hb⟩
  | select2 id a b =>
      apply Eff.keeps_bind (hp a wk out hf.1)
      intro ra ha
      obtain ⟨_ | _, a'⟩ := ra
      · apply Eff.keeps_bind (hp b wk out hf.2)
        exact fun rb hb => Eff.keeps_pure ⟨ha, hb⟩
      · exact Eff.keeps_pure ⟨ha, hf.2⟩
  | sm id states state cur curOut curNext haveCur =>
      exact smPoll_whole hS hserved hsteps hp id states wk n state cur curOut curNext hf

/-- **Polls of a whole tree never reach the null future**, as long as boxes are not refused. -/
theorem poll_whole (hS : ∀ k, S k → S (k + 1)) (hserved : ∀ k, S k → site.refuses k = false)
    (hsteps : site.StepsOk) (n : Nat) : PollsWhole S (site.watched.poll n) := by
  induction n with
  | zero => exact fun _ _ _ _ => Eff.keeps_stuck
  | succ n ih =>
      intro f wk out hf
      unfold Site.poll
      split
      next hnull => cases f <;> first | exact hf.elim | cases hnull
      next id _ =>
        apply Eff.keeps_bind (calm_note _)
        intro _ _
        apply Eff.keeps_bind (nodePoll_whole hS hserved hsteps ih n f wk out hf)
        intro r hr
        apply Eff.keeps_bind (Eff.keeps_when (calm_note _))
        exact fun _ _ => Eff.keeps_pure hr

end Calm

/-! ## Runs of whole trees

As long as every task has a whole tree, no run polls the null future, and every further tree that is
built is whole.
-/

structure Served (site : Site L F K R σ) (b : Nat) (h : Host L F K (Watch σ)) : Prop where
  refined : h.sys.Refined
  calm    : Calm (b ≤ ·) h.world
  whole   : ∀ t < h.sys.nextTask, (h.futs t).Whole

section Served

variable {site : Site L F K R σ} {b : Nat}

/-- A future that was handed over is whole, and the next task. -/
theorem Served.offered (hserved : ∀ k, b ≤ k → site.refuses k = false)
    {h : Host L F K (Watch σ)} (hh : Served site b h) {e : Expr L F K} (he : e.NullFree)
    {f : Fut L F K} {granted : Bool} {world : World (Watch σ)} {sys : Sys} {a : Act}
    (hrun : handOver site.watched.toEnv e h.world = (some (f, granted), world))
    (hs : step h.sys a = some sys) (ha : a.pushes = if granted then 1 else 0) :
    Served site b
      ⟨sys, if granted then Function.update h.futs h.sys.nextTask f else h.futs, world⟩ := by
  have hS : ∀ k, b ≤ k → b ≤ k + 1 := fun k hk => Nat.le_succ_of_le hk
  have hpost := calm_handOver site hS he h.world hh.calm
  rw [Eff.wp, hrun] at hpost
  obtain ⟨hsys, hnext⟩ := hh.refined.step hs
  refine ⟨hsys, hpost.2, fun t ht => ?_⟩
  have hlt : t < sys.nextTask := ht
  rw [hnext, ha] at hlt
  cases granted with
  | false => exact hh.whole t hlt
  | true =>
      by_cases heq : t = h.sys.nextTask
      · simpa [heq] using hpost.1 hserved
      · have hold : t < h.sys.nextTask := Nat.lt_of_le_of_ne (Nat.le_of_lt_succ hlt) heq
        simpa [heq] using hh.whole t hold

/-- Wakes allocate nothing, and neither does an answer. -/
theorem Served.delivered {h h' : Host L F K (Watch σ)} {as : List Act} (hh : Served site b h)
    (has : ∀ a ∈ as, a.pushes = 0) (hd : Host.Delivered site.watched h as h') :
    Served site b h' := by
  cases hd with
  | @done woken mem sys hwakes hrun =>
      obtain ⟨hrefined, hnext⟩ := hh.refined.run hrun (pushes_wakes woken has)
      cases hwakes
      exact ⟨hrefined, hh.calm, fun t ht => hh.whole t (hnext ▸ ht)⟩
  | lost hwakes hrun =>
      cases hwakes
      exact ⟨.inl rfl, hh.calm, hh.whole⟩

/-- No move of the program polls the null future. -/
theorem Served.step (hserved : ∀ k, b ≤ k → site.refuses k = false) (hsteps : site.StepsOk)
    {h h' : Host L F K (Watch σ)} {m : Move L F K R} (hm : m.NullFree) (hh : Served site b h)
    (hs : h.step site.watched m = some h') : Served site b h' := by
  have hS : ∀ k, b ≤ k → b ≤ k + 1 := fun k hk => Nat.le_succ_of_le hk
  have hpolled : ∀ n c t, h.sys.pc = .polling c t → Eff.wp
      (site.watched.poll n (h.futs t) t ((h.sys.ex.tasks t).bind Task.out))
      (fun r w => r.2.Whole ∧ Calm (b ≤ ·) w) (Calm (b ≤ ·)) h.world := fun n c t hpc =>
    poll_whole hS hserved hsteps n (h.futs t) t _ (hh.whole t (hh.refined.polled_lt hpc)) h.world
      hh.calm
  cases Host.stepped hs with
  | @spawned e f granted world sys hrun hsys =>
      exact hh.offered hserved hm hrun hsys (by cases granted <;> rfl)
  | @blocked e out f granted world sys hrun hsys =>
      exact hh.offered hserved hm hrun hsys (by cases granted <;> rfl)
  | ran hsys | drove hsys =>
      obtain ⟨hrefined, hnext⟩ := hh.refined.step hsys
      have hnext : _ = h.sys.nextTask := hnext
      exact ⟨hrefined, hh.calm, fun t ht => hh.whole t (hnext ▸ ht)⟩
  -- the poll was cut off by its depth, as there is no null future to stop at
  | @stuck n c t world hpc hpoll =>
      have hpost := hpolled n c t hpc
      rw [Eff.wp, hpoll] at hpost
      exact ⟨.inl rfl, hpost, hh.whole⟩
  | @polled n c t st f world h' hpc hpoll hd =>
      have hpost := hpolled n c t hpc
      rw [Eff.wp, hpoll] at hpost
      obtain ⟨hf, hcalm⟩ := hpost
      refine Served.delivered ?_ (by cases st <;> simp [Act.pushes]) hd
      refine ⟨hh.refined, hcalm, fun u hu => ?_⟩
      by_cases hut : u = t
      · simpa [hut] using hf
      · simpa [hut] using hh.whole u hu
  | @dropped c t world sys hpc hdrop hsys =>
      have hkeeps : Eff.Keeps (Calm (b ≤ ·)) (futureDrop site.watched.toEnv (h.futs t))
          fun _ => True := calm_drop (h.futs t)
      have hpost := hkeeps h.world hh.calm
      rw [Eff.wp, hdrop] at hpost
      obtain ⟨hrefined, hnext⟩ := hh.refined.step hsys
      have hnext : _ = h.sys.nextTask := hnext
      exact ⟨hrefined, hpost.2, fun t ht => hh.whole t (hnext ▸ ht)⟩
  | parked hpc hhook hd =>
      cases hhook
      refine Served.delivered ?_ (by simp [Act.pushes]) hd
      exact ⟨hh.refined, hh.calm, hh.whole⟩
  | called hpc hd =>
      refine Served.delivered ?_ (List.forall_mem_nil _) hd
      exact ⟨hh.refined, hh.calm, hh.whole⟩

/-- Runs that only hand over what constructors built. -/
theorem Served.run (hserved : ∀ k, b ≤ k → site.refuses k = false) (hsteps : site.StepsOk)
    {h h' : Host L F K (Watch σ)} {moves : List (Move L F K R)} (hmoves : ∀ m ∈ moves, m.NullFree)
    (hh : Served site b h) (hrun : Machine.run (Host.step site.watched) h moves = some h') :
    Served site b h' := by
  have hin := Machine.RunIn.of_forall (P := fun _ m => Move.NullFree m) (fun m hm _ => hmoves m hm)
    hrun
  exact hin.invariant (fun _ _ _ hh hm hs => hh.step hserved hsteps hm hs) hh

end Served

/-! ## The condition

It remains to look at a failure that is followed by a granted task box: the null future is then the root
of the task or inside its tree, and a run that polls the task polls it or hides the failure. Either the
task box is refused, upon which everything is dropped, or no constructor may fail.
-/

section Condition

variable {site : Site L F K R σ} {e : Expr L F K} {pattern : Nat → Bool} {mem : σ}

/-- After the construction of `e`, the next request is for the task box. -/
theorem handOver_start (env : Env L F K σ) (e : Expr L F K) (mem : σ) :
    ∃ f granted w, handOver env e (World.start mem) = (some (f, granted), w) ∧
      granted = !env.refuses e.size ∧ w.requests = e.size + 1 ∧
      Taken 0 (f, granted) w := by
  have hown : Own 0 (World.start mem) := Custody.Owns.nil
  have hgranted : Eff.wp (handOver env e)
      (fun r w => r.2 = !env.refuses e.size ∧ w.requests = e.size + 1) (fun _ => False)
      (World.start mem) := by
    apply Eff.wp_seq (asks_construct env e _)
    intro f w hw
    have hw : w.requests = e.size := by rw [hw]; exact Nat.zero_add _
    rw [push, Eff.wp_bind, Eff.wp_bind, request, Eff.wp_move]
    refine Eff.wp_seq (asks_when (asks_drop env f) _) fun _ w' hw' => ⟨?_, ?_⟩
    · rw [hw]
    · rw [hw', Nat.add_zero, hw]
  obtain ⟨r, w, hrun, ⟨hr, hw⟩, htaken⟩ :=
    Eff.wp_total (Eff.wp_mono (Eff.wp_and hgranted (handOver_spec env e hown)) (fun _ _ h => h)
      fun _ h => h.1)
  exact ⟨r.1, r.2, w, hrun, hr, hw, htaken⟩

theorem failing_above (site : Site L F K R σ) (e : Expr L F K) (pattern : Nat → Bool) :
    ∀ k, e.size + 1 ≤ k → (site.failing e pattern).refuses k = false := by
  intro k hk
  have hlt : ¬ k ≤ e.size := by omega
  simp [Site.failing, hlt]

theorem failing_within (site : Site L F K R σ) (pattern : Nat → Bool) {k : Nat} (hk : k ≤ e.size) :
    (site.failing e pattern).refuses k = pattern k := by
  simp [Site.failing, hk]

variable (site e pattern mem) in
/-- Whether there is a task depends on the request for its box alone. -/
theorem handOver_failing : ∃ f w,
    handOver (site.failing e pattern).watched.toEnv e (World.start ⟨mem, false⟩) =
      (some (f, !pattern e.size), w) ∧
    w.requests = e.size + 1 ∧ Taken 0 (f, !pattern e.size) w := by
  obtain ⟨f, granted, w, hrun, hgranted, hreq, htaken⟩ :=
    handOver_start (site.failing e pattern).watched.toEnv e ⟨mem, false⟩
  have hbox : (site.failing e pattern).watched.refuses e.size = pattern e.size :=
    failing_within site pattern (Nat.le_refl _)
  rw [hbox] at hgranted
  subst hgranted
  exact ⟨f, w, hrun, hreq, htaken⟩

variable (site) in
/-- Without a task box there is no task. -/
theorem served_refused (hpush : pattern e.size = true) (he : e.NullFree) {park : Bool}
    {offer : Move L F K R} (hoffer : Offers e offer) {h : Host L F K (Watch σ)}
    (hs : (Host.init park ⟨mem, false⟩ : Host L F K (Watch σ)).step
      (site.failing e pattern).watched offer = some h) :
    Served (site.failing e pattern) (e.size + 1) h := by
  obtain ⟨f, w, hrun, hreq, -⟩ := handOver_failing site e pattern mem
  rw [hpush] at hrun
  have hcalm := calm_handOver (site.failing e pattern) (S := fun _ => True) (fun _ _ => trivial)
    he (World.start ⟨mem, false⟩) ⟨rfl, trivial⟩
  rw [Eff.wp, hrun] at hcalm
  -- the executor has no task after the offer, so none is polled
  have hend : ∀ {h₀ : Host L F K (Watch σ)} {sys : Sys} {a : Act},
      h₀ = Host.init park ⟨mem, false⟩ → step h₀.sys a = some sys → a.pushes = 0 →
      Served (site.failing e pattern) (e.size + 1) ⟨sys, h₀.futs, w⟩ := by
    intro h₀ sys a hinit hstep ha
    subst hinit
    obtain ⟨hrefined, hnext⟩ := (refined_init park _).step hstep
    refine ⟨hrefined, ⟨hcalm.2.1, Nat.le_of_eq hreq.symm⟩, fun t ht => ?_⟩
    have hzero : sys.nextTask = 0 := by
      rw [hnext, ha]
      rfl
    rw [show Sys.nextTask _ = 0 from hzero] at ht
    exact absurd ht (Nat.not_lt_zero t)
  cases hoffer with
  | spawn =>
      cases Host.stepped hs with
      | spawned hrun' hsys =>
          cases hrun.symm.trans hrun'
          exact hend rfl hsys rfl
  | blockOn out =>
      cases Host.stepped hs with
      | blocked hrun' hsys =>
          cases hrun.symm.trans hrun'
          exact hend rfl hsys rfl

/-- A null root with a task box is polled. -/
theorem null_root_polled {f : Fut L F K} {w : World (Watch σ)}
    (hrun : handOver site.watched.toEnv e (World.start ⟨mem, false⟩) = (some (f, true), w))
    (hf : f.isNull = true) : ∃ h : Host L F K (Watch σ),
      Machine.run (Host.step site.watched) (Host.init false ⟨mem, false⟩)
        [.spawn e, .run, .drive, .poll 1] = some h ∧ h.world.mem.nullPolled = true := by
  obtain rfl : f = .null := by cases f <;> first | rfl | cases hf
  let start : Host L F K (Watch σ) := Host.init false ⟨mem, false⟩
  have hspawn : start.step site.watched (.spawn e) = (step start.sys (.spawn 0 true)).map
      fun sys => ⟨sys, Function.update (fun _ => .null) 0 .null, w⟩ := by
    show Host.offer site.watched start e _ = _
    unfold Host.offer
    rw [show start.world = World.start ⟨mem, false⟩ from rfl, hrun]
    rfl
  rw [Machine.run_cons, hspawn]
  exact ⟨_, rfl, rfl⟩

/-- The task box is refused, or nothing at all is. -/
theorem never_polled (hsteps : site.StepsOk) (he : e.NullFree)
    (hcond : pattern e.size = true ∨ ∀ k < e.size, pattern k = false) {park : Bool}
    {offer : Move L F K R} (hoffer : Offers e offer) {moves : List (Move L F K R)}
    (hmoves : ∀ m ∈ moves, m.NullFree) {h : Host L F K (Watch σ)}
    (hrun : Machine.run (Host.step (site.failing e pattern).watched)
      (Host.init park ⟨mem, false⟩) (offer :: moves) = some h) : h.world.mem.nullPolled = false := by
  obtain ⟨h₁, hs, hrun⟩ := Option.bind_eq_some_iff.mp hrun
  cases hpush : pattern e.size with
  | true =>
      have hserved := served_refused site hpush he hoffer hs
      exact (hserved.run (failing_above site e pattern) hsteps hmoves hrun).calm.1
  | false =>
      have hnone : ∀ k, 0 ≤ k → (site.failing e pattern).refuses k = false := by
        intro k _
        rcases Nat.lt_trichotomy k e.size with hlt | rfl | hgt
        · rw [failing_within site pattern (Nat.le_of_lt hlt)]
          exact hcond.resolve_left (by simp [hpush]) k hlt
        · exact (failing_within site pattern (Nat.le_refl _)).trans hpush
        · exact failing_above site e pattern k hgt
      have hstart : Served (site.failing e pattern) 0
          (Host.init park ⟨mem, false⟩ : Host L F K (Watch σ)) :=
        ⟨refined_init park _, ⟨rfl, Nat.zero_le _⟩, fun t ht => absurd ht (Nat.not_lt_zero t)⟩
      have hfree : offer.NullFree := by cases hoffer <;> exact he
      exact ((hstart.step hnone hsteps hfree hs).run hnone hsteps hmoves hrun).calm.1

/-- A refused request is reported. -/
theorem reported (hcond : pattern e.size = true ∨ ∀ k < e.size, pattern k = false) {f : Fut L F K}
    {granted : Bool} {w : World (Watch σ)}
    (hrun : handOver (site.failing e pattern).watched.toEnv e (World.start ⟨mem, false⟩) =
      (some (f, granted), w))
    (hrefused : ∃ k ≤ e.size, (site.failing e pattern).refuses k = true) :
    (f.isNull = true ∨ granted = false) ∧
      ∀ id, .born id ∈ w.log → w.log.count (.released id) = 1 := by
  obtain ⟨k, hk, hrefused⟩ := hrefused
  rw [failing_within site pattern hk] at hrefused
  have hpush : pattern e.size = true := by
    rcases hcond with hpush | hnone
    · exact hpush
    · -- the refused request is not one of a constructor
      have hlast : k = e.size := by
        by_contra hne
        rw [hnone k (Nat.lt_of_le_of_ne hk hne)] at hrefused
        cases hrefused
      exact hlast ▸ hrefused
  obtain ⟨f', w', hrun', -, htaken⟩ := handOver_failing site e pattern mem
  rw [hpush] at hrun' htaken
  cases hrun.symm.trans hrun'
  exact ⟨.inr rfl, fun id hid => Custody.Owns.released_once htaken hid⟩

/-- A constructor that is refused its box, in front of a task box that is not, is not reported. -/
theorem condition_of_surfaces (h : Surfaces (site.failing e pattern) e mem)
    (hpush : pattern e.size = false) : ∀ k < e.size, pattern k = false := by
  intro k hk
  by_contra hpattern
  rw [Bool.not_eq_false] at hpattern
  obtain ⟨f, w, hrun, -, -⟩ := handOver_failing site e pattern mem
  rw [hpush] at hrun
  obtain ⟨hnull | hnever, -⟩ := h.surfaces f true w hrun
    ⟨k, Nat.le_of_lt hk, (failing_within site pattern (Nat.le_of_lt hk)).trans hpattern⟩
  · obtain ⟨h', hpolled, hflag⟩ := null_root_polled hrun hnull
    have hquiet := h.notPolled false (.spawn e) [.run, .drive, .poll 1] h' .spawn
      (by simp [Move.NullFree]) hpolled
    rw [hflag] at hquiet
    cases hquiet
  · cases hnever

end Condition

/-- **An out-of-memory is reported iff no constructor before the last request fails.** -/
theorem oom_surfaces_iff {site : Site L F K R σ} (hsteps : site.StepsOk) {e : Expr L F K}
    (he : e.NullFree) (pattern : Nat → Bool) (mem : σ) :
    Surfaces (site.failing e pattern) e mem ↔
      pattern e.size = true ∨ ∀ k < e.size, pattern k = false := by
  constructor
  · intro h
    cases hpush : pattern e.size with
    | true => exact .inl rfl
    | false => exact .inr (condition_of_surfaces h hpush)
  · intro hcond
    constructor
    · intro park offer moves h hoffer hmoves hrun
      exact never_polled hsteps he hcond hoffer hmoves hrun
    · exact fun f granted w => reported hcond

def readySite : Site Unit Unit Empty Unit Unit where
  leafPoll _ l _ _ m := ((true, l), m)
  leafDrop _ _ m     := m
  mapFn _ _ m        := m
  stateFn k _        := nomatch k
  refuses _          := false
  wakes m            := ([], m)
  hook m             := (false, m)
  call _ m           := m
  trap m             := m

/-- `cexec_map_in` of a `cexec_future_ready_in`. -/
def readyMap : Expr Unit Unit Empty := .map (.leaf ()) none

/-- The task box of the map is refused. -/
theorem oom_surfaces_iff_task :
    Surfaces (readySite.failing readyMap (· = 2)) readyMap () :=
  (oom_surfaces_iff (fun k => nomatch k) (show readyMap.NullFree from trivial) _ _).mpr (.inl rfl)

/-- The box of the leaf is refused: the map holds the null future, is taken over, and polls it. -/
theorem null_child_polled :
    ¬ Surfaces (readySite.failing readyMap (· = 0)) readyMap () ∧
      ∃ h, Machine.run (Host.step (readySite.failing readyMap (· = 0)).watched)
        (Host.init false ⟨(), false⟩) [.spawn readyMap, .run, .drive, .poll 2] = some h ∧
          h.world.mem.nullPolled = true := by
  have hpolled : ∃ h, Machine.run (Host.step (readySite.failing readyMap (· = 0)).watched)
      (Host.init false ⟨(), false⟩) [.spawn readyMap, .run, .drive, .poll 2] = some h ∧
        h.world.mem.nullPolled = true := ⟨_, rfl, rfl⟩
  refine ⟨fun hsurfaces => ?_, hpolled⟩
  obtain ⟨h, hrun, hflag⟩ := hpolled
  have hquiet := hsurfaces.notPolled false (.spawn readyMap) [.run, .drive, .poll 2] h .spawn
    (by simp [Move.NullFree]) hrun
  rw [hflag] at hquiet
  cases hquiet

end CustLib.Exec
