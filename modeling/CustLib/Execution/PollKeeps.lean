import CustLib.Execution.StateMachine

/-!
# What polls keep

Constructors, drops and polls touch the memory through the code around the combinators only. So a
property of the memory that this code keeps (`Env.Keeps`) is kept by all of them, for every tree and
state table, and whether or not they get stuck.
-/

namespace CustLib.Exec

variable {L F K σ : Type}

/-! ## From the code around the combinators to polls

`J` is a property of the memory alone. Each definition of `CustLib.Execution.Future` has a lemma, in the
order of that module; state machines are included, since a property that every call keeps does not care
how often they are made.
-/

/-- The code around the combinators keeps `J`. -/
structure Env.Keeps (env : Env L F K σ) (J : σ → Prop) : Prop where
  leafPoll : ∀ id l wk out m, J m → J (env.leafPoll id l wk out m).2
  leafDrop : ∀ id l m, J m → J (env.leafDrop id l m)
  mapFn    : ∀ f p m, J m → J (env.mapFn f p m)
  stateFn  : ∀ k m, J m → J (env.stateFn k m).2

def KeepsMem {α : Type} (J : σ → Prop) (x : Eff (World σ) α) : Prop :=
  Eff.Keeps (fun w => J w.mem) x fun _ => True

section Keeps

variable {env : Env L F K σ} {J : σ → Prop}

theorem KeepsMem.bind {α β : Type} {x : Eff (World σ) α} {f : α → Eff (World σ) β}
    (hx : KeepsMem J x) (hf : ∀ a, KeepsMem J (f a)) : KeepsMem J (x >>= f) :=
  Eff.keeps_bind hx fun a _ => hf a

theorem KeepsMem.when {c : Bool} {x : Eff (World σ) Unit} (h : KeepsMem J x) :
    KeepsMem J (Eff.when c x) := Eff.keeps_when h

theorem keepsMem_pure {α : Type} (a : α) : KeepsMem J (pure a : Eff (World σ) α) :=
  Eff.keeps_pure trivial

theorem keepsMem_note (e : Custody.Event) : KeepsMem J (note e) := Eff.keeps_modify fun _ h => h

theorem keepsMem_onMem {α : Type} {f : σ → α × σ} (h : ∀ m, J m → J (f m).2) :
    KeepsMem J (onMem f) := Eff.keeps_move fun _ hw => ⟨trivial, h _ hw⟩

/-- Drops go through the leaves. -/
theorem Env.Keeps.drop (h : env.Keeps J) (f : Fut L F K) : KeepsMem J (futureDrop env f) :=
  futureDrop_keeps (fun _ _ => id) (fun id l w => h.leafDrop id l w.mem) f

theorem keepsMem_box {box : Nat → Fut L F K} {other : Eff (World σ) (Fut L F K)}
    (hother : KeepsMem J other) :
    KeepsMem J (do if ← request env then return box (← birth) else other) := by
  apply KeepsMem.bind
  · exact Eff.keeps_move fun _ hw => ⟨trivial, hw⟩
  · intro granted
    cases granted with
    | true =>
        apply KeepsMem.bind
        · exact Eff.keeps_move fun _ hw => ⟨trivial, hw⟩
        · exact fun _ => keepsMem_pure _
    | false => exact hother

/-- Constructors do not touch the memory of the leaves, except by their drops. -/
theorem Env.Keeps.build (h : env.Keeps J) (e : Expr L F K) : KeepsMem J (build env e) := by
  have hpair : ∀ (box : Nat → Fut L F K → Fut L F K → Fut L F K) (a b : Fut L F K),
      KeepsMem J (pairIn env box a b) := fun box a b =>
    keepsMem_box ((h.drop a).bind fun _ => (h.drop b).bind fun _ => keepsMem_pure _)
  induction e with
  | null => exact keepsMem_pure _
  | leaf l =>
      apply KeepsMem.bind
      · exact Eff.keeps_move fun _ hw => ⟨trivial, hw⟩
      · exact fun _ => keepsMem_pure _
  | map inner fn ih =>
      exact ih.bind fun f => keepsMem_box ((h.drop f).bind fun _ => keepsMem_pure _)
  | then_ a b iha ihb | join2 a size b iha ihb | select2 a b iha ihb =>
      exact iha.bind fun fa => ihb.bind fun fb => hpair _ fa fb
  | sm states start => exact keepsMem_box (keepsMem_pure _)

def PollKeeps (J : σ → Prop) (poll : Poller L F K σ) : Prop :=
  ∀ f wk out, KeepsMem J (poll f wk out)

variable {poll : Poller L F K σ}

theorem Env.Keeps.applyFn (h : env.Keeps J) (st : Bool) (fn : Option F) (out : Option Nat) :
    KeepsMem J (applyFn env st fn out) := by
  unfold Exec.applyFn
  split
  · exact keepsMem_onMem fun m => h.mapFn _ _ m
  · exact keepsMem_pure _

theorem Env.Keeps.joinArm (h : env.Keeps J) (hp : PollKeeps J poll) (child : Fut L F K)
    (done : Bool) (wk : TaskId) (out : Option Nat) :
    KeepsMem J (joinArm env poll child done wk out) := by
  unfold Exec.joinArm
  cases done with
  | true => exact keepsMem_pure _
  | false =>
      apply (hp child wk out).bind
      intro r
      exact KeepsMem.bind (h.drop r.2).when fun _ => keepsMem_pure _

theorem thenSecond_keeps (hp : PollKeeps J poll) (id : Nat) (a b : Fut L F K) (stage : Nat)
    (wk : TaskId) (out : Option Nat) : KeepsMem J (do
      let (st, b) ← poll b wk out
      return (st, Fut.then_ id a b stage)) :=
  (hp b wk out).bind fun _ => keepsMem_pure _

theorem Env.Keeps.enterState (h : env.Keeps J) (k : K) (cur : Fut L F K) (curOut : Option Nat)
    (curNext : Nat) (haveCur : Bool) :
    KeepsMem J (enterState env k cur curOut curNext haveCur) := by
  unfold Exec.enterState
  cases haveCur with
  | true => exact keepsMem_pure _
  | false =>
      apply (keepsMem_onMem fun m => h.stateFn k m).bind
      intro step
      exact (h.build step.fut).bind fun _ => keepsMem_pure _

/-- However many states a poll goes through. -/
theorem Env.Keeps.smPoll (h : env.Keeps J) (hp : PollKeeps J poll) (id : Nat) (states : List K)
    (wk : TaskId) (n state : Nat) (cur : Fut L F K) (curOut : Option Nat) (curNext : Nat)
    (haveCur : Bool) :
    KeepsMem J (smPoll env poll id states wk n state cur curOut curNext haveCur) := by
  induction n generalizing state cur curOut curNext haveCur with
  | zero => exact Eff.keeps_stuck
  | succ n ih =>
      unfold Exec.smPoll
      split
      · exact keepsMem_pure _
      · apply (h.enterState _ _ _ _ _).bind
        intro r
        dsimp only
        split
        · exact ih _ _ _ _ _
        · apply (hp _ _ _).bind
          intro r'
          obtain ⟨_ | _, cur'⟩ := r'
          · exact keepsMem_pure _
          · exact (h.drop cur').bind fun _ => ih _ _ _ _ _

/-- The polls of all nodes keep it, if those of their children do. -/
theorem Env.Keeps.nodePoll (h : env.Keeps J) (hp : PollKeeps J poll) (n : Nat) :
    PollKeeps J (nodePoll env poll n) := by
  intro f wk out
  cases f with
  | null => exact Eff.keeps_stuck
  | leaf id l =>
      exact (keepsMem_onMem fun m => h.leafPoll id l wk out m).bind fun _ => keepsMem_pure _
  | map id inner fn =>
      apply (hp inner wk out).bind
      intro r
      exact (h.applyFn r.1 fn out).bind fun _ => keepsMem_pure _
  | then_ id a b stage =>
      show KeepsMem J (thenPoll env poll id a b stage wk out)
      unfold thenPoll
      split
      · apply (hp a wk none).bind
        intro r
        obtain ⟨_ | _, a'⟩ := r
        · exact keepsMem_pure _
        · exact (h.drop a').bind fun _ => thenSecond_keeps hp id a' b 1 wk out
      · exact thenSecond_keeps hp id a b stage wk out
  | join2 id a b aSize aDone bDone =>
      apply (h.joinArm hp a aDone wk out).bind
      intro ra
      exact (h.joinArm hp b bDone wk _).bind fun _ => keepsMem_pure _
  | select2 id a b =>
      apply (hp a wk out).bind
      intro r
      obtain ⟨_ | _, a'⟩ := r
      · exact (hp b wk out).bind fun _ => keepsMem_pure _
      · exact keepsMem_pure _
  | sm id states state cur curOut curNext haveCur => exact h.smPoll hp id states wk n _ _ _ _ _

/-- **Polls keep what the code around the combinators keeps.** -/
theorem Env.Keeps.futurePoll (h : env.Keeps J) (n : Nat) : PollKeeps J (futurePoll env n) := by
  induction n with
  | zero => exact fun _ _ _ => Eff.keeps_stuck
  | succ n ih =>
      intro f wk out
      unfold Exec.futurePoll
      split
      · exact Eff.keeps_stuck
      · apply (keepsMem_note _).bind
        intro _
        apply (h.nodePoll ih n f wk out).bind
        intro r
        exact KeepsMem.bind (keepsMem_note _).when fun _ => keepsMem_pure _

/-- A machine that is driven, too. -/
theorem Env.Keeps.driveSm (h : env.Keeps J) (n : Nat) (ts : List (Turn σ))
    (hts : ∀ t ∈ ts, ∀ m, J m → J (t.rest m)) (f : Fut L F K) (wk : TaskId) :
    KeepsMem J (driveSm env (Exec.futurePoll env n) n ts f wk) := by
  have hpoll : ∀ f wk, KeepsMem J (Exec.nodePoll env (Exec.futurePoll env n) n f wk none) :=
    fun f wk => h.nodePoll (h.futurePoll n) n f wk none
  induction ts generalizing f wk with
  | nil =>
      rw [driveSm_eq]
      exact (hpoll f wk).bind fun r => by
        obtain ⟨_ | _, f'⟩ := r <;> exact keepsMem_pure _
  | cons t ts ih =>
      rw [driveSm_eq]
      apply (hpoll f wk).bind
      intro r
      obtain ⟨_ | _, f'⟩ := r
      · apply (keepsMem_onMem fun m => hts t (List.mem_cons_self ..) m).bind
        exact fun _ => ih (fun t' ht' => hts t' (List.mem_cons_of_mem _ ht')) f' t.waker
      · exact keepsMem_pure _

end Keeps

end CustLib.Exec
