import CustLib.Lib.Overwrite
import CustLib.Execution.Future

/-!
# The outputs of racing arms

Outputs are bytes in memory. A leaf writes its output when it answers `Ready`, `map` rewrites the
output of its child, and `join2` gives its children adjacent places. Which leaf answers when is part
of the tree; the values are left open.

The two arms of `select2` share one place for the output, and a `join2` arm writes part of its output
before it is `Ready`. `select2_yields_winner_iff` says when the winner's output is there in the end, for
all values: the loser must not show in it (`CustLib.Lib.Overwrite`). `loser_overwrites_winner` is a race
in which it does.
-/

namespace CustLib.Exec

open CustLib.Overwrite

/-! ## Two environments in which a tree behaves alike

When the answers of leaves do not depend on the memory, the same tree can be run on bytes and on a list
of accesses. The two runs agree in all but the memory.
-/

section Agreement

variable {L F σ τ : Type} {R : σ → τ → Prop}

structure EnvAgree (R : σ → τ → Prop) (env : Env L F Empty σ) (env' : Env L F Empty τ) : Prop where
  leafPoll : ∀ id l wk out m m', R m m' →
    (env.leafPoll id l wk out m).1 = (env'.leafPoll id l wk out m').1 ∧
      R (env.leafPoll id l wk out m).2 (env'.leafPoll id l wk out m').2
  leafDrop : ∀ id l m m', R m m' → R (env.leafDrop id l m) (env'.leafDrop id l m')
  mapFn    : ∀ f p m m', R m m' → R (env.mapFn f p m) (env'.mapFn f p m')

def MemRel (R : σ → τ → Prop) (w : World σ) (w' : World τ) : Prop := R w.mem w'.mem

theorem agree_note (e : Custody.Event) : Eff.Agree (MemRel R) (note e) (note e) :=
  Eff.agree_modify fun _ _ h => h

variable {env : Env L F Empty σ} {env' : Env L F Empty τ}

theorem futureDrop_agree (h : EnvAgree R env env') (f : Fut L F Empty) :
    Eff.Agree (MemRel R) (futureDrop env f) (futureDrop env' f) := by
  induction f with
  | null => exact Eff.agree_pure ()
  | leaf id l =>
      apply Eff.agree_bind (agree_note _)
      intro _
      exact Eff.agree_move fun w w' hw => ⟨rfl, h.leafDrop id l w.mem w'.mem hw⟩
  | map id inner fn ih => exact Eff.agree_bind (agree_note _) fun _ => ih
  | then_ id a b stage iha ihb =>
      exact Eff.agree_bind (agree_note _) fun _ => Eff.agree_bind (Eff.agree_when iha) fun _ => ihb
  | join2 id a b aSize aDone bDone iha ihb =>
      exact Eff.agree_bind (agree_note _) fun _ =>
        Eff.agree_bind (Eff.agree_when iha) fun _ => Eff.agree_when ihb
  | select2 id a b iha ihb =>
      exact Eff.agree_bind (agree_note _) fun _ => Eff.agree_bind iha fun _ => ihb
  | sm id states state cur curOut curNext haveCur ih =>
      exact Eff.agree_bind (agree_note _) fun _ => Eff.agree_when ih

def PollAgree (R : σ → τ → Prop) (poll : Poller L F Empty σ) (poll' : Poller L F Empty τ) : Prop :=
  ∀ f wk out, Eff.Agree (MemRel R) (poll f wk out) (poll' f wk out)

variable {poll : Poller L F Empty σ} {poll' : Poller L F Empty τ}

theorem joinArm_agree (h : EnvAgree R env env') (hp : PollAgree R poll poll')
    (child : Fut L F Empty) (done : Bool) (wk : TaskId) (out : Option Nat) :
    Eff.Agree (MemRel R) (joinArm env poll child done wk out)
      (joinArm env' poll' child done wk out) := by
  unfold joinArm
  cases done with
  | true => exact Eff.agree_pure _
  | false =>
      apply Eff.agree_bind (hp child wk out)
      rintro ⟨st, child'⟩
      exact Eff.agree_bind (Eff.agree_when (futureDrop_agree h child')) fun _ => Eff.agree_pure _

/-- The polls of all nodes agree, if those of their children do. -/
theorem nodePoll_agree (h : EnvAgree R env env') (hp : PollAgree R poll poll') (n : Nat) :
    PollAgree R (nodePoll env poll n) (nodePoll env' poll' n) := by
  intro f wk out
  cases f with
  | null => exact Eff.agree_stuck
  | leaf id l =>
      refine Eff.agree_bind ?_ fun _ => Eff.agree_pure _
      exact Eff.agree_move fun w w' hw => h.leafPoll id l wk out w.mem w'.mem hw
  | map id inner fn =>
      apply Eff.agree_bind (hp inner wk out)
      rintro ⟨st, inner'⟩
      refine Eff.agree_bind ?_ fun _ => Eff.agree_pure _
      unfold applyFn
      split
      next f p => exact Eff.agree_move fun w w' hw => ⟨rfl, h.mapFn f p w.mem w'.mem hw⟩
      · exact Eff.agree_pure _
  | then_ id a b stage =>
      have hsecond : ∀ (a : Fut L F Empty) (stage : Nat), Eff.Agree (MemRel R) (do
            let (st, b) ← poll b wk out
            return (st, Fut.then_ id a b stage)) (do
            let (st, b) ← poll' b wk out
            return (st, Fut.then_ id a b stage)) := fun a stage =>
        Eff.agree_bind (hp b wk out) fun _ => Eff.agree_pure _
      show Eff.Agree _ (thenPoll env poll id a b stage wk out)
        (thenPoll env' poll' id a b stage wk out)
      unfold thenPoll
      split
      · apply Eff.agree_bind (hp a wk none)
        rintro ⟨st, a'⟩
        cases st with
        | false => exact Eff.agree_pure _
        | true => exact Eff.agree_bind (futureDrop_agree h a') fun _ => hsecond a' 1
      · exact hsecond a stage
  | join2 id a b aSize aDone bDone =>
      exact Eff.agree_bind (joinArm_agree h hp a aDone wk out) fun _ =>
        Eff.agree_bind (joinArm_agree h hp b bDone wk _) fun _ => Eff.agree_pure _
  | select2 id a b =>
      apply Eff.agree_bind (hp a wk out)
      rintro ⟨st, a'⟩
      cases st with
      | true => exact Eff.agree_pure _
      | false => exact Eff.agree_bind (hp b wk out) fun _ => Eff.agree_pure _
  | sm id states state cur curOut curNext haveCur =>
      cases n with
      | zero => exact Eff.agree_stuck
      | succ n =>
          show Eff.Agree _ (smPoll env poll id states wk (n + 1) state cur curOut curNext haveCur)
            (smPoll env' poll' id states wk (n + 1) state cur curOut curNext haveCur)
          unfold smPoll
          split
          · exact Eff.agree_pure _
          next k _ => exact k.elim

/-- **Polls agree** when the environments do. -/
theorem futurePoll_agree (h : EnvAgree R env env') (n : Nat) :
    PollAgree R (futurePoll env n) (futurePoll env' n) := by
  induction n with
  | zero => exact fun f wk out => Eff.agree_stuck
  | succ n ih =>
      intro f wk out
      unfold futurePoll
      split
      · exact Eff.agree_stuck
      · apply Eff.agree_bind (agree_note _)
        intro _
        apply Eff.agree_bind (nodePoll_agree h ih n f wk out)
        rintro ⟨st, f'⟩
        exact Eff.agree_bind (Eff.agree_when (agree_note _)) fun _ => Eff.agree_pure _

end Agreement

/-! ## Leaves that write their output

A leaf has a fixed number of `Pending` polls and then writes its bytes. Its `key` says which leaf it is;
the values are given by a table of keys, so a statement for all tables is one about which access wrote
what.
-/

structure OutLeaf where
  key     : Nat
  size    : Nat
  answers : Nat → Bool
  polls   : Nat

structure OutFn where
  key  : Nat
  size : Nat

abbrev OutFut := Fut OutLeaf OutFn Empty

/-- The polls of leaves and the calls of functions, with their accesses to the memory. -/
def outEnv {σ : Type} (access : Effect → σ → σ) : Env OutLeaf OutFn Empty σ where
  leafPoll _ l _ out m :=
    ((l.answers l.polls, { l with polls := l.polls + 1 }),
      match l.answers l.polls, out with
      | true, some p => access (.write l.key p l.size) m
      | _, _         => m)
  leafDrop _ _ m := m
  mapFn f p m    := access (.rewrite f.key p f.size) m
  stateFn k _    := nomatch k
  refuses _      := false

def byteEnv (v : Values) : Env OutLeaf OutFn Empty Memory := outEnv fun e m => e.apply v m

def accessEnv : Env OutLeaf OutFn Empty (List Effect) := outEnv fun e es => es ++ [e]

/-- The size of a tree's output, if its parts have the sizes that the tree needs: `join2` has the
    right offset, the arms of `select2` have the same output, and functions fit what they rewrite. -/
def outSize : OutFut → Option Nat
  | .leaf _ l => some l.size
  | .map _ inner fn =>
    match outSize inner, fn with
    | some n, some f => if f.size = n then some n else none
    | some n, none   => some n
    | none, _        => none
  | .then_ _ a b _ => if (outSize a).isSome then outSize b else none
  | .join2 _ a b aSize _ _ =>
    match outSize a, outSize b with
    | some n, some m => if aSize = n then some (n + m) else none
    | _, _           => none
  | .select2 _ a b =>
    match outSize a, outSize b with
    | some n, some m => if n = m then some n else none
    | _, _           => none
  | .null | .sm .. => none

theorem plain_of_outSize {f : OutFut} {n : Nat} (h : outSize f = some n) : f.Plain := by
  induction f generalizing n with
  | null => cases h
  | leaf id l => trivial
  | map id inner fn ih =>
      simp only [outSize] at h
      cases hinner : outSize inner with
      | none => simp [hinner] at h
      | some m => exact ih hinner
  | then_ id a b stage iha ihb =>
      simp only [outSize, Option.ite_none_right_eq_some, Option.isSome_iff_exists] at h
      obtain ⟨⟨m, ha⟩, hb⟩ := h
      exact ⟨iha ha, ihb hb⟩
  | join2 id a b aSize aDone bDone iha ihb =>
      simp only [outSize] at h
      split at h
      next ha hb => exact ⟨iha ha, ihb hb⟩
      · cases h
  | select2 id a b iha ihb =>
      simp only [outSize] at h
      split at h
      next ha hb => exact ⟨iha ha, ihb hb⟩
      · cases h
  | sm id states state cur curOut curNext haveCur ih => cases h

def keys : OutFut → List Nat
  | .null => []
  | .leaf _ l => [l.key]
  | .map _ inner fn => (fn.map OutFn.key).toList ++ keys inner
  | .then_ _ a b _ => keys a ++ keys b
  | .join2 _ a b _ _ _ => keys a ++ keys b
  | .select2 _ a b => keys a ++ keys b
  | .sm _ _ _ cur _ _ _ => keys cur

/-- Drive a future alone: poll it until it is `Ready`, `k` times at most. -/
def driveAlone {σ : Type} (env : Env OutLeaf OutFn Empty σ) (wk : TaskId) (out : Option Nat) :
    OutFut → Nat → Eff (World σ) (Bool × OutFut)
  | f, 0     => pure (false, f)
  | f, k + 1 => do
    let (st, f) ← f.poll env wk out
    if st then return (true, f) else driveAlone env wk out f k

/-! ## The accesses of a tree

One poll of a tree as its answer, its successor and its accesses. The bytes in memory are the replay of
the accesses.
-/

/-- One poll: its answer, the tree after it, and its accesses. -/
def turn (wk : TaskId) (out : Option Nat) (f : OutFut) :
    Option (Bool × OutFut) × List Effect :=
  ((f.poll accessEnv wk out (World.start [])).1, (f.poll accessEnv wk out (World.start [])).2.mem)

/-- The first `k` polls: the accesses of each, and whether the last is `Ready`. -/
def turns (wk : TaskId) (out : Option Nat) : OutFut → Nat → List (List Effect) × Bool
  | _, 0     => ([], false)
  | f, k + 1 =>
    match turn wk out f with
    | (some (true, _), es)   => ([es], true)
    | (some (false, f'), es) => (es :: (turns wk out f' k).1, (turns wk out f' k).2)
    | (none, es)             => ([es], false)

/-- The bytes are what the accesses make of them. -/
theorem byteEnv_agree (v : Values) (m : Memory) :
    EnvAgree (fun m' es => m' = replay v m es) (byteEnv v) accessEnv where
  leafPoll := by
    rintro id l wk out m' es rfl
    refine ⟨rfl, ?_⟩
    dsimp only [byteEnv, accessEnv, outEnv]
    split
    · rw [replay_append]
      rfl
    · rfl
  leafDrop := fun _ _ _ _ h => h
  mapFn := by
    rintro f p m' es rfl
    show _ = replay v m (es ++ [_])
    rw [replay_append]
    rfl

/-- A poll adds its accesses to those before. -/
theorem accessEnv_agree (pre : List Effect) :
    EnvAgree (fun es es' => es = pre ++ es') accessEnv accessEnv where
  leafPoll := by
    rintro id l wk out es es' rfl
    refine ⟨rfl, ?_⟩
    dsimp only [accessEnv, outEnv]
    split
    · exact List.append_assoc _ _ _
    · rfl
  leafDrop := fun _ _ _ _ h => h
  mapFn := by
    rintro f p es es' rfl
    exact List.append_assoc _ _ _

section Turns

variable {wk : TaskId} {out : Option Nat}

variable (wk out) in
/-- Every poll of a plain tree returns. -/
theorem turn_total {f : OutFut} (hf : f.Plain) :
    ∃ st f', (turn wk out f).1 = some (st, f') ∧ f'.Plain := by
  obtain ⟨⟨st, f'⟩, w', hrun, hf'⟩ := Eff.wp_total
    (futurePoll_total accessEnv f.height f wk out (World.start []) ⟨hf, Nat.le_refl _⟩)
  exact ⟨st, f', by rw [turn, Fut.poll, hrun], hf'.1⟩

variable (wk out) in
/-- What a poll leaves in memory is the replay of its accesses. -/
theorem poll_bytes (v : Values) (f : OutFut) (w : World Memory) :
    (f.poll (byteEnv v) wk out w).1 = (turn wk out f).1 ∧
      (f.poll (byteEnv v) wk out w).2.mem = replay v w.mem (turn wk out f).2 :=
  futurePoll_agree (byteEnv_agree v w.mem) f.height f wk out w (World.start []) rfl

/-- `turn` is the poll, with a list of accesses for its memory. -/
theorem turn_spec {n : Nat} {f : OutFut} (hf : f.Fits n) (w : World (List Effect)) :
    Eff.wp (futurePoll accessEnv n f wk out)
      (fun r w' => (turn wk out f).1 = some r ∧ w'.mem = w.mem ++ (turn wk out f).2)
      (fun _ => False) w := by
  have hagree := futurePoll_agree (accessEnv_agree w.mem) f.height f wk out w (World.start [])
    (List.append_nil w.mem).symm
  obtain ⟨r, w', hrun, -⟩ := Eff.wp_total (futurePoll_total accessEnv n f wk out w hf)
  have hpoll := futurePoll_fits accessEnv hf wk out w
  rw [Eff.wp, hrun]
  rw [hrun] at hpoll
  rw [Fut.poll] at hpoll
  rw [← hpoll] at hagree
  exact ⟨hagree.1.symm, hagree.2⟩

/-! ## Turns of a race

`select_poll` gives both arms the same place. A race in rounds is the interleaving of the accesses of
two futures that are driven alone, cut off where the first of them is `Ready`.
-/

theorem turn_eq_of_wp {f : OutFut} {r : Bool × OutFut} {es : List Effect}
    (h : Eff.wp (f.poll accessEnv wk out) (fun r' w' => r' = r ∧ w'.mem = es) (fun _ => False)
      (World.start [])) : turn wk out f = (some r, es) := by
  obtain ⟨r', w', hrun, hr, hes⟩ := Eff.wp_total h
  rw [turn, hrun, hr, hes]

section

variable {a b a' b' : OutFut} (ha : a.Plain) (hb : b.Plain) (id : Nat)
include ha

/-- A race in which the first arm is `Ready`. -/
theorem turn_select_ready (hta : (turn wk out a).1 = some (true, a')) :
    turn wk out (.select2 id a b) = (some (true, .select2 id a' b), (turn wk out a).2) := by
  have hfa : a.Fits (max a.height b.height) := ⟨ha, Nat.le_max_left _ _⟩
  apply turn_eq_of_wp
  refine Eff.wp_seq (P := fun _ w => w.mem = []) rfl fun _ w hw => ?_
  refine Eff.wp_seq (P := fun r w' => r = (true, .select2 id a' b) ∧ w'.mem = (turn wk out a).2) ?_ ?_
  · apply Eff.wp_seq (turn_spec hfa w)
    rintro ⟨st, fa⟩ w' ⟨hst, hmem⟩
    cases hta.symm.trans hst
    exact ⟨rfl, by rw [hmem, hw, List.nil_append]⟩
  · rintro r w' ⟨rfl, hmem⟩
    exact ⟨rfl, hmem⟩

include hb

/-- A race in which the first arm is not. -/
theorem turn_select_pending {st : Bool} (hta : (turn wk out a).1 = some (false, a'))
    (htb : (turn wk out b).1 = some (st, b')) :
    turn wk out (.select2 id a b) =
      (some (st, .select2 id a' b'), (turn wk out a).2 ++ (turn wk out b).2) := by
  have hfa : a.Fits (max a.height b.height) := ⟨ha, Nat.le_max_left _ _⟩
  have hfb : b.Fits (max a.height b.height) := ⟨hb, Nat.le_max_right _ _⟩
  apply turn_eq_of_wp
  refine Eff.wp_seq (P := fun _ w => w.mem = []) rfl fun _ w hw => ?_
  refine Eff.wp_seq (P := fun r w' => r = (st, .select2 id a' b') ∧
    w'.mem = (turn wk out a).2 ++ (turn wk out b).2) ?_ ?_
  · apply Eff.wp_seq (turn_spec hfa w)
    rintro ⟨sta, fa⟩ w' ⟨hsta, hmem⟩
    cases hta.symm.trans hsta
    apply Eff.wp_seq (turn_spec hfb w')
    rintro ⟨stb, fb⟩ w'' ⟨hstb, hmem'⟩
    cases htb.symm.trans hstb
    exact ⟨rfl, by rw [hmem', hmem, hw, List.nil_append]⟩
  · rintro r w' ⟨rfl, hmem⟩
    cases st <;> exact ⟨rfl, hmem⟩

end

theorem turns_ready {f f' : OutFut} (h : (turn wk out f).1 = some (true, f')) (k : Nat) :
    turns wk out f (k + 1) = ([(turn wk out f).2], true) := by
  have hturn : turn wk out f = (some (true, f'), (turn wk out f).2) := Prod.ext h rfl
  rw [turns, hturn]

/-- A `Pending` is one turn more. -/
theorem turns_pending {f f' : OutFut} (h : (turn wk out f).1 = some (false, f')) (k : Nat) :
    turns wk out f (k + 1) =
      ((turn wk out f).2 :: (turns wk out f' k).1, (turns wk out f' k).2) := by
  have hturn : turn wk out f = (some (false, f'), (turn wk out f).2) := Prod.ext h rfl
  rw [turns, hturn]

/-- Driving a future alone performs its accesses. -/
theorem driveAlone_bytes (v : Values) {f : OutFut} (hf : f.Plain) (k : Nat) (w : World Memory) :
    Eff.wp (driveAlone (byteEnv v) wk out f k)
      (fun r w' => r.1 = (turns wk out f k).2 ∧
        w'.mem = replay v w.mem (turns wk out f k).1.flatten) (fun _ => False) w := by
  induction k generalizing f w with
  | zero => exact ⟨rfl, rfl⟩
  | succ k ih =>
      obtain ⟨st, f', hturn, hf'⟩ := turn_total wk out hf
      have hpoll : Eff.wp (f.poll (byteEnv v) wk out)
          (fun r w' => r = (st, f') ∧ w'.mem = replay v w.mem (turn wk out f).2)
          (fun _ => False) w := by
        obtain ⟨hres, hmem⟩ := poll_bytes wk out v f w
        rw [hturn] at hres
        exact Eff.wp_iff.mpr
          ⟨fun r hr => ⟨Option.some.inj (hr.symm.trans hres), hmem⟩, fun hr => by simp [hr] at hres⟩
      apply Eff.wp_seq hpoll
      rintro r w' ⟨rfl, hmem⟩
      cases st with
      | true =>
          rw [turns_ready hturn]
          exact ⟨rfl, by simpa using hmem⟩
      | false =>
          rw [turns_pending hturn]
          refine Eff.wp_mono (ih hf' w') ?_ fun _ => False.elim
          rintro r w'' ⟨hst, hmem'⟩
          exact ⟨hst, by rw [hmem', hmem, List.flatten_cons, replay_append]⟩

/-- The accesses of two parties that take turns, in rounds of the first. -/
def interleave {α : Type} : List (List α) → List (List α) → List α
  | [], _       => []
  | x :: xs, ys => x ++ ys.headD [] ++ interleave xs ys.tail

/-- What a round of a race can be. -/
theorem turn_select_cases {a b : OutFut} (ha : a.Plain) (hb : b.Plain) (id : Nat) :
    (∃ a', (turn wk out a).1 = some (true, a') ∧
        turn wk out (.select2 id a b) = (some (true, .select2 id a' b), (turn wk out a).2)) ∨
      ∃ a' b' st, a'.Plain ∧ b'.Plain ∧ (turn wk out a).1 = some (false, a') ∧
        (turn wk out b).1 = some (st, b') ∧
        turn wk out (.select2 id a b) =
          (some (st, .select2 id a' b'), (turn wk out a).2 ++ (turn wk out b).2) := by
  obtain ⟨sta, a', hta, ha'⟩ := turn_total wk out ha
  obtain ⟨stb, b', htb, hb'⟩ := turn_total wk out hb
  cases sta with
  | true => exact .inl ⟨a', hta, turn_select_ready ha id hta⟩
  | false => exact .inr ⟨a', b', stb, ha', hb', hta, htb, turn_select_pending ha hb id hta htb⟩

/-- **A race, round by round**: as long as it is not decided, both arms are pending; it is decided
    when an arm is `Ready`, and its accesses are those of the arms in turn. The second arm is not
    polled in the round in which the first is `Ready`. -/
theorem turns_select {a b : OutFut} (ha : a.Plain) (hb : b.Plain) (id r : Nat)
    (hr : (turns wk out (.select2 id a b) r).2 = false) :
    (turns wk out a r).2 = false ∧ (turns wk out b r).2 = false ∧
      (turns wk out (.select2 id a b) (r + 1)).2 =
        ((turns wk out a (r + 1)).2 || (turns wk out b (r + 1)).2) ∧
      (turns wk out (.select2 id a b) (r + 1)).1.flatten =
        interleave (turns wk out a (r + 1)).1
          (if (turns wk out a (r + 1)).2 then (turns wk out b r).1
            else (turns wk out b (r + 1)).1) := by
  induction r generalizing a b with
  | zero =>
      refine ⟨rfl, rfl, ?_⟩
      rcases turn_select_cases ha hb id with ⟨a', hta, hs⟩ | ⟨a', b', st, -, -, hta, htb, hs⟩
      · rw [turns_ready hta, turns_ready (congrArg Prod.fst hs), hs]
        exact ⟨by simp, by simp [interleave, turns]⟩
      · rw [turns_pending hta]
        cases st with
        | true =>
            rw [turns_ready htb, turns_ready (congrArg Prod.fst hs), hs]
            exact ⟨by simp, by simp [interleave, turns]⟩
        | false =>
            rw [turns_pending htb, turns_pending (congrArg Prod.fst hs), hs]
            exact ⟨by simp [turns], by simp [interleave, turns]⟩
  | succ r ih =>
      rcases turn_select_cases ha hb id with ⟨a', -, hs⟩ | ⟨a', b', st, ha', hb', hta, htb, hs⟩
      · rw [turns_ready (congrArg Prod.fst hs)] at hr
        cases hr
      cases st with
      | true =>
          rw [turns_ready (congrArg Prod.fst hs)] at hr
          cases hr
      | false =>
          -- no arm has been ready so far: both go one turn on
          have hs₁ := congrArg Prod.fst hs
          rw [turns_pending hs₁] at hr
          obtain ⟨har, hbr, hstatus, hflat⟩ := ih ha' hb' hr
          rw [turns_pending hs₁ (r + 1), turns_pending hta, turns_pending hta, turns_pending htb,
            turns_pending htb]
          refine ⟨har, hbr, hstatus, ?_⟩
          rw [List.flatten_cons, hflat, congrArg Prod.snd hs]
          dsimp only
          split <;> rfl

end Turns

/-! ## The keys of the accesses

Accesses come from the leaves and functions of the tree that was polled, so the keys of the two arms
tell them apart.
-/

def KeysIn (S : Nat → Prop) (f : OutFut) : Prop := ∀ k ∈ keys f, S k

def AccessIn (S : Nat → Prop) (w : World (List Effect)) : Prop := ∀ e ∈ w.mem, S e.key

theorem keysIn_append {S : Nat → Prop} {xs ys : List Nat} :
    (∀ k ∈ xs ++ ys, S k) ↔ (∀ k ∈ xs, S k) ∧ ∀ k ∈ ys, S k := List.forall_mem_append

section Keys

variable {S : Nat → Prop} {poll : Poller OutLeaf OutFn Empty (List Effect)}

theorem futureDrop_access (f : OutFut) {w : World (List Effect)} (h : AccessIn S w) :
    Eff.wp (futureDrop accessEnv f) (fun _ => AccessIn S) (fun _ => True) w := by
  have hkeeps : Eff.Keeps (AccessIn S) (futureDrop accessEnv f) fun _ => True :=
    futureDrop_keeps (fun _ _ => id) (fun _ _ _ => id) f
  exact Eff.wp_mono (hkeeps w h) (fun _ _ h' => h'.2) fun _ _ => trivial

def KeepsKeys (S : Nat → Prop) (poll : Poller OutLeaf OutFn Empty (List Effect)) : Prop :=
  ∀ f wk out w, KeysIn S f → AccessIn S w →
    Eff.wp (poll f wk out) (fun r w' => KeysIn S r.2 ∧ AccessIn S w') (fun _ => True) w

theorem accessIn_snoc {w : World (List Effect)} (h : AccessIn S w) {e : Effect} (he : S e.key) :
    ∀ e' ∈ w.mem ++ [e], S e'.key := by
  intro e' he'
  rcases List.mem_append.mp he' with he' | he'
  · exact h e' he'
  · rwa [List.mem_singleton.mp he']

theorem joinArm_keys (hp : KeepsKeys S poll) {child : OutFut} (done : Bool) (wk : TaskId)
    (out : Option Nat) {w : World (List Effect)} (hf : KeysIn S child) (h : AccessIn S w) :
    Eff.wp (joinArm accessEnv poll child done wk out)
      (fun r w' => KeysIn S r.2 ∧ AccessIn S w') (fun _ => True) w := by
  unfold joinArm
  cases done with
  | true => exact ⟨hf, h⟩
  | false =>
      apply Eff.wp_seq (hp child wk out w hf h)
      rintro ⟨st, child'⟩ w' ⟨hf', h'⟩
      refine Eff.wp_seq (P := fun _ => AccessIn S) ?_ fun _ w'' h'' => ⟨hf', h''⟩
      rw [Eff.wp_when]
      split
      · exact futureDrop_access child' h'
      · exact h'

theorem nodePoll_keys (hp : KeepsKeys S poll) (n : Nat) :
    KeepsKeys S (nodePoll accessEnv poll n) := by
  intro f wk out w hf h
  cases f with
  | null => trivial
  | leaf id l =>
      rw [nodePoll, Eff.wp_bind, wp_onMem]
      refine ⟨hf, ?_⟩
      dsimp only [accessEnv, outEnv]
      split
      · exact accessIn_snoc h (hf l.key List.mem_cons_self)
      · exact h
  | map id inner fn =>
      obtain ⟨hfn, hinner⟩ := keysIn_append.mp hf
      apply Eff.wp_seq (hp inner wk out w hinner h)
      rintro ⟨st, inner'⟩ w' ⟨hinner', h'⟩
      refine Eff.wp_seq (P := fun _ => AccessIn S) ?_ fun _ w'' h'' =>
        ⟨keysIn_append.mpr ⟨hfn, hinner'⟩, h''⟩
      unfold applyFn
      split
      next f p => exact accessIn_snoc h' (hfn f.key (by simp))
      · exact h'
  | then_ id a b stage =>
      obtain ⟨ha, hb⟩ := keysIn_append.mp hf
      -- the second stage, from either stage of `then`
      have hsecond : ∀ {a : OutFut} (stage : Nat) {w : World (List Effect)}, KeysIn S a →
          AccessIn S w → Eff.wp (do
            let (st, b) ← poll b wk out
            return (st, Fut.then_ id a b stage))
          (fun r w' => KeysIn S r.2 ∧ AccessIn S w') (fun _ => True) w :=
        fun stage w ha h => Eff.wp_seq (hp b wk out w hb h) fun r w' h' =>
          ⟨keysIn_append.mpr ⟨ha, h'.1⟩, h'.2⟩
      show Eff.wp (thenPoll accessEnv poll id a b stage wk out) _ _ w
      unfold thenPoll
      split
      · apply Eff.wp_seq (hp a wk none w ha h)
        rintro ⟨st, a'⟩ w' ⟨ha', h'⟩
        cases st with
        | false => exact ⟨keysIn_append.mpr ⟨ha', hb⟩, h'⟩
        | true =>
            exact Eff.wp_seq (futureDrop_access a' h') fun _ w'' h'' => hsecond 1 ha' h''
      · exact hsecond stage ha h
  | join2 id a b aSize aDone bDone =>
      obtain ⟨ha, hb⟩ := keysIn_append.mp hf
      apply Eff.wp_seq (joinArm_keys hp aDone wk out ha h)
      intro ra w' ha'
      exact Eff.wp_seq (joinArm_keys hp bDone wk _ hb ha'.2) fun rb w'' hb' =>
        ⟨keysIn_append.mpr ⟨ha'.1, hb'.1⟩, hb'.2⟩
  | select2 id a b =>
      obtain ⟨ha, hb⟩ := keysIn_append.mp hf
      apply Eff.wp_seq (hp a wk out w ha h)
      rintro ⟨st, a'⟩ w' ⟨ha', h'⟩
      cases st with
      | true => exact ⟨keysIn_append.mpr ⟨ha', hb⟩, h'⟩
      | false =>
          exact Eff.wp_seq (hp b wk out w' hb h') fun rb w'' hb' =>
            ⟨keysIn_append.mpr ⟨ha', hb'.1⟩, hb'.2⟩
  | sm id states state cur curOut curNext haveCur =>
      cases n with
      | zero => trivial
      | succ n =>
          show Eff.wp (smPoll accessEnv poll id states wk (n + 1) state cur curOut curNext haveCur)
            _ _ w
          unfold smPoll
          split
          · exact ⟨hf, h⟩
          next k _ => exact k.elim

theorem futurePoll_keys (S : Nat → Prop) (n : Nat) : KeepsKeys S (futurePoll accessEnv n) := by
  induction n with
  | zero => exact fun f wk out w hf h => trivial
  | succ n ih =>
      intro f wk out w hf h
      unfold futurePoll
      split
      · trivial
      · refine Eff.wp_seq (P := fun _ => AccessIn S) h fun _ w' h' => ?_
        apply Eff.wp_seq (nodePoll_keys ih n f wk out w' hf h')
        rintro ⟨st, f'⟩ w'' h''
        cases st <;> exact h''

/-- The accesses of a tree have its keys. -/
theorem turns_keys (wk : TaskId) (out : Option Nat) {f : OutFut} (hf : f.Plain) (hS : KeysIn S f)
    (k : Nat) : ∀ es ∈ (turns wk out f k).1, ∀ e ∈ es, S e.key := by
  induction k generalizing f with
  | zero => exact fun es h => nomatch h
  | succ k ih =>
      obtain ⟨st, f', hturn, hf'⟩ := turn_total wk out hf
      have hstart : AccessIn S (World.start []) := fun e h => nomatch h
      have hpoll := futurePoll_keys S f.height f wk out (World.start []) hS hstart
      obtain ⟨hkeys, hes⟩ := (Eff.wp_iff.mp hpoll).1 (st, f') hturn
      cases st with
      | true =>
          rw [turns_ready hturn]
          intro es hmem
          rw [List.mem_singleton.mp hmem]
          exact hes
      | false =>
          rw [turns_pending hturn]
          intro es hmem
          rcases List.mem_cons.mp hmem with rfl | hmem
          · exact hes
          · exact ih hf' hkeys es hmem

end Keys

/-! ## Races

Whose bytes are in the output when a race is decided: by `CustLib.Lib.Overwrite`, the winner's, if and
only if the loser has not stained them. The example is two `join2`s, the loser of which writes its first
half when the winner has already written its own.
-/

/-- The accesses of one party. -/
def mark (b : Bool) (es : List Effect) : List Marked := es.map fun e => (b, e)

theorem mark_snd (b : Bool) (es : List Effect) : (mark b es).map Prod.snd = es := by
  rw [mark, List.map_map]
  exact List.map_id es

theorem mine_append (es es' : List Marked) : mine (es ++ es') = mine es ++ mine es' := by
  rw [mine, List.filter_append, List.map_append]
  rfl

theorem mine_mark (b : Bool) (es : List Effect) : mine (mark b es) = if b then es else [] := by
  cases b <;> simp [mine, mark, List.filter_map, Function.comp_def]

theorem interleave_snd (p q : Bool) (xs ys : List (List Effect)) :
    (interleave (xs.map (mark p)) (ys.map (mark q))).map Prod.snd = interleave xs ys := by
  induction xs generalizing ys with
  | nil => rfl
  | cons x xs ih =>
      cases ys with
      | nil => simpa [interleave, mark_snd] using ih []
      | cons y ys => simpa [interleave, mark_snd] using ih ys

theorem mine_first (xs ys : List (List Effect)) :
    mine (interleave (xs.map (mark true)) (ys.map (mark false))) = xs.flatten := by
  induction xs generalizing ys with
  | nil => rfl
  | cons x xs ih =>
      cases ys with
      | nil => simpa [interleave, mine_append, mine_mark] using ih []
      | cons y ys => simpa [interleave, mine_append, mine_mark] using ih ys

theorem mine_second {xs ys : List (List Effect)} (h : ys.length ≤ xs.length) :
    mine (interleave (xs.map (mark false)) (ys.map (mark true))) = ys.flatten := by
  induction xs generalizing ys with
  | nil =>
      rw [List.eq_nil_of_length_eq_zero (Nat.le_zero.mp h)]
      rfl
  | cons x xs ih =>
      cases ys with
      | nil =>
          have hnil := @ih [] (Nat.zero_le _)
          simpa [interleave, mine_append, mine_mark] using hnil
      | cons y ys =>
          simpa [interleave, mine_append, mine_mark] using ih (Nat.le_of_succ_le_succ h)

theorem mem_interleave {α : Type} {xs ys : List (List α)} {e : α} (h : e ∈ interleave xs ys) :
    (∃ x ∈ xs, e ∈ x) ∨ ∃ y ∈ ys, e ∈ y := by
  induction xs generalizing ys with
  | nil => cases h
  | cons x xs ih =>
      cases ys with
      | nil =>
          simp only [interleave, List.headD_nil, List.append_nil, List.tail_nil,
            List.mem_append] at h
          rcases h with h | h
          · exact .inl ⟨x, List.mem_cons_self, h⟩
          · rcases ih h with ⟨x', hx', he⟩ | ⟨y, hy, -⟩
            · exact .inl ⟨x', List.mem_cons_of_mem x hx', he⟩
            · cases hy
      | cons y ys =>
          simp only [interleave, List.headD_cons, List.tail_cons, List.mem_append] at h
          rcases h with (h | h) | h
          · exact .inl ⟨x, List.mem_cons_self, h⟩
          · exact .inr ⟨y, List.mem_cons_self, h⟩
          · rcases ih h with ⟨x', hx', he⟩ | ⟨y', hy', he⟩
            · exact .inl ⟨x', List.mem_cons_of_mem x hx', he⟩
            · exact .inr ⟨y', List.mem_cons_of_mem y hy', he⟩

section Race

variable (wk : TaskId) (out : Option Nat)

/-- A future answers `Ready` at its poll number `r + 1`, and not before. -/
def ReadyAt (f : OutFut) (r : Nat) : Prop :=
  (turns wk out f r).2 = false ∧ (turns wk out f (r + 1)).2 = true

def outcome (v : Values) (f : OutFut) (k : Nat) (m : Memory) : Memory :=
  (driveAlone (byteEnv v) wk out f k (World.start m)).2.mem

/-- The arm that wins in round `r + 1`: the first one, if it is `Ready` by then. -/
def winner (a b : OutFut) (r : Nat) : OutFut := if (turns wk out a (r + 1)).2 then a else b

/-- The accesses of a race that is decided in round `r + 1`; those of the winner are marked. -/
def raceMarks (a b : OutFut) (r : Nat) : List Marked :=
  if (turns wk out a (r + 1)).2 then
    interleave ((turns wk out a (r + 1)).1.map (mark true)) ((turns wk out b r).1.map (mark false))
  else
    interleave ((turns wk out a (r + 1)).1.map (mark false))
      ((turns wk out b (r + 1)).1.map (mark true))

/-- The loser of a race that is decided in round `r + 1` does not show in the `size` bytes at `o`: none
    of them was last written by the loser, or rewritten by the winner with such a byte. -/
def Undisturbed (o size : Nat) (a b : OutFut) (r : Nat) : Prop :=
  ∀ p, o ≤ p → p < o + size → stained (raceMarks wk (some o) a b r) p = false

variable {wk out}

theorem outcome_eq (v : Values) {f : OutFut} (hf : f.Plain) (k : Nat) (m : Memory) :
    outcome wk out v f k m = replay v m (turns wk out f k).1.flatten := by
  have hdrive := @driveAlone_bytes wk out v f hf k (World.start m)
  obtain ⟨r, w', hrun, -, hmem⟩ := Eff.wp_total hdrive
  rw [outcome, hrun]
  exact hmem

theorem turns_length_le {f : OutFut} (hf : f.Plain) (k : Nat) :
    (turns wk out f k).1.length ≤ k := by
  induction k generalizing f with
  | zero => exact Nat.le_refl 0
  | succ k ih =>
      obtain ⟨st, f', hturn, hf'⟩ := turn_total wk out hf
      cases st with
      | true =>
          rw [turns_ready hturn]
          exact Nat.le_add_left 1 k
      | false =>
          rw [turns_pending hturn]
          exact Nat.succ_le_succ (ih hf')

theorem turns_length_pending {f : OutFut} (hf : f.Plain) {k : Nat}
    (hk : (turns wk out f k).2 = false) : (turns wk out f k).1.length = k := by
  induction k generalizing f with
  | zero => rfl
  | succ k ih =>
      obtain ⟨st, f', hturn, hf'⟩ := turn_total wk out hf
      cases st with
      | true =>
          rw [turns_ready hturn] at hk
          cases hk
      | false =>
          rw [turns_pending hturn] at hk ⊢
          exact congrArg Nat.succ (ih hf' hk)

variable {a b : OutFut} {r : Nat}

/-- The accesses of a race are the marked ones, and those of the winner are its own. -/
theorem raceMarks_spec (ha : a.Plain) (hb : b.Plain) (id : Nat)
    (hr : ReadyAt wk out (.select2 id a b) r) :
    (raceMarks wk out a b r).map Prod.snd =
        (turns wk out (.select2 id a b) (r + 1)).1.flatten ∧
      mine (raceMarks wk out a b r) = (turns wk out (winner wk out a b r) (r + 1)).1.flatten := by
  obtain ⟨-, -, -, hflat⟩ := turns_select ha hb id r hr.1
  rw [hflat, raceMarks, winner]
  cases hwin : (turns wk out a (r + 1)).2 with
  | true =>
      simp only [if_true]
      exact ⟨interleave_snd _ _ _ _, mine_first _ _⟩
  | false =>
      simp only [Bool.false_eq_true, if_false]
      refine ⟨interleave_snd _ _ _ _, mine_second ?_⟩
      rw [turns_length_pending ha hwin]
      exact turns_length_le hb (r + 1)

/-- The keys of the loser. -/
def theirs (wk : TaskId) (out : Option Nat) (a b : OutFut) (r : Nat) (k : Nat) : Bool :=
  if (turns wk out a (r + 1)).2 then decide (k ∈ keys b) else decide (k ∈ keys a)

/-- Keys tell the parties of a race. -/
theorem told_mark {S : Nat → Bool} {b : Bool} {ess : List (List Effect)}
    (h : ∀ es ∈ ess, ∀ e ∈ es, S e.key = !b) {e : Marked}
    (he : ∃ x ∈ ess.map (mark b), e ∈ x) : S e.2.key = !e.1 := by
  obtain ⟨x, hx, he⟩ := he
  obtain ⟨es, hes, rfl⟩ := List.mem_map.mp hx
  obtain ⟨e', he', rfl⟩ := List.mem_map.mp he
  exact h es hes e' he'

theorem raceMarks_told (ha : a.Plain) (hb : b.Plain) (hkeys : ∀ k ∈ keys a, k ∉ keys b) :
    Told (theirs wk out a b r) (raceMarks wk out a b r) := by
  have hka := fun k => turns_keys wk out (S := fun x => x ∈ keys a) ha (fun _ h => h) k
  have hkb := fun k => turns_keys wk out (S := fun x => x ∈ keys b) hb (fun _ h => h) k
  intro e he
  rw [raceMarks] at he
  cases hwin : (turns wk out a (r + 1)).2 with
  | true =>
      simp only [hwin, if_true] at he
      rcases mem_interleave he with h | h
      · refine told_mark (fun es hes e' he' => ?_) h
        simpa [theirs, hwin] using hkeys _ (hka _ es hes e' he')
      · refine told_mark (fun es hes e' he' => ?_) h
        simpa [theirs, hwin] using hkb _ es hes e' he'
  | false =>
      simp only [hwin, Bool.false_eq_true, if_false] at he
      rcases mem_interleave he with h | h
      · refine told_mark (fun es hes e' he' => ?_) h
        simpa [theirs, hwin] using hka _ es hes e' he'
      · refine told_mark (fun es hes e' he' => ?_) h
        simpa [theirs, hwin] using fun hmem => hkeys _ hmem (hkb _ es hes e' he')

/-- **When `select2` yields the winner's output**: the race leaves in `out` what the winning arm would
    have left there alone, whatever the leaves write and the functions compute, iff the loser does
    not show in it. -/
theorem select2_yields_winner_iff {o size : Nat} (ha : outSize a = some size)
    (hb : outSize b = some size) (hkeys : ∀ k ∈ keys a, k ∉ keys b) {id : Nat}
    (hr : ReadyAt wk (some o) (.select2 id a b) r) :
    (∀ v m p, o ≤ p → p < o + size →
        outcome wk (some o) v (.select2 id a b) (r + 1) m p =
          outcome wk (some o) v (winner wk (some o) a b r) (r + 1) m p) ↔
      Undisturbed wk o size a b r := by
  have hpa := plain_of_outSize ha
  have hpb := plain_of_outSize hb
  have hwin : (winner wk (some o) a b r).Plain := by
    rw [winner]
    split
    · exact hpa
    · exact hpb
  obtain ⟨hrace, hmine⟩ := raceMarks_spec hpa hpb id hr
  have hselect : (Fut.select2 id a b : OutFut).Plain := ⟨hpa, hpb⟩
  have houtcome : ∀ v m,
      outcome wk (some o) v (.select2 id a b) (r + 1) m =
          replay v m ((raceMarks wk (some o) a b r).map Prod.snd) ∧
        outcome wk (some o) v (winner wk (some o) a b r) (r + 1) m =
          replay v m (mine (raceMarks wk (some o) a b r)) := fun v m =>
    ⟨by rw [outcome_eq v hselect, hrace], by rw [outcome_eq v hwin, hmine]⟩
  constructor
  · intro h p hlo hhi
    cases hstain : stained (raceMarks wk (some o) a b r) p with
    | false => rfl
    | true =>
        -- some values show the stain: those that tell the writes of the arms apart
        have hdiff := stained_exact (raceMarks_told hpa hpb hkeys) p hstain
        have hsame := h (telltale (theirs wk (some o) a b r)) (fun _ => 0) p hlo hhi
        rw [(houtcome _ _).1, (houtcome _ _).2] at hsame
        exact absurd hsame hdiff
  · intro h v m p hlo hhi
    rw [(houtcome v m).1, (houtcome v m).2]
    exact stained_sound v m _ p (h p hlo hhi)

end Race

/-- A leaf of one byte that is `Ready` at its poll number `n + 1`. -/
def byteAt (key n : Nat) : OutLeaf := ⟨key, 1, fun i => i == n, 0⟩

def byteNever (key : Nat) : OutLeaf := ⟨key, 1, fun _ => false, 0⟩

/-- The first half of this arm comes late, and the second never. -/
def lateArm : OutFut := .join2 0 (.leaf 1 (byteAt 10 1)) (.leaf 2 (byteNever 11)) 1 false false

/-- The first half of this arm comes at once, and the second late. -/
def earlyArm : OutFut := .join2 3 (.leaf 4 (byteAt 20 0)) (.leaf 5 (byteAt 21 1)) 1 false false

def keyValues : Values := ⟨fun k _ => UInt8.ofNat k, fun _ old i => old.getD i 0⟩

theorem select2_yields_winner_iff_two_joins :
    (∀ v m p, 0 ≤ p → p < 0 + 2 →
        outcome 0 (some 0) v (.select2 6 lateArm earlyArm) 2 m p =
          outcome 0 (some 0) v (winner 0 (some 0) lateArm earlyArm 1) 2 m p) ↔
      Undisturbed 0 0 2 lateArm earlyArm 1 :=
  select2_yields_winner_iff (by decide) (by decide) (by decide) ⟨by decide, by decide⟩

/-- The race of these arms is won by the second, and the first has overwritten its first byte. -/
theorem loser_overwrites_winner :
    outSize lateArm = some 2 ∧ outSize earlyArm = some 2 ∧
      ReadyAt 0 (some 0) (.select2 6 lateArm earlyArm) 1 ∧
      outcome 0 (some 0) keyValues (winner 0 (some 0) lateArm earlyArm 1) 2 (fun _ => 0) 0 = 20 ∧
      outcome 0 (some 0) keyValues (.select2 6 lateArm earlyArm) 2 (fun _ => 0) 0 = 10 :=
  ⟨by decide, by decide, ⟨by decide, by decide⟩, by decide, by decide⟩

end CustLib.Exec
