import CustLib.Execution.Future

/-!
# Where a suspended tree waits

A tree that is `Pending` waits for its frontier: the leaves that it owns and that are not behind an
unfinished predecessor. The poll that suspended it must have polled each of them, since a leaf keeps
no waker but the one of its last poll. Leaves that record their polls show it (`recorded`): the
combinators call them as they call any leaf.

`futurePoll_reaches` is the step: one call through a vtable, at any depth, with the loop of `smPoll`
in it. `suspended_frontier` is about every poll of a tree, from the one that starts it.
-/

namespace CustLib.Exec

variable {L F K σ : Type}

/-! ## Leaves that record their polls

A leaf of any behaviour, made to note each of its polls with the waker that it was given. Nothing else
of the program changes.
-/

/-- A poll of a leaf: during which poll of the root, with which waker, and the answer. -/
structure LeafPoll where
  round : Nat
  waker : TaskId
  ready : Bool
  deriving DecidableEq, Repr

structure Recorded (L : Type) where
  leaf  : L
  polls : List LeafPoll
  deriving DecidableEq, Repr

/-- The same constructor calls, for leaves that have not been polled. -/
def Expr.unpolled : Expr L F K → Expr (Recorded L) F K
  | .null              => .null
  | .leaf l            => .leaf ⟨l, []⟩
  | .map inner fn      => .map inner.unpolled fn
  | .then_ a b         => .then_ a.unpolled b.unpolled
  | .join2 a size b    => .join2 a.unpolled size b.unpolled
  | .select2 a b       => .select2 a.unpolled b.unpolled
  | .sm states start   => .sm states start

/-- The program with leaves that record their polls. The memory counts the polls of the root. -/
def recorded (env : Env L F K σ) : Env (Recorded L) F K (σ × Nat) where
  leafPoll id l wk out := fun (m, round) =>
    let ((st, leaf), m) := env.leafPoll id l.leaf wk out m
    ((st, ⟨leaf, l.polls ++ [⟨round, wk, st⟩]⟩), m, round)
  leafDrop id l := fun (m, round) => (env.leafDrop id l.leaf m, round)
  mapFn f p     := fun (m, round) => (env.mapFn f p m, round)
  stateFn k     := fun (m, round) =>
    let (step, m) := env.stateFn k m
    (⟨step.fut.unpolled, step.out, step.next⟩, m, round)
  refuses       := env.refuses

/-! ## The frontier

A tree that is suspended has leaves that run and leaves whose turn has not come: the second child of a
`then`, and what a state machine has not built yet. `Before` and `After` are the assertions around one
poll of the root.
-/

/-- The leaves that a tree owns and that are not behind an unfinished predecessor. -/
def Fut.frontier : Fut L F K → List L
  | .null                       => []
  | .leaf _ l                   => [l]
  | .map _ inner _              => inner.frontier
  | .then_ _ a b stage          => if stage = 0 then a.frontier else b.frontier
  | .join2 _ a b _ aDone bDone  =>
    (if aDone then [] else a.frontier) ++ if bDone then [] else b.frontier
  | .select2 _ a b              => a.frontier ++ b.frontier
  | .sm _ _ _ cur _ _ haveCur   => if haveCur then cur.frontier else []

/-- The leaves that a tree owns and that are behind an unfinished predecessor. -/
def Fut.behind : Fut L F K → List L
  | .null                       => []
  | .leaf _ _                   => []
  | .map _ inner _              => inner.behind
  | .then_ _ a b stage          =>
    if stage = 0 then a.behind ++ (b.frontier ++ b.behind) else b.behind
  | .join2 _ a b _ aDone bDone  =>
    (if aDone then [] else a.behind) ++ if bDone then [] else b.behind
  | .select2 _ a b              => a.behind ++ b.behind
  | .sm _ _ _ cur _ _ haveCur   => if haveCur then cur.behind else []

def Unpolled (f : Fut (Recorded L) F K) : Prop := ∀ l ∈ f.frontier ++ f.behind, l.polls = []

/-- What a tree looks like when the poll `round` of the root gets to it: the leaves of the frontier
    have been `Pending` until now, and the others have not been polled. -/
structure Before (round : Nat) (f : Fut (Recorded L) F K) : Prop where
  frontier : ∀ l ∈ f.frontier, ∀ p ∈ l.polls, p.round < round ∧ p.ready = false
  behind   : ∀ l ∈ f.behind, l.polls = []

/-- The leaf was polled once in this poll of the root, with its waker, and has always been
    `Pending`. -/
structure Waits (round : Nat) (wk : TaskId) (l : Recorded L) : Prop where
  once    : l.polls.filter (·.round = round) = [⟨round, wk, false⟩]
  last    : l.polls.getLast? = some ⟨round, wk, false⟩
  pending : ∀ p ∈ l.polls, p.round ≤ round ∧ p.ready = false

/-- What a tree looks like when the poll `round` of the root has left it `Pending`. -/
structure After (round : Nat) (wk : TaskId) (f : Fut (Recorded L) F K) : Prop where
  waits    : f.frontier ≠ []
  frontier : ∀ l ∈ f.frontier, Waits round wk l
  behind   : ∀ l ∈ f.behind, l.polls = []

/-- A future that has not been polled is ready for its first poll. -/
theorem Unpolled.before {f : Fut (Recorded L) F K} (h : Unpolled f) (round : Nat) :
    Before round f := by
  constructor
  · intro l hl p hp
    rw [h l (List.mem_append_left _ hl)] at hp
    cases hp
  · intro l hl
    exact h l (List.mem_append_right _ hl)

/-- From one poll of the root to the next. -/
theorem After.next {round : Nat} {wk : TaskId} {f : Fut (Recorded L) F K} (h : After round wk f) :
    Before (round + 1) f := by
  constructor
  · intro l hl p hp
    obtain ⟨hround, hready⟩ := (h.frontier l hl).pending p hp
    exact ⟨Nat.lt_succ_of_le hround, hready⟩
  · exact h.behind

/-- A leaf that is polled, and `Pending`. -/
theorem waits_of_poll {round : Nat} {l : Recorded L}
    (h : ∀ p ∈ l.polls, p.round < round ∧ p.ready = false) (wk : TaskId) (leaf : L) :
    Waits round wk ⟨leaf, l.polls ++ [⟨round, wk, false⟩]⟩ := by
  have hnone : l.polls.filter (·.round = round) = [] := by
    rw [List.filter_eq_nil_iff]
    intro p hp hround
    exact Nat.ne_of_lt (h p hp).1 (of_decide_eq_true hround)
  refine ⟨?_, List.getLast?_concat, ?_⟩
  · simp [hnone]
  · intro p hp
    rcases List.mem_append.mp hp with hp | hp
    · exact ⟨Nat.le_of_lt (h p hp).1, (h p hp).2⟩
    · rw [List.mem_singleton.mp hp]
      exact ⟨Nat.le_refl _, rfl⟩

/-! ## Programs that do not count the polls of the root

The memory has the number of the poll; only the rest of the program, between two polls, changes it.
-/

def World.round (w : World (σ × Nat)) : Nat := w.mem.2

section Round

variable {env : Env L F K σ} {round : Nat}

theorem futureDrop_round (f : Fut (Recorded L) F K) :
    Eff.Keeps (fun w => w.round = round) (futureDrop (recorded env) f) fun _ => True :=
  futureDrop_keeps (fun _ _ => id) (fun _ _ _ => id) f

/-! ## What the constructors build

In a tree that was just built no leaf has been polled.
-/

theorem request_round : Eff.Keeps (fun w : World (σ × Nat) => w.round = round)
    (request (recorded env)) fun _ => True :=
  Eff.keeps_move fun _ h => ⟨trivial, h⟩

theorem birth_round : Eff.Keeps (fun w : World (σ × Nat) => w.round = round) birth fun _ => True :=
  Eff.keeps_move fun _ h => ⟨trivial, h⟩

/-- A node around two children that have not been polled. -/
theorem unpolled_pair {f a b : Fut (Recorded L) F K} (ha : Unpolled a) (hb : Unpolled b)
    (h : ∀ l ∈ f.frontier ++ f.behind,
      l ∈ a.frontier ++ a.behind ∨ l ∈ b.frontier ++ b.behind) : Unpolled f :=
  fun l hl => (h l hl).elim (ha l) (hb l)

/-- Two children are built, and a box around them. -/
theorem pairIn_unpolled {x y : Eff (World (σ × Nat)) (Fut (Recorded L) F K)}
    {box : Nat → Fut (Recorded L) F K → Fut (Recorded L) F K → Fut (Recorded L) F K}
    (hx : Eff.Keeps (fun w => w.round = round) x Unpolled)
    (hy : Eff.Keeps (fun w => w.round = round) y Unpolled)
    (hbox : ∀ id a b, ∀ l ∈ (box id a b).frontier ++ (box id a b).behind,
      l ∈ a.frontier ++ a.behind ∨ l ∈ b.frontier ++ b.behind) :
    Eff.Keeps (fun w => w.round = round) (do pairIn (recorded env) box (← x) (← y)) Unpolled := by
  apply Eff.keeps_bind hx
  intro a ha
  apply Eff.keeps_bind hy
  intro b hb
  apply Eff.keeps_bind request_round
  intro granted _
  cases granted with
  | true =>
      apply Eff.keeps_bind birth_round
      intro id _
      exact Eff.keeps_pure (unpolled_pair ha hb (hbox id a b))
  | false =>
      apply Eff.keeps_bind (futureDrop_round a)
      intro _ _
      exact Eff.keeps_bind (futureDrop_round b) fun _ _ => Eff.keeps_pure nofun

/-- **A future that has just been built has not been polled.** -/
theorem build_unpolled (e : Expr L F K) :
    Eff.Keeps (fun w => w.round = round) (build (recorded env) e.unpolled) Unpolled := by
  induction e with
  | null => exact Eff.keeps_pure nofun
  | leaf l =>
      apply Eff.keeps_bind birth_round
      intro id _
      apply Eff.keeps_pure
      intro l' hl'
      rw [List.mem_singleton.mp hl']
  | map inner fn ih =>
      apply Eff.keeps_bind ih
      intro f hf
      apply Eff.keeps_bind request_round
      intro granted _
      cases granted with
      | true => exact Eff.keeps_bind birth_round fun id _ => Eff.keeps_pure hf
      -- without its box the tree is dropped, and the null future has no leaves
      | false => exact Eff.keeps_bind (futureDrop_round f) fun _ _ => Eff.keeps_pure nofun
  | then_ a b iha ihb =>
      apply pairIn_unpolled iha ihb
      intro id a b l
      simp only [Fut.frontier, Fut.behind, if_true, List.mem_append]
      tauto
  | join2 a size b iha ihb =>
      apply pairIn_unpolled iha ihb
      intro id a b l
      simp only [Fut.frontier, Fut.behind, Bool.false_eq_true, if_false, List.mem_append]
      tauto
  | select2 a b iha ihb =>
      apply pairIn_unpolled iha ihb
      intro id a b l
      simp only [Fut.frontier, Fut.behind, List.mem_append]
      tauto
  | sm states start =>
      apply Eff.keeps_bind request_round
      intro granted _
      cases granted with
      | true => exact Eff.keeps_bind birth_round fun id _ => Eff.keeps_pure nofun
      | false => exact Eff.keeps_pure nofun

/-! ## One poll

By induction on the depth of the calls. A node that answers `Pending` has polled exactly those children
whose leaves are in the frontier; a child that became `Ready` has left it.
-/

/-- What a poll leaves: if it is `Pending`, every leaf of the frontier waits. -/
def Leaves (round : Nat) (wk : TaskId) (r : Bool × Fut (Recorded L) F K) (w : World (σ × Nat)) :
    Prop :=
  w.round = round ∧ (r.1 = false → After round wk r.2)

/-- Polls that leave every leaf of the frontier waiting. -/
def Reaches (poll : Poller (Recorded L) F K (σ × Nat)) : Prop :=
  ∀ {round} {f : Fut (Recorded L) F K} (wk : TaskId) (out : Option Nat) {w}, w.round = round →
    Before round f → Eff.wp (poll f wk out) (Leaves round wk) (fun _ => True) w

variable {poll : Poller (Recorded L) F K (σ × Nat)} {wk : TaskId} {out : Option Nat}
  {w : World (σ × Nat)}

theorem leaves_ready {f : Fut (Recorded L) F K} (hw : w.round = round) :
    Leaves round wk (true, f) w := ⟨hw, nofun⟩

/-- A drop, in front of what does not depend on the memory. -/
theorem wp_drop_round {α : Type} {c : Bool} {f : Fut (Recorded L) F K}
    {x : Eff (World (σ × Nat)) α} {Q : α → World (σ × Nat) → Prop} (hw : w.round = round)
    (h : ∀ w', w'.round = round → Eff.wp x Q (fun _ => True) w') :
    Eff.wp (do Eff.when c (futureDrop (recorded env) f); x) Q (fun _ => True) w := by
  apply Eff.wp_bind.mpr
  apply Eff.wp_mono (Eff.keeps_when (futureDrop_round f) w hw)
  · intro _ w' hw'
    exact h w' hw'.2
  · intro _ _
    trivial

/-- The frontier of a `map` is that of its child. -/
theorem mapPoll_reaches (hp : Reaches poll) {id : Nat} {inner : Fut (Recorded L) F K}
    {fn : Option F} (hw : w.round = round) (h : Before round inner) :
    Eff.wp (mapPoll (recorded env) poll id inner fn wk out) (Leaves round wk) (fun _ => True) w := by
  apply Eff.wp_seq (hp wk out hw h)
  intro ⟨st, inner'⟩ w' ⟨hw', hafter⟩
  have hmap : Leaves round wk (st, Fut.map id inner' fn) w' :=
    ⟨hw', fun hst => ⟨(hafter hst).waits, (hafter hst).frontier, (hafter hst).behind⟩⟩
  dsimp only
  unfold applyFn
  split
  · exact hmap
  · exact hmap

theorem thenPoll_reaches (hp : Reaches poll) {id : Nat} {a b : Fut (Recorded L) F K} {stage : Nat}
    (hw : w.round = round) (h : Before round (.then_ id a b stage)) :
    Eff.wp (thenPoll (recorded env) poll id a b stage wk out) (Leaves round wk) (fun _ => True)
      w := by
  -- the poll of `b`, in the poll of the root that finished `a` or in a later one
  have hsecond : ∀ {a : Fut (Recorded L) F K} {stage : Nat} {w : World (σ × Nat)}, stage ≠ 0 →
      Before round b → w.round = round → Eff.wp (do
        let (st, b) ← poll b wk out
        return (st, Fut.then_ id a b stage)) (Leaves round wk) (fun _ => True) w := by
    intro a stage w hstage hb hw
    apply Eff.wp_seq (hp wk out hw hb)
    intro ⟨st, b'⟩ w' ⟨hw', hafter⟩
    refine ⟨hw', fun hst => ?_⟩
    have hafter := hafter hst
    constructor <;> simp only [Fut.frontier, Fut.behind, hstage, if_false]
    · exact hafter.waits
    · exact hafter.frontier
    · exact hafter.behind
  unfold thenPoll
  split
  next hstage =>
    subst hstage
    obtain ⟨hfront, hbehind⟩ := h
    simp only [Fut.frontier, Fut.behind, if_true] at hfront hbehind
    have hb : Unpolled b := fun l hl => hbehind l (List.mem_append_right _ hl)
    have ha : Before round a := ⟨hfront, fun l hl => hbehind l (List.mem_append_left _ hl)⟩
    apply Eff.wp_seq (hp wk none hw ha)
    intro ⟨st, a'⟩ w' ⟨hw', hafter⟩
    cases st with
    | true => exact wp_drop_round (c := true) hw' fun w'' => hsecond Nat.one_ne_zero (hb.before _)
    | false =>
        -- `a` is the predecessor of all leaves of `b`
        have hafter := hafter rfl
        refine ⟨hw', fun _ => ⟨hafter.waits, hafter.frontier, ?_⟩⟩
        intro l hl
        rcases List.mem_append.mp hl with hl | hl
        · exact hafter.behind l hl
        · exact hb l hl
  next hstage =>
    obtain ⟨hfront, hbehind⟩ := h
    simp only [Fut.frontier, Fut.behind, hstage, if_false] at hfront hbehind
    exact hsecond hstage ⟨hfront, hbehind⟩ hw

/-- One child of a join: the leaves of its frontier wait if it is not done. -/
theorem joinArm_reaches (hp : Reaches poll) {child : Fut (Recorded L) F K} {done : Bool}
    (hw : w.round = round) (h : done = false → Before round child) :
    Eff.wp (joinArm (recorded env) poll child done wk out) (Leaves round wk) (fun _ => True) w := by
  unfold joinArm
  cases done with
  | true => exact leaves_ready hw
  | false =>
      apply Eff.wp_seq (hp wk out hw (h rfl))
      intro ⟨st, child'⟩ w' ⟨hw', hafter⟩
      exact wp_drop_round hw' fun w'' hw'' => ⟨hw'', hafter⟩

/-- A join waits for the children that are not done. -/
theorem after_join2 {id : Nat} {a b : Fut (Recorded L) F K} {aSize : Nat} {aDone bDone : Bool}
    (ha : aDone = false → After round wk a) (hb : bDone = false → After round wk b)
    (h : (aDone && bDone) = false) : After round wk (.join2 id a b aSize aDone bDone) := by
  cases aDone with
  | false =>
      have hA := ha rfl
      cases bDone with
      | false =>
          have hB := hb rfl
          constructor <;> simp only [Fut.frontier, Fut.behind, Bool.false_eq_true, if_false]
          · exact List.append_ne_nil_of_left_ne_nil hA.waits _
          · exact List.forall_mem_append.mpr ⟨hA.frontier, hB.frontier⟩
          · exact List.forall_mem_append.mpr ⟨hA.behind, hB.behind⟩
      | true =>
          -- a child that is done has no leaf in the frontier
          constructor <;>
            simp only [Fut.frontier, Fut.behind, Bool.false_eq_true, if_false, if_true,
              List.append_nil]
          · exact hA.waits
          · exact hA.frontier
          · exact hA.behind
  | true =>
      subst h
      have hB := hb rfl
      constructor <;>
        simp only [Fut.frontier, Fut.behind, Bool.false_eq_true, if_false, if_true,
          List.nil_append]
      · exact hB.waits
      · exact hB.frontier
      · exact hB.behind

/-- A `join2` polls both children, less those that are done. -/
theorem joinPoll_reaches (hp : Reaches poll) {id : Nat} {a b : Fut (Recorded L) F K} {aSize : Nat}
    {aDone bDone : Bool} (hw : w.round = round)
    (h : Before round (.join2 id a b aSize aDone bDone)) :
    Eff.wp (joinPoll (recorded env) poll id a b aSize aDone bDone wk out) (Leaves round wk)
      (fun _ => True) w := by
  obtain ⟨hfront, hbehind⟩ := h
  simp only [Fut.frontier, Fut.behind] at hfront hbehind
  have ha : aDone = false → Before round a := by
    rintro rfl
    exact ⟨fun l hl => hfront l (List.mem_append_left _ hl),
      fun l hl => hbehind l (List.mem_append_left _ hl)⟩
  have hb : bDone = false → Before round b := by
    rintro rfl
    exact ⟨fun l hl => hfront l (List.mem_append_right _ hl),
      fun l hl => hbehind l (List.mem_append_right _ hl)⟩
  apply Eff.wp_seq (joinArm_reaches hp hw ha)
  intro ⟨aDone', a'⟩ w' ⟨hw', hafterA⟩
  apply Eff.wp_seq (joinArm_reaches hp hw' hb)
  intro ⟨bDone', b'⟩ w'' ⟨hw'', hafterB⟩
  exact ⟨hw'', fun hst => after_join2 hafterA hafterB hst⟩

/-- A `select2` polls its second child only after the first one was `Pending`. -/
theorem selectPoll_reaches (hp : Reaches poll) {id : Nat} {a b : Fut (Recorded L) F K}
    (hw : w.round = round) (h : Before round (.select2 id a b)) :
    Eff.wp (selectPoll poll id a b wk out) (Leaves round wk) (fun _ => True) w := by
  have ha : Before round a := ⟨fun l hl => h.frontier l (List.mem_append_left _ hl),
    fun l hl => h.behind l (List.mem_append_left _ hl)⟩
  have hb : Before round b := ⟨fun l hl => h.frontier l (List.mem_append_right _ hl),
    fun l hl => h.behind l (List.mem_append_right _ hl)⟩
  apply Eff.wp_seq (hp wk out hw ha)
  intro ⟨st, a'⟩ w' ⟨hw', hafterA⟩
  cases st with
  | true => exact leaves_ready hw'
  | false =>
      apply Eff.wp_seq (hp wk out hw' hb)
      intro ⟨st, b'⟩ w'' ⟨hw'', hafterB⟩
      refine ⟨hw'', fun hst => ?_⟩
      have hA := hafterA rfl
      have hB := hafterB hst
      exact ⟨List.append_ne_nil_of_left_ne_nil hA.waits _,
        List.forall_mem_append.mpr ⟨hA.frontier, hB.frontier⟩,
        List.forall_mem_append.mpr ⟨hA.behind, hB.behind⟩⟩

/-- The child of a state, when it is polled next. -/
theorem enterState_before {k : K} {cur : Fut (Recorded L) F K} {curOut : Option Nat}
    {curNext : Nat} {haveCur : Bool} (hw : w.round = round)
    (h : haveCur = true → Before round cur) :
    Eff.wp (enterState (recorded env) k cur curOut curNext haveCur)
      (fun r w' => w'.round = round ∧ Before round r.1) (fun _ => True) w := by
  unfold enterState
  cases haveCur with
  | true => exact ⟨hw, h rfl⟩
  | false =>
      apply Eff.wp_seq (P := fun step w' =>
        w'.round = round ∧ ∃ e : Expr L F K, step.fut = e.unpolled)
      · exact ⟨hw, _, rfl⟩
      · intro ⟨fut, out, next⟩ w' ⟨hw', e, he⟩
        dsimp only at he ⊢
        subst he
        apply Eff.wp_bind.mpr
        apply Eff.wp_mono (build_unpolled e w' hw')
        · intro f w'' ⟨hf, hw''⟩
          exact ⟨hw'', hf.before round⟩
        · intro _ _
          trivial

/-- The induction is on the rounds of the loop: a state whose child is done is left in the same poll
    of the root. -/
theorem smPoll_reaches (hp : Reaches poll) {id : Nat} {states : List K} (n : Nat) {state : Nat}
    {cur : Fut (Recorded L) F K} {curOut : Option Nat} {curNext : Nat} {haveCur : Bool}
    (hw : w.round = round) (h : haveCur = true → Before round cur) :
    Eff.wp (smPoll (recorded env) poll id states wk n state cur curOut curNext haveCur)
      (Leaves round wk) (fun _ => True) w := by
  induction n generalizing state cur curOut curNext haveCur w with
  | zero => trivial
  | succ n ih =>
      unfold smPoll
      split
      · exact leaves_ready hw
      · apply Eff.wp_seq (enterState_before hw h)
        intro ⟨cur', curOut', curNext'⟩ w' ⟨hw', hcur⟩
        dsimp only
        split
        · exact ih hw' nofun
        · apply Eff.wp_seq (hp wk curOut' hw' hcur)
          intro ⟨st, cur''⟩ w'' ⟨hw'', hafter⟩
          cases st with
          | false => exact ⟨hw'', fun _ =>
              ⟨(hafter rfl).waits, (hafter rfl).frontier, (hafter rfl).behind⟩⟩
          | true => exact wp_drop_round (c := true) hw'' fun w₃ hw₃ => ih hw₃ nofun

/-- One case for each vtable. -/
theorem nodePoll_reaches (hp : Reaches poll) (rounds : Nat) :
    Reaches (nodePoll (recorded env) poll rounds) := by
  intro round f wk out w hw h
  cases f with
  | null => trivial
  | leaf id l =>
      subst hw
      refine ⟨rfl, fun hst => ⟨List.cons_ne_nil _ _, ?_, nofun⟩⟩
      intro l' hl'
      rw [List.mem_singleton.mp hl']
      have hst : (env.leafPoll id l.leaf wk out w.mem.1).1.1 = false := hst
      have hwaits := waits_of_poll (h.frontier l (List.mem_singleton_self l)) wk
        (env.leafPoll id l.leaf wk out w.mem.1).1.2
      rw [← hst] at hwaits
      exact hwaits
  | map id inner fn => exact mapPoll_reaches hp hw ⟨h.frontier, h.behind⟩
  | then_ id a b stage => exact thenPoll_reaches hp hw h
  | join2 id a b aSize aDone bDone => exact joinPoll_reaches hp hw h
  | select2 id a b => exact selectPoll_reaches hp hw h
  | sm id states state cur curOut curNext haveCur =>
      apply smPoll_reaches hp rounds hw
      rintro rfl
      exact ⟨h.frontier, h.behind⟩

/-- **One poll reaches the frontier**: if it is `Pending`, each leaf there was polled once, with this
    waker, and is `Pending`. The induction is on the depth of the calls. -/
theorem futurePoll_reaches (env : Env L F K σ) (n : Nat) :
    Reaches (futurePoll (recorded env) n) := by
  induction n with
  | zero =>
      intro round f wk out w hw h
      trivial
  | succ n ih =>
      intro round f wk out w hw h
      unfold futurePoll
      split
      · trivial
      · refine Eff.wp_seq (P := fun _ w' => w'.round = round) hw fun _ w' hw' => ?_
        apply Eff.wp_seq (nodePoll_reaches ih n wk out hw' h)
        intro ⟨st, f'⟩ w'' ⟨hw'', hafter⟩
        cases st with
        | false => exact ⟨hw'', hafter⟩
        | true => exact leaves_ready hw''

end Round

/-! ## All polls of a tree

Any number of polls of the root, with any wakers and anything done to the memory in between. `Honours`
is the contract that leaves keep to in turn, and from both follows that no event is missed.
-/

/-- A poll of the root: what the rest of the program has done to the memory since the last one, the
    waker, the place for the output, and the depth of the calls that it is given. -/
structure RootPoll (σ : Type) where
  rest  : σ → σ
  waker : TaskId
  out   : Option Nat
  depth : Nat

def pollRoot (env : Env L F K σ) :
    List (RootPoll σ) → Fut (Recorded L) F K → Eff (World (σ × Nat)) (Bool × Fut (Recorded L) F K)
  | [], f      => return (false, f)
  | p :: ps, f => do
    onMem fun (m, round) => ((), p.rest m, round + 1)
    let (st, f) ← futurePoll (recorded env) p.depth f p.waker p.out
    if st then return (true, f) else pollRoot env ps f

/-- The poll contract of leaves: every event that can complete a leaf whose last poll was `Pending`
    wakes the waker of that poll. -/
def Honours {Ev : Type} (completes : Ev → Recorded L → Prop) (wakes : Ev → TaskId → Prop) : Prop :=
  ∀ ev l p, l.polls.getLast? = some p → p.ready = false → completes ev l → wakes ev p.waker

/-- The induction is on the polls before the last. -/
theorem pollRoot_after (env : Env L F K σ) (ps : List (RootPoll σ)) (p : RootPoll σ)
    {f : Fut (Recorded L) F K} {w : World (σ × Nat)} {round : Nat} (hw : w.round = round)
    (h : Before (round + 1) f) :
    Eff.wp (pollRoot env (ps ++ [p]) f)
      (fun r _ => r.1 = false → After (round + ps.length + 1) p.waker r.2) (fun _ => True) w := by
  induction ps generalizing f w round with
  | nil =>
      refine Eff.wp_seq (P := fun _ w' => w'.round = round + 1) (congrArg Nat.succ hw) ?_
      intro _ w' hw'
      apply Eff.wp_seq (futurePoll_reaches env p.depth p.waker p.out hw' h)
      intro ⟨st, f'⟩ w'' ⟨_, hafter⟩
      cases st with
      | true => exact nofun
      | false => exact hafter
  | cons q ps ih =>
      refine Eff.wp_seq (P := fun _ w' => w'.round = round + 1) (congrArg Nat.succ hw) ?_
      intro _ w' hw'
      apply Eff.wp_seq (futurePoll_reaches env q.depth q.waker q.out hw' h)
      intro ⟨st, f'⟩ w'' ⟨hw'', hafter⟩
      cases st with
      | true => exact nofun
      | false =>
          have hrun := ih hw'' (hafter rfl).next
          rw [Nat.add_right_comm round 1] at hrun
          exact hrun

/-- **Wake registration is complete at every suspension.** When a poll of the root returns
    `Pending`, the frontier is not empty, each of its leaves was polled exactly once in this poll, with
    the waker of the root, and has never been `Ready`; the leaves behind it have not been polled. So
    with leaves that honour the contract, every event that can complete a leaf of the frontier wakes
    the task of the root. -/
theorem suspended_frontier (env : Env L F K σ) (e : Expr L F K) {f f' : Fut (Recorded L) F K}
    {w₀ w w' : World (σ × Nat)} (hbuild : build (recorded env) e.unpolled w₀ = (some f, w))
    (ps : List (RootPoll σ)) (p : RootPoll σ)
    (hpoll : pollRoot env (ps ++ [p]) f w = (some (false, f'), w')) :
    f'.frontier ≠ [] ∧
      (∀ l ∈ f'.frontier,
        l.polls.filter (·.round = w₀.round + ps.length + 1) =
            [⟨w₀.round + ps.length + 1, p.waker, false⟩] ∧
          ∀ q ∈ l.polls, q.ready = false) ∧
      (∀ l ∈ f'.behind, l.polls = []) ∧
      ∀ {Ev : Type} (completes : Ev → Recorded L → Prop) (wakes : Ev → TaskId → Prop),
        Honours completes wakes →
        ∀ ev, ∀ l ∈ f'.frontier, completes ev l → wakes ev p.waker := by
  have hbuilt : Eff.wp (build (recorded env) e.unpolled) _ _ w₀ := build_unpolled e w₀ rfl
  rw [Eff.wp, hbuild] at hbuilt
  obtain ⟨hf, hw⟩ := hbuilt
  have hafter := pollRoot_after env ps p hw (hf.before _)
  rw [Eff.wp, hpoll] at hafter
  have hafter : After (w₀.round + ps.length + 1) p.waker f' := hafter rfl
  refine ⟨hafter.waits, ?_, hafter.behind, ?_⟩
  · intro l hl
    have hwaits := hafter.frontier l hl
    exact ⟨hwaits.once, fun q hq => (hwaits.pending q hq).2⟩
  · intro Ev completes wakes hcontract ev l hl hcompletes
    exact hcontract ev l _ (hafter.frontier l hl).last rfl hcompletes

/-- A leaf is `Pending` as often as its state says. -/
def countEnv : Env Nat Unit Unit Unit where
  leafPoll _ l _ _ m := match l with
    | 0     => ((true, 0), m)
    | l + 1 => ((false, l), m)
  leafDrop _ _ m := m
  mapFn _ _ m    := m
  stateFn _ m    := (⟨.leaf 1, none, 1⟩, m)
  refuses _      := false

/-- The second poll finishes the first leaf and starts the join behind it, a state machine
    included. -/
theorem suspended_frontier_stage_change :
    ∃ f' : Fut (Recorded Nat) Unit Unit, f'.frontier ≠ [] ∧
      f'.frontier.map Recorded.polls = [[⟨2, 8, false⟩], [⟨2, 8, false⟩]] := by
  have hwaits := (suspended_frontier countEnv
    (.then_ (.leaf 1) (.join2 (.leaf 1) 4 (.sm [()] 0)))
    (show build _ _ (World.start ((), 0)) = _ from rfl)
    [⟨id, 7, none, 5⟩] ⟨id, 8, none, 5⟩ rfl).1
  exact ⟨_, hwaits, rfl⟩

end CustLib.Exec
