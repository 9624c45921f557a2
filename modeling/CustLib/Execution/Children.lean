import Mathlib.Algebra.Order.Group.Multiset
import Mathlib.Data.Multiset.Bind
import CustLib.Execution.Future

/-!
# The life of children

Every node of a tree of futures is polled while it is active, and dropped once. `session` is what a
program does with a future: build it, poll it some number of times but not after `Ready`, drop it.

The proof is one of ownership (`CustLib.Lib.Custody`). A tree owns the tokens of its `custody`: the
nodes that are still to be dropped. Each `poll` and `drop` function is specified by the tokens it takes
and gives back; `children_dropped_once` is then what every history of tokens satisfies.
-/

namespace CustLib.Exec

open CustLib.Custody

variable {L F K σ : Type}

/-! ## Tokens of a tree

A tree owns a token for each of its nodes that is still to be dropped: all but those under a child that
the node has marked as done. A node that has answered `Ready` has a spent token, which allows nothing
but its release.
-/

/-- What a child has of something, if it is still owned. -/
def owned {α : Type} (c : Bool) (s : Multiset α) : Multiset α := if c then s else 0

/-- The nodes of a tree that are still to be dropped. -/
def Fut.custody : Fut L F K → Multiset Nat
  | .null => 0
  | .leaf id _ => id ::ₘ 0
  | .map id inner _ => id ::ₘ inner.custody
  | .then_ id a b stage => id ::ₘ (owned (stage = 0) a.custody + b.custody)
  | .join2 id a b _ aDone bDone => id ::ₘ (owned (!aDone) a.custody + owned (!bDone) b.custody)
  | .select2 id a b => id ::ₘ (a.custody + b.custody)
  | .sm id _ _ cur _ _ haveCur => id ::ₘ owned haveCur cur.custody

def Fut.tokens (f : Fut L F K) : Multiset Token := f.custody.map .active

theorem over_tokens (f : Fut L F K) : Over f.tokens f.custody := over_active f.custody

/-- The program holds exactly these tokens. -/
def Own (s : Multiset Token) (w : World σ) : Prop := Owns w.log w.next s

/-- The program has an orderly history, whatever it holds. -/
def Held (w : World σ) : Prop := ∃ s, Own s w

theorem Own.used {id : Nat} {s : Multiset Token} {w : World σ} (h : Own (.active id ::ₘ s) w) :
    Own (.active id ::ₘ s) { w with log := w.log ++ [.used id] } := Owns.used h

/-- A node that is finished has its token spent. -/
theorem Own.finished {id : Nat} {s : Multiset Token} {w : World σ}
    (h : Own (.active id ::ₘ s) w) :
    Own (.spent id ::ₘ s) { w with log := w.log ++ [.finished id] } := Owns.finished h

/-- The box of a node is dropped, and its children are next. -/
theorem Own.released {toks R : Multiset Token} {id : Nat} {ids : Multiset Nat} {w : World σ}
    (ht : Over toks (id ::ₘ ids)) (h : Own (toks + R) w) :
    ∃ rest, Over rest ids ∧ Own (rest + R) { w with log := w.log ++ [.released id] } := by
  obtain ⟨t, rest, rfl, rfl, hrest⟩ := over_cons_iff.mp ht
  rw [Multiset.cons_add] at h
  exact ⟨rest, hrest, Owns.released h⟩

/-- The tokens of a sum of trees split into those of its parts. -/
theorem Own.split {toks R : Multiset Token} {A B : Multiset Nat} {w : World σ}
    (ht : Over toks (A + B)) (h : Own (toks + R) w) :
    ∃ ta tb, Over ta A ∧ Over tb B ∧ Own (ta + (tb + R)) w := by
  obtain ⟨ta, tb, rfl, ha, hb⟩ := over_add_iff.mp ht
  exact ⟨ta, tb, ha, hb, by rwa [add_assoc] at h⟩

/-! ## The trees of many tasks

Finite sums of multisets over the tasks: one task may change its tree, and the others keep what they
have.
-/

section Many

variable {α : Type} {futs : TaskId → Fut L F K} {live : List TaskId} {t : TaskId}

/-- One task and the others. -/
theorem bind_erase (g : TaskId → Multiset α) (ht : t ∈ live) :
    g t + ((live.erase t : List TaskId) : Multiset TaskId).bind g = (live : Multiset TaskId).bind g := by
  conv_rhs => rw [← Multiset.cons_erase (Multiset.mem_coe.mpr ht)]
  rw [Multiset.cons_bind, Multiset.coe_erase]

/-- The tree of another task has changed. -/
theorem bind_update (g : TaskId → Fut L F K → Multiset α) (ht : t ∉ live) (f : Fut L F K) :
    ((live : Multiset TaskId).bind fun u => g u (Function.update futs t f u)) =
      (live : Multiset TaskId).bind fun u => g u (futs u) := by
  apply Multiset.bind_congr
  intro u hu
  have hne : u ≠ t := fun heq => ht (heq ▸ hu)
  rw [Function.update_of_ne hne]

/-- The tree of one task has changed. -/
theorem bind_set (g : TaskId → Fut L F K → Multiset α) (hnodup : live.Nodup) (ht : t ∈ live)
    (f : Fut L F K) :
    ((live : Multiset TaskId).bind fun u => g u (Function.update futs t f u)) =
      g t f + ((live.erase t : List TaskId) : Multiset TaskId).bind fun u => g u (futs u) := by
  rw [← bind_erase _ ht, Function.update_self, bind_update g hnodup.not_mem_erase]

/-- There is one more task. -/
theorem bind_snoc (g : TaskId → Fut L F K → Multiset α) (ht : t ∉ live) (f : Fut L F K) :
    (((live ++ [t] : List TaskId) : Multiset TaskId).bind fun u => g u (Function.update futs t f u)) =
      g t f + (live : Multiset TaskId).bind fun u => g u (futs u) := by
  rw [← Multiset.coe_add, Multiset.add_bind, bind_update g ht, add_comm]
  congr 1
  rw [Multiset.coe_singleton, Multiset.singleton_bind, Function.update_self]

end Many

/-! ## Drops

A drop of a tree takes exactly the tokens of this tree out of custody, whether or not its root has been
`Ready`.
-/

/-- A drop takes the tokens of the tree with it, in whatever state they are. -/
def Drops (env : Env L F K σ) (f : Fut L F K) : Prop :=
  ∀ toks R w, Over toks f.custody → Own (toks + R) w →
    Eff.wp (futureDrop env f) (fun _ => Own R) (fun _ => False) w

/-- The drop of a child, on the condition that it is still owned. -/
theorem Drops.when {env : Env L F K σ} {f : Fut L F K} (h : Drops env f) {c : Bool}
    {toks R : Multiset Token} {w : World σ} (ht : Over toks (owned c f.custody))
    (hw : Own (toks + R) w) :
    Eff.wp (Eff.when c (futureDrop env f)) (fun _ => Own R) (fun _ => False) w := by
  rw [Eff.wp_when]
  cases c with
  | true => exact h toks R w ht hw
  | false =>
      have hzero : toks = 0 := over_zero_iff.mp ht
      rw [hzero, zero_add] at hw
      exact hw

theorem drops (env : Env L F K σ) (f : Fut L F K) : Drops env f := by
  induction f with
  | null =>
      intro toks R w ht h
      rw [Fut.custody, over_zero_iff] at ht
      rw [ht, zero_add] at h
      exact h
  | leaf id l =>
      intro toks R w ht h
      obtain ⟨rest, hrest, h⟩ := h.released ht
      rw [over_zero_iff] at hrest
      rw [hrest, zero_add] at h
      rw [futureDrop, Eff.wp_bind, wp_note]
      exact h
  | map id inner fn ih =>
      intro toks R w ht h
      obtain ⟨rest, hrest, h⟩ := h.released ht
      rw [futureDrop, Eff.wp_bind, wp_note]
      exact ih rest R _ hrest h
  | then_ id a b stage iha ihb =>
      intro toks R w ht h
      obtain ⟨rest, hrest, h⟩ := h.released ht
      obtain ⟨ta, tb, hta, htb, h⟩ := h.split hrest
      rw [futureDrop, Eff.wp_bind, wp_note]
      exact Eff.wp_seq (iha.when hta h) fun _ w' h' => ihb tb R w' htb h'
  | join2 id a b aSize aDone bDone iha ihb =>
      intro toks R w ht h
      obtain ⟨rest, hrest, h⟩ := h.released ht
      obtain ⟨ta, tb, hta, htb, h⟩ := h.split hrest
      rw [futureDrop, Eff.wp_bind, wp_note]
      exact Eff.wp_seq (iha.when hta h) fun _ w' h' => ihb.when htb h'
  | select2 id a b iha ihb =>
      intro toks R w ht h
      obtain ⟨rest, hrest, h⟩ := h.released ht
      obtain ⟨ta, tb, hta, htb, h⟩ := h.split hrest
      rw [futureDrop, Eff.wp_bind, wp_note]
      exact Eff.wp_seq (iha ta _ _ hta h) fun _ w' h' => ihb tb R w' htb h'
  | sm id states state cur curOut curNext haveCur ih =>
      intro toks R w ht h
      obtain ⟨rest, hrest, h⟩ := h.released ht
      rw [futureDrop, Eff.wp_bind, wp_note]
      exact ih.when hrest h

/-- A drop in front of other work. -/
theorem drop_seq {env : Env L F K σ} {f : Fut L F K} {α : Type} {x : Unit → Eff (World σ) α}
    {Q : α → World σ → Prop} {E : World σ → Prop} {toks R : Multiset Token} {w : World σ}
    (ht : Over toks f.custody) (h : Own (toks + R) w)
    (hx : ∀ w', Own R w' → Eff.wp (x ()) Q E w') : Eff.wp (futureDrop env f >>= x) Q E w :=
  Eff.wp_seq_total (drops env f toks R w ht h) fun _ w' h' => hx w' h'

/-! ## Constructors

A constructor turns the tokens of its children into those of a tree, or releases all of them when its
box is refused.
-/

def Built (R : Multiset Token) (f : Fut L F K) (w : World σ) : Prop := Own (f.tokens + R) w

/-- A birth adds an active token. -/
theorem own_birth {s : Multiset Token} {w : World σ} (h : Own s w) :
    Own (.active w.next ::ₘ s)
      { w with next := w.next + 1, log := w.log ++ [.born w.next] } := Owns.born h

/-- The box of a new node, or what is done without one. -/
theorem wp_box {env : Env L F K σ} {α : Type} {box : Nat → α} {other : Eff (World σ) α}
    {Q : α → World σ → Prop} {E : World σ → Prop} {s : Multiset Token} {w : World σ}
    (h : Own s w) (hbox : ∀ id w', Own (.active id ::ₘ s) w' → Q (box id) w')
    (hother : ∀ w', Own s w' → Eff.wp other Q E w') :
    Eff.wp (do if ← request env then return box (← birth) else other) Q E w := by
  rw [Eff.wp_bind, request, Eff.wp_move]
  cases env.refuses w.requests with
  | true => exact hother _ h
  | false =>
      rw [Bool.not_false, if_pos rfl, Eff.wp_bind, birth, Eff.wp_move]
      exact hbox _ _ (own_birth (w := { w with requests := w.requests + 1 }) h)

/-- A constructor of two children gives back one tree, or has dropped both. -/
theorem pairIn_spec (env : Env L F K σ) {box : Nat → Fut L F K → Fut L F K → Fut L F K}
    (hbox : ∀ id a b, (box id a b).custody = id ::ₘ (a.custody + b.custody)) {a b : Fut L F K}
    {R : Multiset Token} {w : World σ} (h : Own (a.tokens + (b.tokens + R)) w) :
    Eff.wp (pairIn env box a b) (Built R) (fun _ => False) w := by
  refine wp_box h ?_ ?_
  · intro id w' h'
    have htokens : (box id a b).tokens = .active id ::ₘ (a.tokens + b.tokens) := by
      simp [Fut.tokens, hbox]
    rwa [Built, htokens, Multiset.cons_add, add_assoc]
  · intro w' h'
    apply drop_seq (over_tokens a) h'
    intro w'' h''
    apply drop_seq (over_tokens b) h''
    intro w₃ h₃
    simpa [Built, Fut.tokens, Fut.custody] using h₃

/-- The same with one child. -/
theorem mapIn_spec (env : Env L F K σ) {inner : Fut L F K} {fn : Option F} {R : Multiset Token}
    {w : World σ} (h : Own (inner.tokens + R) w) :
    Eff.wp (mapIn env inner fn) (Built R) (fun _ => False) w := by
  refine wp_box h ?_ ?_
  · intro id w' h'
    simpa [Built, Fut.tokens, Fut.custody] using h'
  · intro w' h'
    apply drop_seq (over_tokens inner) h'
    intro w'' h''
    simpa [Built, Fut.tokens, Fut.custody] using h''

theorem smIn_spec (env : Env L F K σ) {states : List K} {start : Nat} {R : Multiset Token}
    {w : World σ} (h : Own R w) :
    Eff.wp (smIn env states start) (Built R) (fun _ => False) w := by
  refine wp_box h ?_ ?_
  · intro id w' h'
    simpa [Built, Fut.tokens, Fut.custody, owned] using h'
  · intro w' h'
    simpa [Built, Fut.tokens, Fut.custody] using h'

/-- The evaluation of an expression owns what it returns. -/
theorem build_spec (env : Env L F K σ) (e : Expr L F K) {R : Multiset Token} {w : World σ}
    (h : Own R w) : Eff.wp (build env e) (Built R) (fun _ => False) w := by
  induction e generalizing R w with
  | null => simpa [build, Built, Fut.tokens, Fut.custody] using h
  | leaf l =>
      rw [build, Eff.wp_bind, birth, Eff.wp_move]
      simpa [Built, Fut.tokens, Fut.custody] using own_birth h
  | map inner fn ih =>
      rw [build]
      exact Eff.wp_seq (ih h) fun f w' h' => mapIn_spec env h'
  | then_ a b iha ihb =>
      rw [build]
      apply Eff.wp_seq (iha h)
      intro fa w' h'
      apply Eff.wp_seq (ihb h')
      intro fb w'' h''
      apply pairIn_spec env (fun _ _ _ => rfl)
      rwa [add_left_comm]
  | join2 a size b iha ihb =>
      rw [build]
      apply Eff.wp_seq (iha h)
      intro fa w' h'
      apply Eff.wp_seq (ihb h')
      intro fb w'' h''
      apply pairIn_spec env (fun _ _ _ => rfl)
      rwa [add_left_comm]
  | select2 a b iha ihb =>
      rw [build]
      apply Eff.wp_seq (iha h)
      intro fa w' h'
      apply Eff.wp_seq (ihb h')
      intro fb w'' h''
      apply pairIn_spec env (fun _ _ _ => rfl)
      rwa [add_left_comm]
  | sm states start => exact smIn_spec env h

/-! ## Polls

A poll is given the tokens of an active tree and gives back those of the tree after it. For each node
this is the question which children it has polled and dropped, and what it has noted about them.
-/

/-- What a poll gives back: a tree that is active or, when it is `Ready`, has its tokens in some
    state. -/
def Answered (R : Multiset Token) (r : Bool × Fut L F K) (w : World σ) : Prop :=
  if r.1 then ∃ toks, Over toks r.2.custody ∧ Own (toks + R) w else Built R r.2 w

/-- A way of polling that works on active trees only, and gives their tokens back. -/
def Polls (poll : Poller L F K σ) : Prop :=
  ∀ f wk out R w, Own (f.tokens + R) w → Eff.wp (poll f wk out) (Answered R) Held w

theorem answered_pending {R : Multiset Token} {f : Fut L F K} {w : World σ} :
    Answered R (false, f) w ↔ Built R f w := Iff.rfl

theorem answered_ready {R : Multiset Token} {f : Fut L F K} {w : World σ} :
    Answered R (true, f) w ↔ ∃ toks, Over toks f.custody ∧ Own (toks + R) w := Iff.rfl

/-- The answer of a node under its own token, which is still active. -/
def NodeAnswered (id : Nat) (R : Multiset Token) (r : Bool × Fut L F K) (w : World σ) : Prop :=
  ∃ ids, r.2.custody = id ::ₘ ids ∧
    if r.1 then ∃ toks, Over toks ids ∧ Own (.active id ::ₘ (toks + R)) w
    else Own (.active id ::ₘ (ids.map .active + R)) w

/-- Code on the memory holds what the program held. -/
theorem own_mem {s : Multiset Token} {w : World σ} (h : Own s w) (m : σ) :
    Own s { w with mem := m } := h

section Combinators

variable {env : Env L F K σ} {poll : Poller L F K σ} {id : Nat} {R : Multiset Token} {w : World σ}
  {wk : TaskId} {out : Option Nat}

variable (env out) in
theorem applyFn_spec {s : Multiset Token} (h : Own s w) (st : Bool) (fn : Option F) :
    Eff.wp (applyFn env st fn out) (fun _ => Own s) (fun _ => False) w := by
  unfold applyFn
  split <;> exact h

theorem mapPoll_spec (hp : Polls poll) {inner : Fut L F K} {fn : Option F}
    (h : Own (.active id ::ₘ (inner.tokens + R)) w) :
    Eff.wp (mapPoll env poll id inner fn wk out) (NodeAnswered id R) Held w := by
  rw [← Multiset.add_cons] at h
  apply Eff.wp_seq (hp inner wk out _ w h)
  rintro ⟨st, inner'⟩ w' h'
  cases st with
  | false =>
      have happly := applyFn_spec env out (answered_pending.mp h') false fn
      refine Eff.wp_seq_total happly fun _ w'' h'' => ⟨inner'.custody, rfl, ?_⟩
      rwa [Multiset.add_cons] at h''
  | true =>
      obtain ⟨toks, htoks, h'⟩ := answered_ready.mp h'
      have happly := applyFn_spec env out h' true fn
      refine Eff.wp_seq_total happly fun _ w'' h'' => ⟨inner'.custody, rfl, toks, htoks, ?_⟩
      rwa [Multiset.add_cons] at h''

/-- The second stage of `then_poll`. -/
theorem thenPoll_second (hp : Polls poll) {a b : Fut L F K} {stage : Nat} (hstage : stage ≠ 0)
    (h : Own (.active id ::ₘ (b.tokens + R)) w) :
    Eff.wp (do
      let (st, b) ← poll b wk out
      return (st, Fut.then_ id a b stage)) (NodeAnswered id R) Held w := by
  rw [← Multiset.add_cons] at h
  apply Eff.wp_seq (hp b wk out _ w h)
  rintro ⟨st, b'⟩ w' h'
  refine ⟨b'.custody, by simp [Fut.custody, owned, hstage], ?_⟩
  cases st with
  | false =>
      have h' : Own (b'.tokens + (.active id ::ₘ R)) w' := h'
      rwa [Multiset.add_cons] at h'
  | true =>
      obtain ⟨toks, htoks, h'⟩ := answered_ready.mp h'
      exact ⟨toks, htoks, by rwa [Multiset.add_cons] at h'⟩

theorem thenPoll_spec (hp : Polls poll) {a b : Fut L F K} {stage : Nat}
    (h : Own ((Fut.then_ id a b stage).tokens + R) w) :
    Eff.wp (thenPoll env poll id a b stage wk out) (NodeAnswered id R) Held w := by
  unfold thenPoll
  by_cases hstage : stage = 0
  · rw [if_pos hstage]
    have h : Own (a.tokens + (.active id ::ₘ (b.tokens + R))) w := by
      simpa [Fut.tokens, Fut.custody, owned, hstage, add_assoc] using h
    apply Eff.wp_seq (hp a wk none _ w h)
    rintro ⟨st, a'⟩ w' h'
    cases st with
    | false =>
        have h' : Own (a'.tokens + (.active id ::ₘ (b.tokens + R))) w' := h'
        refine ⟨a'.custody + b.custody, by simp [Fut.custody, owned], ?_⟩
        simpa [Fut.tokens, add_assoc] using h'
    | true =>
        obtain ⟨toks, htoks, h'⟩ := answered_ready.mp h'
        exact drop_seq htoks h' fun w'' h'' => thenPoll_second hp Nat.one_ne_zero h''
  · rw [if_neg hstage]
    apply thenPoll_second hp hstage
    simpa [Fut.tokens, Fut.custody, owned, hstage] using h

/-- Two children take turns at the front. -/
theorem front_swap {α : Type} (x y R : Multiset α) (t : α) :
    x + (t ::ₘ (y + R)) = y + (t ::ₘ (x + R)) := by
  rw [Multiset.add_cons, Multiset.add_cons, add_left_comm]

/-- The box is put in front of its children again. -/
theorem front_box {α : Type} (x y R : Multiset α) (t : α) :
    y + (t ::ₘ (x + R)) = t ::ₘ (x + y + R) := by
  rw [Multiset.add_cons, add_left_comm, add_assoc]

/-- One arm of `join_poll` gives back what is still owned of it. -/
theorem joinArm_spec (hp : Polls poll) {child : Fut L F K} {done : Bool}
    (h : Own ((owned (!done) child.custody).map .active + R) w) :
    Eff.wp (joinArm env poll child done wk out)
      (fun r w' => Own ((owned (!r.1) r.2.custody).map .active + R) w') Held w := by
  unfold joinArm
  cases done with
  | true => exact h
  | false =>
      apply Eff.wp_seq (hp child wk out R w h)
      rintro ⟨st, child'⟩ w' h'
      cases st with
      | false => exact h'
      | true =>
          obtain ⟨toks, htoks, h'⟩ := answered_ready.mp h'
          apply Eff.wp_seq_total (drops env child' toks R w' htoks h')
          intro _ w'' h''
          simpa [owned] using h''

theorem joinPoll_spec (hp : Polls poll) {a b : Fut L F K} {aSize : Nat} {aDone bDone : Bool}
    (h : Own ((Fut.join2 id a b aSize aDone bDone).tokens + R) w) :
    Eff.wp (joinPoll env poll id a b aSize aDone bDone wk out) (NodeAnswered id R) Held w := by
  have h : Own ((owned (!aDone) a.custody).map .active +
      (.active id ::ₘ ((owned (!bDone) b.custody).map .active + R))) w := by
    simpa [Fut.tokens, Fut.custody, add_assoc] using h
  apply Eff.wp_seq (joinArm_spec hp h)
  rintro ⟨aDone', a'⟩ w' h'
  rw [front_swap] at h'
  apply Eff.wp_seq (joinArm_spec hp h')
  rintro ⟨bDone', b'⟩ w'' h''
  rw [front_box, ← Multiset.map_add] at h''
  refine ⟨owned (!aDone') a'.custody + owned (!bDone') b'.custody, rfl, ?_⟩
  show if (aDone' && bDone') = true then _ else _
  split
  · exact ⟨_, over_active _, h''⟩
  · exact h''

theorem selectPoll_spec (hp : Polls poll) {a b : Fut L F K}
    (h : Own ((Fut.select2 id a b).tokens + R) w) :
    Eff.wp (selectPoll poll id a b wk out) (NodeAnswered id R) Held w := by
  have h : Own (a.tokens + (.active id ::ₘ (b.tokens + R))) w := by
    simpa [Fut.tokens, Fut.custody, add_assoc] using h
  apply Eff.wp_seq (hp a wk out _ w h)
  rintro ⟨st, a'⟩ w' h'
  cases st with
  | true =>
      obtain ⟨toks, htoks, h'⟩ := answered_ready.mp h'
      refine ⟨a'.custody + b.custody, rfl, toks + b.tokens, htoks.add (over_tokens b), ?_⟩
      simpa [add_assoc] using h'
  | false =>
      have h' : Own (a'.tokens + (.active id ::ₘ (b.tokens + R))) w' := h'
      rw [front_swap] at h'
      apply Eff.wp_seq (hp b wk out _ w' h')
      rintro ⟨st, b'⟩ w'' h''
      refine ⟨a'.custody + b'.custody, rfl, ?_⟩
      cases st with
      | false =>
          have h'' : Own (b'.tokens + (.active id ::ₘ (a'.tokens + R))) w'' := h''
          rw [front_box] at h''
          simpa [Fut.tokens] using h''
      | true =>
          obtain ⟨toks, htoks, h''⟩ := answered_ready.mp h''
          rw [front_box] at h''
          exact ⟨a'.tokens + toks, (over_tokens a').add htoks, h''⟩

/-- The child of a state is active. -/
theorem enterState_spec (k : K) {cur : Fut L F K} {curOut : Option Nat} {curNext : Nat}
    {haveCur : Bool} (h : Own ((owned haveCur cur.custody).map .active + R) w) :
    Eff.wp (enterState env k cur curOut curNext haveCur) (fun r => Built R r.1) (fun _ => False)
      w := by
  unfold enterState
  cases haveCur with
  | true => exact h
  | false =>
      have h : Own R w := by simpa [owned] using h
      have hmem : Eff.wp (onMem (env.stateFn k)) (fun _ => Own R) (fun _ => False) w := own_mem h _
      apply Eff.wp_seq hmem
      intro step w' h'
      exact Eff.wp_seq (build_spec env step.fut h') fun _ _ h'' => h''

theorem smPoll_spec (hp : Polls poll) {states : List K} {n state : Nat} {cur : Fut L F K}
    {curOut : Option Nat} {curNext : Nat} {haveCur : Bool}
    (h : Own (.active id ::ₘ ((owned haveCur cur.custody).map .active + R)) w) :
    Eff.wp (smPoll env poll id states wk n state cur curOut curNext haveCur) (NodeAnswered id R)
      Held w := by
  induction n generalizing state cur curOut curNext haveCur w with
  | zero => exact ⟨_, h⟩
  | succ n ih =>
      unfold smPoll
      split
      · exact ⟨owned haveCur cur.custody, rfl, _, over_active _, h⟩
      next k _ =>
        rw [← Multiset.add_cons] at h
        apply Eff.wp_seq_total (enterState_spec k h)
        rintro ⟨cur', curOut', curNext'⟩ w' h'
        have h' : Own (cur'.tokens + (.active id ::ₘ R)) w' := h'
        dsimp only
        by_cases hnull : cur'.isNull = true
        · rw [if_pos hnull]
          -- the null future owns nothing, so the next round owns the same
          have hzero : cur'.tokens = 0 := by cases cur' <;> first | rfl | exact absurd hnull nofun
          apply ih
          simpa [owned, hzero] using h'
        · rw [if_neg hnull]
          apply Eff.wp_seq (hp cur' wk curOut' _ w' h')
          rintro ⟨st, cur''⟩ w'' h''
          cases st with
          | false =>
              refine ⟨cur''.custody, rfl, ?_⟩
              have h'' : Own (cur''.tokens + (.active id ::ₘ R)) w'' := h''
              rwa [Multiset.add_cons] at h''
          | true =>
              obtain ⟨toks, htoks, h''⟩ := answered_ready.mp h''
              refine drop_seq htoks h'' fun w₃ h₃ => ih ?_
              simpa [owned] using h₃

/-- The polls of all nodes, from those of their children. -/
theorem nodePoll_spec (hp : Polls poll) {n : Nat} {f : Fut L F K} (hid : f.id? = some id)
    (h : Own (f.tokens + R) w) :
    Eff.wp (nodePoll env poll n f wk out) (NodeAnswered id R) Held w := by
  cases f with
  | null => cases hid
  | leaf id l =>
      cases hid
      have h : Own (.active id ::ₘ (0 + R)) w := by simpa [Fut.tokens, Fut.custody] using h
      rw [nodePoll, Eff.wp_bind, wp_onMem]
      refine ⟨0, rfl, ?_⟩
      split
      · exact ⟨0, over_zero, h⟩
      · exact h
  | map id inner fn =>
      cases hid
      apply mapPoll_spec hp
      simpa [Fut.tokens, Fut.custody] using h
  | then_ id a b stage =>
      cases hid
      exact thenPoll_spec hp h
  | join2 id a b aSize aDone bDone =>
      cases hid
      exact joinPoll_spec hp h
  | select2 id a b =>
      cases hid
      exact selectPoll_spec hp h
  | sm id states state cur curOut curNext haveCur =>
      cases hid
      apply smPoll_spec hp
      simpa [Fut.tokens, Fut.custody] using h

end Combinators

/-- The number of a tree's root is the first in its custody. -/
theorem custody_of_id {f : Fut L F K} {id : Nat} (hid : f.id? = some id) :
    ∃ ids, f.custody = id ::ₘ ids := by
  cases f <;> cases hid <;> exact ⟨_, rfl⟩

/-- **Polling keeps custody**: `cexec_future_poll` polls active nodes only, and gives back what the
    tree owned. -/
theorem futurePoll_spec (env : Env L F K σ) (n : Nat) : Polls (futurePoll env n) := by
  induction n with
  | zero => exact fun f wk out R w h => ⟨_, h⟩
  | succ n ih =>
      intro f wk out R w h
      unfold futurePoll
      split
      · exact ⟨_, h⟩
      next id hid =>
        rw [Eff.wp_bind, wp_note]
        have hused : Own (f.tokens + R) { w with log := w.log ++ [.used id] } := by
          obtain ⟨ids, hids⟩ := custody_of_id hid
          rw [Fut.tokens, hids, Multiset.map_cons, Multiset.cons_add] at h ⊢
          exact h.used
        apply Eff.wp_seq (nodePoll_spec ih hid hused)
        rintro ⟨st, f'⟩ w' ⟨ids, hids, h'⟩
        cases st with
        | false =>
            show Own (f'.tokens + R) w'
            rwa [Fut.tokens, hids, Multiset.map_cons, Multiset.cons_add]
        | true =>
            obtain ⟨toks, htoks, h'⟩ := h'
            refine ⟨.spent id ::ₘ toks, ?_, ?_⟩
            · rw [hids]
              exact htoks.cons (.spent id)
            · rw [Multiset.cons_add]
              exact h'.finished

/-! ## Sessions

A program builds one future, polls it until it is `Ready` or it loses interest, and drops it. The
history of a whole session is orderly, and every node that was born was released.
-/

/-- Poll with these wakers and places for the output, until `Ready`. -/
def pollMany (env : Env L F K σ) (n : Nat) (f : Fut L F K) :
    List (TaskId × Option Nat) → Eff (World σ) (Fut L F K)
  | []                => pure f
  | (wk, out) :: rest => do
    let (st, f) ← futurePoll env n f wk out
    if st then return f else pollMany env n f rest

def session (env : Env L F K σ) (n : Nat) (e : Expr L F K) (polls : List (TaskId × Option Nat)) :
    Eff (World σ) Unit := do
  let f ← build env e
  let f ← pollMany env n f polls
  futureDrop env f

/-- However often a future is polled, its tokens come back. -/
theorem pollMany_spec (env : Env L F K σ) (n : Nat) (polls : List (TaskId × Option Nat))
    {f : Fut L F K} {R : Multiset Token} {w : World σ} (h : Own (f.tokens + R) w) :
    Eff.wp (pollMany env n f polls)
      (fun f' w' => ∃ toks, Over toks f'.custody ∧ Own (toks + R) w') Held w := by
  induction polls generalizing f w with
  | nil => exact ⟨f.tokens, over_tokens f, h⟩
  | cons p rest ih =>
      obtain ⟨wk, out⟩ := p
      apply Eff.wp_seq (futurePoll_spec env n f wk out R w h)
      rintro ⟨st, f'⟩ w' h'
      cases st with
      | true => exact answered_ready.mp h'
      | false => exact ih (answered_pending.mp h')

/-- Polls of a tree without state machines return. -/
theorem pollMany_returns (env : Env L F K σ) {n : Nat} (polls : List (TaskId × Option Nat))
    {f : Fut L F K} (hf : f.Fits n) (w : World σ) :
    Eff.wp (pollMany env n f polls) (fun _ _ => True) (fun _ => False) w := by
  induction polls generalizing f w with
  | nil => trivial
  | cons p rest ih =>
      obtain ⟨wk, out⟩ := p
      apply Eff.wp_seq (futurePoll_total env n f wk out w hf)
      rintro ⟨st, f'⟩ w' hf'
      cases st with
      | true => trivial
      | false => exact ih hf' w'

/-- **Children are polled while they are active, and dropped once.** In every session nothing is
    polled after it was `Ready` or dropped, and nothing is dropped twice; this includes sessions that
    get stuck. When the session ends, every node that was born was dropped once. It does end when
    there is no poll, or when the tree that was built has no null child and no state machine and is
    no higher than the cut-off. -/
theorem children_dropped_once (env : Env L F K σ) (n : Nat) (e : Expr L F K)
    (polls : List (TaskId × Option Nat)) (mem : σ) :
    Orderly (session env n e polls (World.start mem)).2.log ∧
      ((session env n e polls (World.start mem)).1 = some () →
        ∀ id, .born id ∈ (session env n e polls (World.start mem)).2.log →
          (session env n e polls (World.start mem)).2.log.count (.released id) = 1) ∧
      (∀ f w, build env e (World.start mem) = (some f, w) → polls = [] ∨ f.Fits n →
        (session env n e polls (World.start mem)).1 = some ()) := by
  -- built, polled and dropped, each from what the one before owns
  have hspec : Eff.wp (session env n e polls) (fun _ => Own 0) Held (World.start mem) := by
    have hstart : Own 0 (World.start mem) := Owns.nil
    apply Eff.wp_seq_total (build_spec env e hstart)
    intro f w h
    apply Eff.wp_seq (pollMany_spec env n polls h)
    rintro f' w' ⟨toks, htoks, h'⟩
    exact Eff.wp_mono (drops env f' toks 0 w' htoks h') (fun _ _ h => h) fun _ => False.elim
  rw [Eff.wp_iff] at hspec
  obtain ⟨hdone, hstuck⟩ := hspec
  refine ⟨?_, ?_, ?_⟩
  · cases hres : (session env n e polls (World.start mem)).1 with
    | none =>
        obtain ⟨s, hs⟩ := hstuck hres
        exact hs.orderly
    | some u => exact (hdone u hres).orderly
  · intro hres id hid
    exact (hdone () hres).released_once hid
  · intro f w hbuild hends
    have hpolls : Eff.wp (pollMany env n f polls) (fun _ _ => True) (fun _ => False) w := by
      rcases hends with rfl | hfits
      · trivial
      · exact pollMany_returns env polls hfits w
    have htotal : Eff.wp (session env n e polls) (fun _ _ => True) (fun _ => False)
        (World.start mem) := by
      apply Eff.wp_bind.mpr
      rw [Eff.wp, hbuild]
      exact Eff.wp_seq hpolls fun f' w' _ => futureDrop_total env f' w'
    obtain ⟨u, w', hrun, -⟩ := Eff.wp_total htotal
    rw [hrun]

/-! ## The cut-off

A session that is cut off later has the same history as long as it is not cut off, so every poll of a
stuck session is covered too.
-/

/-- More rounds do not change a session that has ended. -/
theorem pollMany_le (env : Env L F K σ) {n m : Nat} (h : n ≤ m)
    (polls : List (TaskId × Option Nat)) (f : Fut L F K) :
    Eff.Le (pollMany env n f polls) (pollMany env m f polls) := by
  induction polls generalizing f with
  | nil => exact Eff.le_refl _
  | cons p rest ih =>
      obtain ⟨wk, out⟩ := p
      apply Eff.le_bind (futurePoll_le env h f wk out)
      rintro ⟨st, f'⟩
      cases st with
      | true => exact Eff.le_refl _
      | false => exact ih f'

/-- A session that ends is the same under every later cut-off. -/
theorem session_le (env : Env L F K σ) {n m : Nat} (h : n ≤ m) (e : Expr L F K)
    (polls : List (TaskId × Option Nat)) :
    Eff.Le (session env n e polls) (session env m e polls) :=
  Eff.le_bind (Eff.le_refl _) fun f =>
    Eff.le_bind (pollMany_le env h polls f) fun _ => Eff.le_refl _

end CustLib.Exec
