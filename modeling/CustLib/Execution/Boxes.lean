import CustLib.Execution.Host

/-!
# Assertions about boxes

A tree owns its boxes, and a leaf box has something in it. `BoxRules` are the rules for an
assertion about boxes: it is kept by whatever the code does to one leaf, and follows the births and
releases of boxes. An assertion with these rules is kept by the construction, the poll and the drop
of every tree (`handOver_boxes`, `poll_boxes`, `drop_boxes`), in front of the boxes of all other
trees.

Each box is labelled with the task whose waker its tree is polled with.
-/

namespace CustLib.Exec

variable {L F K R σ : Type}

/-! ## Boxes and rules

The assertion is about a list of boxes with their contents and the memory. `HandRules` covers births and
releases, `BoxRules` the calls of leaves, functions and state functions on top of it. A module that
knows what its leaves do to its memory proves the rules once, and gets every tree from here.
-/

/-- The box of a node; `leaf` is what is in it, if it is the box of a leaf. -/
structure Box (L : Type) where
  task : TaskId
  id   : Nat
  leaf : Option L
  deriving DecidableEq, Repr

def Fut.boxes (t : TaskId) : Fut L F K → Multiset (Box L)
  | .null => 0
  | .leaf id l => ⟨t, id, some l⟩ ::ₘ 0
  | .map id inner _ => ⟨t, id, none⟩ ::ₘ inner.boxes t
  | .then_ id a b stage => ⟨t, id, none⟩ ::ₘ (owned (stage = 0) (a.boxes t) + b.boxes t)
  | .join2 id a b _ aDone bDone =>
    ⟨t, id, none⟩ ::ₘ (owned (!aDone) (a.boxes t) + owned (!bDone) (b.boxes t))
  | .select2 id a b => ⟨t, id, none⟩ ::ₘ (a.boxes t + b.boxes t)
  | .sm id _ _ cur _ _ haveCur => ⟨t, id, none⟩ ::ₘ owned haveCur (cur.boxes t)

theorem map_owned {α β : Type} (g : α → β) (c : Bool) (s : Multiset α) :
    (owned c s).map g = owned c (s.map g) := by
  cases c <;> rfl

/-- They are the boxes that are still to be dropped. -/
theorem map_id_boxes (t : TaskId) (f : Fut L F K) : (f.boxes t).map Box.id = f.custody := by
  induction f with
  | null => rfl
  | leaf id l => rfl
  | map id inner fn ih => simp [Fut.boxes, Fut.custody, ih]
  | then_ id a b stage iha ihb => simp [Fut.boxes, Fut.custody, map_owned, iha, ihb]
  | join2 id a b aSize aDone bDone iha ihb => simp [Fut.boxes, Fut.custody, map_owned, iha, ihb]
  | select2 id a b iha ihb => simp [Fut.boxes, Fut.custody, iha, ihb]
  | sm id states state cur curOut curNext haveCur ih => simp [Fut.boxes, Fut.custody, map_owned, ih]

theorem task_of_mem {t : TaskId} {f : Fut L F K} {c : Box L} (hc : c ∈ f.boxes t) : c.task = t := by
  induction f <;> simp only [Fut.boxes, owned] at hc <;> grind

/-- All leaves of an expression are new. -/
def Expr.Leaves (New : L → Prop) : Expr L F K → Prop
  | .null => True
  | .leaf l => New l
  | .map inner _ => inner.Leaves New
  | .then_ a b => a.Leaves New ∧ b.Leaves New
  | .join2 a _ b => a.Leaves New ∧ b.Leaves New
  | .select2 a b => a.Leaves New ∧ b.Leaves New
  | .sm _ _ => True

structure HandRules (site : Site L F K R σ) (New : L → Prop) (t : TaskId)
    (G : Multiset (Box L) → World σ → Prop) : Prop where
  asked    : ∀ C w, G C w → G C { w with requests := w.requests + 1 }
  born     : ∀ C w leaf, (∀ l, leaf = some l → New l) → G C w →
    G (⟨t, w.next, leaf⟩ ::ₘ C) { w with next := w.next + 1, log := w.log ++ [.born w.next] }
  released : ∀ C w id, G (⟨t, id, none⟩ ::ₘ C) w → G C { w with log := w.log ++ [.released id] }
  dropped  : ∀ C w id l, G (⟨t, id, some l⟩ ::ₘ C) w →
    G C { w with mem := site.leafDrop id l w.mem, log := w.log ++ [.released id] }

structure BoxRules (site : Site L F K R σ) (New : L → Prop) (t : TaskId)
    (G : Multiset (Box L) → World σ → Prop) : Prop extends HandRules site New t G where
  used     : ∀ C w id, G C w → G C { w with log := w.log ++ [.used id] }
  finished : ∀ C w id, G C w → G C { w with log := w.log ++ [.finished id] }
  polled   : ∀ C w id l out, G (⟨t, id, some l⟩ ::ₘ C) w →
    G (⟨t, id, some (site.leafPoll id l t out w.mem).1.2⟩ ::ₘ C)
      { w with mem := (site.leafPoll id l t out w.mem).2 }
  mapped   : ∀ C w f p, G C w → G C { w with mem := site.mapFn f p w.mem }
  stepped  : ∀ C w k, G C w → (site.stateFn k w.mem).1.fut.Leaves New ∧
    G C { w with mem := (site.stateFn k w.mem).2 }
  trapped  : ∀ C w, G C w → G C { w with mem := site.trap w.mem }

section Hand

variable {site : Site L F K R σ} {New : L → Prop} {t : TaskId}
  {G : Multiset (Box L) → World σ → Prop}
  (hG : HandRules site New t G)
include hG

/-! ## Drops

A drop goes through the nodes of a tree, and the assertion follows with one release for each of them.
-/

/-- A drop gives up the boxes of the tree. -/
theorem drop_boxes (f : Fut L F K) {R : Multiset (Box L)} {w : World σ} (h : G (f.boxes t + R) w) :
    Eff.wp (futureDrop site.toEnv f) (fun _ => G R) (fun _ => False) w := by
  -- a child that is already gone has no boxes
  have hwhen : ∀ {f : Fut L F K} (c : Bool) {R : Multiset (Box L)} {w : World σ},
      (∀ {R w}, G (f.boxes t + R) w →
        Eff.wp (futureDrop site.toEnv f) (fun _ => G R) (fun _ => False) w) →
      G (owned c (f.boxes t) + R) w →
      Eff.wp (Eff.when c (futureDrop site.toEnv f)) (fun _ => G R) (fun _ => False) w := by
    intro f c R w hf h
    rw [Eff.wp_when]
    cases c with
    | true => exact hf h
    | false => simpa [owned] using h
  induction f generalizing R w with
  | null =>
      rw [Fut.boxes, zero_add] at h
      exact h
  | leaf id l =>
      rw [Fut.boxes, Multiset.cons_add, zero_add] at h
      exact hG.dropped R w id l h
  | map id inner fn ih =>
      rw [Fut.boxes, Multiset.cons_add] at h
      rw [futureDrop, Eff.wp_bind, wp_note]
      exact ih (hG.released _ w id h)
  | then_ id a b stage iha ihb =>
      rw [Fut.boxes, Multiset.cons_add, add_assoc] at h
      rw [futureDrop, Eff.wp_bind, wp_note]
      apply Eff.wp_seq_total (hwhen (stage = 0) iha (hG.released _ w id h))
      intro _ w' h'
      exact ihb h'
  | join2 id a b aSize aDone bDone iha ihb =>
      rw [Fut.boxes, Multiset.cons_add, add_assoc] at h
      rw [futureDrop, Eff.wp_bind, wp_note]
      apply Eff.wp_seq_total (hwhen (!aDone) iha (hG.released _ w id h))
      intro _ w' h'
      exact hwhen (!bDone) ihb h'
  | select2 id a b iha ihb =>
      rw [Fut.boxes, Multiset.cons_add, add_assoc] at h
      rw [futureDrop, Eff.wp_bind, wp_note]
      apply Eff.wp_seq_total (iha (hG.released _ w id h))
      intro _ w' h'
      exact ihb h'
  | sm id states state cur curOut curNext haveCur ih =>
      rw [Fut.boxes, Multiset.cons_add] at h
      rw [futureDrop, Eff.wp_bind, wp_note]
      exact hwhen haveCur ih (hG.released _ w id h)

/-! ## Construction

What a constructor returns has the boxes that were born in it. A refused box leads to drops, which were
treated before.
-/

/-- What a constructor returns comes with its boxes. -/
def Boxed (t : TaskId) (G : Multiset (Box L) → World σ → Prop) (x : Eff (World σ) (Fut L F K)) :
    Prop :=
  ∀ R w, G R w → Eff.wp x (fun f => G (f.boxes t + R)) (fun _ => False) w

/-- The box of a new node in front of the boxes `C`, or what is done without one. -/
theorem boxed_node {box : Nat → Fut L F K} {other : Eff (World σ) (Fut L F K)} (leaf : Option L)
    (hnew : ∀ l, leaf = some l → New l) {C R : Multiset (Box L)}
    (hbox : ∀ id, (box id).boxes t = ⟨t, id, leaf⟩ ::ₘ C)
    (hother : ∀ w, G (C + R) w →
      Eff.wp other (fun f => G (f.boxes t + R)) (fun _ => False) w)
    {w : World σ} (h : G (C + R) w) :
    Eff.wp (do if ← request site.toEnv then return box (← birth) else other)
      (fun f => G (f.boxes t + R)) (fun _ => False) w := by
  rw [Eff.wp_bind, request, Eff.wp_move]
  have h := hG.asked _ w h
  cases site.refuses w.requests with
  | true => exact hother _ h
  | false =>
      rw [Bool.not_false, if_pos rfl, Eff.wp_bind, birth, Eff.wp_move]
      show G ((box w.next).boxes t + R) _
      rw [hbox, Multiset.cons_add]
      exact hG.born _ { w with requests := w.requests + 1 } leaf hnew h

/-- A box around two children that came with theirs. -/
theorem boxed_pair {box : Nat → Fut L F K → Fut L F K → Fut L F K}
    (hbox : ∀ id a b, (box id a b).boxes t = ⟨t, id, none⟩ ::ₘ (a.boxes t + b.boxes t))
    {x y : Eff (World σ) (Fut L F K)} (hx : Boxed t G x) (hy : Boxed t G y) :
    Boxed t G (do pairIn site.toEnv box (← x) (← y)) := by
  intro R w h
  apply Eff.wp_seq (hx R w h)
  intro a w' h'
  apply Eff.wp_seq (hy _ w' h')
  intro b w'' h''
  have h'' : G (a.boxes t + b.boxes t + R) w'' := by
    rwa [add_assoc, add_left_comm]
  refine boxed_node hG none nofun (fun id => hbox id a b) ?_ h''
  intro w₀ h₀
  rw [add_assoc] at h₀
  apply Eff.wp_seq_total (drop_boxes hG a h₀)
  intro _ w₁ h₁
  apply Eff.wp_seq_total (drop_boxes hG b h₁)
  intro _ w₂ h₂
  simpa [Fut.boxes] using h₂

theorem boxed_map {x : Eff (World σ) (Fut L F K)} (hx : Boxed t G x) (fn : Option F) :
    Boxed t G (do mapIn site.toEnv (← x) fn) := by
  intro R w h
  apply Eff.wp_seq (hx R w h)
  intro inner w' h'
  refine boxed_node hG none nofun (fun id => rfl) ?_ h'
  intro w₀ h₀
  apply Eff.wp_seq_total (drop_boxes hG inner h₀)
  intro _ w₁ h₁
  simpa [Fut.boxes] using h₁

theorem boxed_sm (states : List K) (start : Nat) : Boxed t G (smIn site.toEnv states start) := by
  intro R w h
  have h : G (0 + R) w := by rwa [zero_add]
  refine boxed_node hG none nofun (fun id => by simp [Fut.boxes, owned]) ?_ h
  exact fun w₀ h₀ => h₀

theorem boxed_leaf {l : L} (hl : New l) : Boxed t G (leafIn site.toEnv l) := by
  intro R w h
  have h : G (0 + R) w := by rwa [zero_add]
  refine boxed_node hG (some l) ?_ (fun id => rfl) ?_ h
  · intro _ h
    cases h
    exact hl
  · exact fun w₀ h₀ => h₀

theorem boxed_construct {e : Expr L F K} (he : e.Leaves New) :
    Boxed t G (construct site.toEnv e) := by
  induction e with
  | null =>
      intro R w h
      simpa [construct, Fut.boxes] using h
  | leaf l => exact boxed_leaf hG he
  | map inner fn ih => exact boxed_map hG (ih he) fn
  | then_ a b iha ihb =>
      exact boxed_pair hG (fun _ _ _ => by simp [Fut.boxes, owned]) (iha he.1) (ihb he.2)
  | join2 a size b iha ihb =>
      exact boxed_pair hG (fun _ _ _ => by simp [Fut.boxes, owned]) (iha he.1) (ihb he.2)
  | select2 a b iha ihb => exact boxed_pair hG (fun _ _ _ => rfl) (iha he.1) (ihb he.2)
  | sm states start => exact boxed_sm hG states start

/-- The evaluation of an expression comes with its boxes. -/
theorem boxed_build {e : Expr L F K} (he : e.Leaves New) : Boxed t G (build site.toEnv e) := by
  induction e with
  | null =>
      intro R w h
      simpa [build, Fut.boxes] using h
  | leaf l =>
      intro R w h
      rw [build, Eff.wp_bind, birth, Eff.wp_move]
      show G (Fut.boxes t (.leaf w.next l) + R) _
      rw [Fut.boxes, Multiset.cons_add, zero_add]
      apply hG.born _ w (some l) ?_ h
      intro _ h
      cases h
      exact he
  | map inner fn ih => exact boxed_map hG (ih he) fn
  | then_ a b iha ihb =>
      exact boxed_pair hG (fun _ _ _ => by simp [Fut.boxes, owned]) (iha he.1) (ihb he.2)
  | join2 a size b iha ihb =>
      exact boxed_pair hG (fun _ _ _ => by simp [Fut.boxes, owned]) (iha he.1) (ihb he.2)
  | select2 a b iha ihb => exact boxed_pair hG (fun _ _ _ => rfl) (iha he.1) (ihb he.2)
  | sm states start => exact boxed_sm hG states start

/-- **What the executor takes over comes with its boxes**; what it refuses leaves none. -/
theorem handOver_boxes {e : Expr L F K} (he : e.Leaves New) {R : Multiset (Box L)} {w : World σ}
    (h : G R w) : Eff.wp (handOver site.toEnv e)
      (fun r => G (owned r.2 (r.1.boxes t) + R)) (fun _ => False) w := by
  apply Eff.wp_seq (boxed_construct hG he R w h)
  intro f w' h'
  rw [push, Eff.wp_bind, Eff.wp_bind, request, Eff.wp_move]
  have h' := hG.asked _ w' h'
  cases site.refuses w'.requests with
  | false => exact h'
  | true =>
      apply Eff.wp_seq_total (drop_boxes hG f h')
      intro _ w'' h''
      simpa [owned] using h''

end Hand

/-! ## Polls

The polls of the combinators, for any assertion with the rules. A state machine builds new trees in its
poll and may be cut off in it; what holds then is `Somehow`: some boxes are left, and the assertion
holds of them.
-/

section Polls

variable {site : Site L F K R σ} {New : L → Prop} {t : TaskId}
  {G : Multiset (Box L) → World σ → Prop}
  (hG : BoxRules site New t G)
include hG

def Somehow (G : Multiset (Box L) → World σ → Prop) (w : World σ) : Prop := ∃ C, G C w

/-- A way of polling for task `t` that gives the boxes of the tree back. -/
def PollsBoxes (t : TaskId) (G : Multiset (Box L) → World σ → Prop) (poll : Poller L F K σ) :
    Prop :=
  ∀ f out R w, G (f.boxes t + R) w →
    Eff.wp (poll f t out) (fun r => G (r.2.boxes t + R)) (Somehow G) w

def NodeBoxes (t : TaskId) (G : Multiset (Box L) → World σ → Prop) (R : Multiset (Box L))
    (r : Bool × Fut L F K) (w : World σ) : Prop := G (r.2.boxes t + R) w

variable {poll : Poller L F K σ} {id : Nat} {R : Multiset (Box L)} {w : World σ} {out : Option Nat}

theorem mapPoll_boxes (hp : PollsBoxes t G poll) {inner : Fut L F K} {fn : Option F}
    (h : G ((Fut.map id inner fn).boxes t + R) w) :
    Eff.wp (mapPoll site.toEnv poll id inner fn t out) (NodeBoxes t G R) (Somehow G) w := by
  rw [Fut.boxes, Multiset.cons_add, ← Multiset.add_cons] at h
  apply Eff.wp_seq (hp inner out _ w h)
  intro r w' h'
  have happly : Eff.wp (applyFn site.toEnv r.1 fn out)
      (fun _ => G (r.2.boxes t + (⟨t, id, none⟩ ::ₘ R))) (fun _ => False) w' := by
    unfold applyFn
    split
    · exact hG.mapped _ w' _ _ h'
    · exact h'
  apply Eff.wp_seq_total happly
  intro _ w'' h''
  rw [Multiset.add_cons, ← Multiset.cons_add] at h''
  exact h''

omit hG in
/-- The second stage of `then_poll`. -/
theorem thenPoll_second_boxes (hp : PollsBoxes t G poll) {a b : Fut L F K} {stage : Nat}
    (hstage : stage ≠ 0) (h : G (⟨t, id, none⟩ ::ₘ (b.boxes t + R)) w) :
    Eff.wp (do
      let (st, b) ← poll b t out
      return (st, Fut.then_ id a b stage)) (NodeBoxes t G R) (Somehow G) w := by
  rw [← Multiset.add_cons] at h
  apply Eff.wp_seq (hp b out _ w h)
  intro r w' h'
  show G ((Fut.then_ id a r.2 stage).boxes t + R) w'
  rw [Multiset.add_cons] at h'
  simpa [Fut.boxes, owned, hstage] using h'

theorem thenPoll_boxes (hp : PollsBoxes t G poll) {a b : Fut L F K} {stage : Nat}
    (h : G ((Fut.then_ id a b stage).boxes t + R) w) :
    Eff.wp (thenPoll site.toEnv poll id a b stage t out) (NodeBoxes t G R) (Somehow G) w := by
  unfold thenPoll
  by_cases hstage : stage = 0
  · rw [if_pos hstage]
    have h : G (a.boxes t + (⟨t, id, none⟩ ::ₘ (b.boxes t + R))) w := by
      simpa [Fut.boxes, owned, hstage, add_assoc] using h
    apply Eff.wp_seq (hp a none _ w h)
    intro r w' h'
    obtain ⟨_ | _, a'⟩ := r
    · show G ((Fut.then_ id a' b 0).boxes t + R) w'
      simpa [Fut.boxes, owned, add_assoc] using h'
    · apply Eff.wp_seq_total (drop_boxes hG.toHandRules a' h')
      intro _ w'' h''
      exact thenPoll_second_boxes hp Nat.one_ne_zero h''
  · rw [if_neg hstage]
    apply thenPoll_second_boxes hp hstage
    simpa [Fut.boxes, owned, hstage] using h

/-- One arm of `join_poll` gives back what is still owned of it. -/
theorem joinArm_boxes (hp : PollsBoxes t G poll) {child : Fut L F K} {done : Bool}
    (h : G (owned (!done) (child.boxes t) + R) w) :
    Eff.wp (joinArm site.toEnv poll child done t out)
      (fun r => G (owned (!r.1) (r.2.boxes t) + R)) (Somehow G) w := by
  unfold joinArm
  cases done with
  | true => exact h
  | false =>
      apply Eff.wp_seq (hp child out R w h)
      intro r w' h'
      obtain ⟨_ | _, child'⟩ := r
      · exact h'
      · apply Eff.wp_seq_total (drop_boxes hG.toHandRules child' h')
        intro _ w'' h''
        simpa [owned] using h''

theorem joinPoll_boxes (hp : PollsBoxes t G poll) {a b : Fut L F K} {aSize : Nat}
    {aDone bDone : Bool} (h : G ((Fut.join2 id a b aSize aDone bDone).boxes t + R) w) :
    Eff.wp (joinPoll site.toEnv poll id a b aSize aDone bDone t out) (NodeBoxes t G R) (Somehow G)
      w := by
  have h : G (owned (!aDone) (a.boxes t) +
      (⟨t, id, none⟩ ::ₘ (owned (!bDone) (b.boxes t) + R))) w := by
    simpa [Fut.boxes, add_assoc] using h
  apply Eff.wp_seq (joinArm_boxes hG hp h)
  intro ra w' h'
  rw [front_swap] at h'
  apply Eff.wp_seq (joinArm_boxes hG hp h')
  intro rb w'' h''
  rw [front_box, ← Multiset.cons_add] at h''
  exact h''

omit hG in
theorem selectPoll_boxes (hp : PollsBoxes t G poll) {a b : Fut L F K}
    (h : G ((Fut.select2 id a b).boxes t + R) w) :
    Eff.wp (selectPoll poll id a b t out) (NodeBoxes t G R) (Somehow G) w := by
  have h : G (a.boxes t + (⟨t, id, none⟩ ::ₘ (b.boxes t + R))) w := by
    simpa [Fut.boxes, add_assoc] using h
  apply Eff.wp_seq (hp a out _ w h)
  intro ra w' h'
  rw [front_swap] at h'
  obtain ⟨_ | _, a'⟩ := ra
  · apply Eff.wp_seq (hp b out _ w' h')
    intro rb w'' h''
    rw [front_box, ← Multiset.cons_add] at h''
    exact h''
  · rw [front_box, ← Multiset.cons_add] at h'
    exact h'

/-- The child of a state comes with its boxes. -/
theorem enterState_boxes (k : K) {cur : Fut L F K} {curOut : Option Nat} {curNext : Nat}
    {haveCur : Bool} (h : G (owned haveCur (cur.boxes t) + R) w) :
    Eff.wp (enterState site.toEnv k cur curOut curNext haveCur) (fun r => G (r.1.boxes t + R))
      (fun _ => False) w := by
  unfold enterState
  cases haveCur with
  | true => exact h
  | false =>
      have h : G R w := by simpa [owned] using h
      obtain ⟨hnew, h⟩ := hG.stepped R w k h
      rw [if_neg Bool.false_ne_true, Eff.wp_bind, wp_onMem]
      apply Eff.wp_seq (boxed_build hG.toHandRules hnew R _ h)
      intro fut w' h'
      exact h'

theorem smPoll_boxes (hp : PollsBoxes t G poll) {states : List K} {n state : Nat} {cur : Fut L F K}
    {curOut : Option Nat} {curNext : Nat} {haveCur : Bool}
    (h : G (⟨t, id, none⟩ ::ₘ (owned haveCur (cur.boxes t) + R)) w) :
    Eff.wp (smPoll site.toEnv poll id states t n state cur curOut curNext haveCur) (NodeBoxes t G R)
      (Somehow G) w := by
  induction n generalizing state cur curOut curNext haveCur w with
  | zero => exact ⟨_, h⟩
  | succ n ih =>
      unfold smPoll
      split
      · rw [← Multiset.cons_add] at h
        exact h
      next k _ =>
        rw [← Multiset.add_cons] at h
        apply Eff.wp_seq_total (enterState_boxes hG k h)
        intro r w' h'
        obtain ⟨cur', curOut', curNext'⟩ := r
        dsimp only at h' ⊢
        by_cases hnull : cur'.isNull = true
        · -- a null child has no box, and the next state is entered
          rw [if_pos hnull]
          have hzero : cur'.boxes t = 0 := by cases cur' <;> first | rfl | exact absurd hnull nofun
          apply ih
          simpa [owned, hzero] using h'
        · rw [if_neg hnull]
          apply Eff.wp_seq (hp cur' curOut' _ w' h')
          intro r w'' h''
          obtain ⟨_ | _, cur''⟩ := r
          · rw [Multiset.add_cons, ← Multiset.cons_add] at h''
            exact h''
          · apply Eff.wp_seq_total (drop_boxes hG.toHandRules cur'' h'')
            intro _ w₃ h₃
            apply ih
            simpa [owned] using h₃

/-- The polls of all nodes give the boxes back, if those of their children do. -/
theorem nodePoll_boxes (hp : PollsBoxes t G poll) (n : Nat) {f : Fut L F K}
    (h : G (f.boxes t + R) w) :
    Eff.wp (nodePoll site.toEnv poll n f t out) (NodeBoxes t G R) (Somehow G) w := by
  cases f with
  | null => exact ⟨_, h⟩
  | leaf id l =>
      rw [Fut.boxes, Multiset.cons_add, zero_add] at h
      rw [nodePoll, Eff.wp_bind, wp_onMem]
      have h := hG.polled R w id l out h
      show G (Fut.boxes t (.leaf id _) + R) _
      rwa [Fut.boxes, Multiset.cons_add, zero_add]
  | map id inner fn => exact mapPoll_boxes hG hp h
  | then_ id a b stage => exact thenPoll_boxes hG hp h
  | join2 id a b aSize aDone bDone => exact joinPoll_boxes hG hp h
  | select2 id a b => exact selectPoll_boxes hp h
  | sm id states state cur curOut curNext haveCur =>
      apply smPoll_boxes hG hp
      rwa [Fut.boxes, Multiset.cons_add] at h

/-- **Polls keep every assertion about boxes.** -/
theorem poll_boxes (n : Nat) : PollsBoxes t G (site.poll n) := by
  induction n with
  | zero => exact fun f out R w h => ⟨_, h⟩
  | succ n ih =>
      intro f out R w h
      unfold Site.poll
      split
      next hnull =>
        rw [Eff.wp_bind, wp_onMem]
        exact ⟨_, hG.trapped _ w h⟩
      next id hid =>
        rw [Eff.wp_bind, wp_note]
        apply Eff.wp_seq (nodePoll_boxes hG ih n (hG.used _ w id h))
        intro r w' h'
        refine Eff.wp_seq_total (P := fun _ => G (r.2.boxes t + R)) ?_ fun _ w'' h'' => h''
        rw [Eff.wp_when]
        split
        · exact hG.finished _ w' id h'
        · exact h'

end Polls

end CustLib.Exec
