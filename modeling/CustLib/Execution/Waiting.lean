import CustLib.Execution.Frontier
import CustLib.Execution.LiveTasks

/-!
# What suspended tasks wait for

A task that is neither queued nor at hand waits for the front of its tree. `WaitRules` are the rules for
a relation `P` between a task and a leaf of its own: a leaf that answers `Pending` is in it, and the
code around the combinators leaves it there, except that the site may wake the task. Then in every run
each live task is queued, or at hand, or waits for something, and for leaves in `P` only
(`attended_run`). Which wakes a site may lose is so a question about its leaves alone.
-/

namespace CustLib.Exec

open CustLib.Machine (run_concat_iff run_append)
open CustLib.Fifo (mem_enqueue)

variable {L F K R σ : Type}

/-! ## Fronts

The leaves that a tree waits for, with the numbers of their boxes. They are those of `Fut.frontier`.
-/

def Fut.front : Fut L F K → List (Nat × L)
  | .null                       => []
  | .leaf id l                  => [(id, l)]
  | .map _ inner _              => inner.front
  | .then_ _ a b stage          => if stage = 0 then a.front else b.front
  | .join2 _ a b _ aDone bDone  =>
    (if aDone then [] else a.front) ++ if bDone then [] else b.front
  | .select2 _ a b              => a.front ++ b.front
  | .sm _ _ _ cur _ _ haveCur   => if haveCur then cur.front else []

theorem front_frontier (f : Fut L F K) : f.front.map Prod.snd = f.frontier := by
  induction f with
  | null => rfl
  | leaf id l => rfl
  | map id inner fn ih => exact ih
  | then_ id a b stage iha ihb => simp only [Fut.front, Fut.frontier]; split <;> assumption
  | join2 id a b aSize aDone bDone iha ihb =>
      cases aDone <;> cases bDone <;> simp [Fut.front, Fut.frontier, iha, ihb]
  | select2 id a b iha ihb => simp [Fut.front, Fut.frontier, iha, ihb]
  | sm id states state cur curOut curNext haveCur ih =>
      cases haveCur <;> simp [Fut.front, Fut.frontier, ih]

/-- The leaves of the front are in boxes of the tree. -/
theorem mem_boxes_of_front {t : TaskId} {f : Fut L F K} {x : Nat × L} (hx : x ∈ f.front) :
    ⟨t, x.1, some x.2⟩ ∈ f.boxes t := by
  induction f <;> simp only [Fut.boxes, Fut.front, owned] at hx ⊢ <;> grind

/-- The tree waits for something, and for leaves in `P` only. -/
structure Fut.WaitsFor (f : Fut L F K) (P : Nat → L → Prop) : Prop where
  some : f.front ≠ []
  all  : ∀ x ∈ f.front, P x.1 x.2

theorem Fut.WaitsFor.mono {f : Fut L F K} {P P' : Nat → L → Prop} (h : f.WaitsFor P)
    (hP : ∀ x ∈ f.front, P x.1 x.2 → P' x.1 x.2) : f.WaitsFor P' :=
  ⟨h.some, fun x hx => hP x hx (h.all x hx)⟩

/-! ## Polls of a tree

By induction on the depth of the calls: a node that answers `Pending` has at least one child that did,
and waits for what this child waits for.
-/

section Polls

variable {site : Site L F K R σ} {New : L → Prop} {t : TaskId} {G : Multiset (Box L) → World σ → Prop}
  {P : Nat → L → σ → Prop}

/-- A poll that is `Pending` leaves a tree that waits for leaves in `P`. -/
def PollsWait (t : TaskId) (G : Multiset (Box L) → World σ → Prop) (P : Nat → L → σ → Prop)
    (poll : Poller L F K σ) : Prop :=
  ∀ f out R w, G (f.boxes t + R) w →
    Eff.wp (poll f t out) (fun r w' => r.1 = false → r.2.WaitsFor fun id l => P id l w'.mem)
      (fun _ => True) w

/-- The code around the combinators keeps what `P` says of a tree. -/
theorem waits_keep {α : Type} {x : Eff (World σ) α} (hx : ∀ id l, KeepsMem (P id l) x)
    {f : Fut L F K} {w : World σ} (h : f.WaitsFor fun id l => P id l w.mem) :
    Eff.wp x (fun _ w' => f.WaitsFor fun id l => P id l w'.mem) (fun _ => True) w := by
  rw [Eff.wp_iff]
  refine ⟨fun a ha => h.mono fun y _ hy => ?_, fun _ => trivial⟩
  have hkeep := hx y.1 y.2 w hy
  rw [Eff.wp_iff] at hkeep
  exact (hkeep.1 a ha).2

variable {poll : Poller L F K σ} {id : Nat} {C : Multiset (Box L)} {w : World σ} {out : Option Nat}

/-- The poll of a child: what becomes of its boxes, and what it waits for. -/
theorem child_waits (hb : PollsBoxes t G poll) (hp : PollsWait t G P poll) {f : Fut L F K}
    (h : G (f.boxes t + C) w) :
    Eff.wp (poll f t out) (fun r w' => G (r.2.boxes t + C) w' ∧
      (r.1 = false → r.2.WaitsFor fun id l => P id l w'.mem)) (fun _ => True) w :=
  Eff.wp_mono (Eff.wp_and (hb f out C w h) (hp f out C w h)) (fun _ _ => id) fun _ _ => trivial

def NodeWaits (P : Nat → L → σ → Prop) (r : Bool × Fut L F K) (w : World σ) : Prop :=
  r.1 = false → r.2.WaitsFor fun id l => P id l w.mem

/-- A node that is `Ready` waits for nothing. -/
theorem nodeWaits_ready {f : Fut L F K} {w : World σ} : NodeWaits P (true, f) w := by
  intro h
  cases h

theorem mapPoll_waits (hp : PollsWait t G P poll) {inner : Fut L F K} {fn : Option F}
    (h : G ((Fut.map id inner fn).boxes t + C) w) :
    Eff.wp (mapPoll site.toEnv poll id inner fn t out) (NodeWaits P) (fun _ => True) w := by
  rw [Fut.boxes, Multiset.cons_add, ← Multiset.add_cons] at h
  apply Eff.wp_seq (hp inner out _ w h)
  intro r w' h'
  obtain ⟨_ | _, inner'⟩ := r
  · exact fun _ => ⟨(h' rfl).some, (h' rfl).all⟩
  · apply Eff.wp_seq Eff.wp_trivial
    exact fun _ _ _ => nodeWaits_ready

/-- The second stage of `then_poll`. -/
theorem thenPoll_second_waits (hp : PollsWait t G P poll) {a b : Fut L F K} {stage : Nat}
    (hstage : stage ≠ 0) (h : G (⟨t, id, none⟩ ::ₘ (b.boxes t + C)) w) :
    Eff.wp (do
      let (st, b) ← poll b t out
      return (st, Fut.then_ id a b stage)) (NodeWaits P) (fun _ => True) w := by
  rw [← Multiset.add_cons] at h
  apply Eff.wp_seq (hp b out _ w h)
  intro r w' h'
  refine fun hst => ⟨?_, ?_⟩ <;> simp only [Fut.front, hstage, if_false]
  · exact (h' hst).some
  · exact (h' hst).all

/-- A join waits for the arms that are not done. -/
theorem waitsFor_join2 {a b : Fut L F K} {aSize : Nat} {aDone bDone : Bool} {P : Nat → L → Prop}
    (ha : aDone = false → a.WaitsFor P) (hb : bDone = false → b.WaitsFor P)
    (h : (aDone && bDone) = false) : (Fut.join2 id a b aSize aDone bDone).WaitsFor P := by
  cases aDone with
  | false =>
      have hA := ha rfl
      refine ⟨List.append_ne_nil_of_left_ne_nil hA.some _, ?_⟩
      cases bDone with
      | false => exact List.forall_mem_append.mpr ⟨hA.all, (hb rfl).all⟩
      | true =>
          show ∀ x ∈ a.front ++ [], P x.1 x.2
          rw [List.append_nil]
          exact hA.all
  | true =>
      subst h
      have hB := hb rfl
      exact ⟨hB.some, hB.all⟩

variable (hG : BoxRules site New t G) (hb : PollsBoxes t G poll)
  (hkept : ∀ id l, Env.Keeps site.toEnv (P id l))
include hG hb

theorem thenPoll_waits (hp : PollsWait t G P poll) {a b : Fut L F K} {stage : Nat}
    (h : G ((Fut.then_ id a b stage).boxes t + C) w) :
    Eff.wp (thenPoll site.toEnv poll id a b stage t out) (NodeWaits P) (fun _ => True) w := by
  unfold thenPoll
  by_cases hstage : stage = 0
  · rw [if_pos hstage]
    have h : G (a.boxes t + (⟨t, id, none⟩ ::ₘ (b.boxes t + C))) w := by
      simpa [Fut.boxes, owned, hstage, add_assoc] using h
    apply Eff.wp_seq (child_waits hb hp h)
    intro r w' h'
    obtain ⟨_ | _, a'⟩ := r
    · exact fun _ => ⟨(h'.2 rfl).some, (h'.2 rfl).all⟩
    · apply Eff.wp_seq_total (drop_boxes hG.toHandRules a' h'.1)
      intro _ w'' h''
      exact thenPoll_second_waits hp Nat.one_ne_zero h''
  · rw [if_neg hstage]
    apply thenPoll_second_waits hp hstage
    simpa [Fut.boxes, owned, hstage] using h

/-- One arm of `join_poll`. -/
theorem joinArm_waits (hp : PollsWait t G P poll) {child : Fut L F K} {done : Bool}
    (h : G (owned (!done) (child.boxes t) + C) w) :
    Eff.wp (joinArm site.toEnv poll child done t out)
      (fun r w' => G (owned (!r.1) (r.2.boxes t) + C) w' ∧ NodeWaits P r w') (fun _ => True) w := by
  suffices hwait : Eff.wp (joinArm site.toEnv poll child done t out)
      (NodeWaits P) (fun _ => True) w from
    Eff.wp_mono (Eff.wp_and (joinArm_boxes hG hb h) hwait) (fun _ _ => id) fun _ _ => trivial
  unfold joinArm
  cases done with
  | true => exact nodeWaits_ready
  | false =>
      apply Eff.wp_seq (hp child out C w h)
      intro r w' h'
      obtain ⟨_ | _, child'⟩ := r
      · exact h'
      · apply Eff.wp_seq Eff.wp_trivial
        exact fun _ _ _ => nodeWaits_ready

include hkept

theorem joinPoll_waits (hp : PollsWait t G P poll) (hkeeps : ∀ id l, PollKeeps (P id l) poll)
    {a b : Fut L F K} {aSize : Nat} {aDone bDone : Bool}
    (h : G ((Fut.join2 id a b aSize aDone bDone).boxes t + C) w) :
    Eff.wp (joinPoll site.toEnv poll id a b aSize aDone bDone t out) (NodeWaits P) (fun _ => True)
      w := by
  have h : G (owned (!aDone) (a.boxes t) +
      (⟨t, id, none⟩ ::ₘ (owned (!bDone) (b.boxes t) + C))) w := by
    simpa [Fut.boxes, add_assoc] using h
  apply Eff.wp_seq (joinArm_waits hG hb hp h)
  intro ra w' h'
  obtain ⟨hboxes, hwaitsA⟩ := h'
  rw [front_swap] at hboxes
  -- the poll of the second arm keeps what the first one waits for
  have hkeep : Eff.wp (joinArm site.toEnv poll b bDone t (out.map (· + aSize)))
      (fun _ w'' => NodeWaits P ra w'') (fun _ => True) w' := by
    obtain ⟨_ | _, a'⟩ := ra
    · refine Eff.wp_mono (waits_keep (fun id l => ?_) (hwaitsA rfl)) (fun _ _ h _ => h) fun _ h => h
      exact (hkept id l).joinArm (hkeeps id l) _ _ _ _
    · exact Eff.wp_mono Eff.wp_trivial (fun _ _ _ => nodeWaits_ready) fun _ h => h
  refine Eff.wp_seq (Eff.wp_mono (Eff.wp_and (joinArm_waits hG hb hp hboxes) hkeep)
    (fun _ _ h => h) fun _ _ => trivial) ?_
  intro rb w'' h''
  obtain ⟨⟨-, hwaitsB⟩, hwaitsA⟩ := h''
  exact waitsFor_join2 hwaitsA hwaitsB

omit hG hkept in
theorem selectPoll_waits (hp : PollsWait t G P poll) (hkeeps : ∀ id l, PollKeeps (P id l) poll)
    {a b : Fut L F K} (h : G ((Fut.select2 id a b).boxes t + C) w) :
    Eff.wp (selectPoll poll id a b t out) (NodeWaits P) (fun _ => True) w := by
  have h : G (a.boxes t + (⟨t, id, none⟩ ::ₘ (b.boxes t + C))) w := by
    simpa [Fut.boxes, add_assoc] using h
  apply Eff.wp_seq (child_waits hb hp h)
  intro ra w' h'
  obtain ⟨hboxes, hwaitsA⟩ := h'
  rw [front_swap] at hboxes
  obtain ⟨_ | _, a'⟩ := ra
  · have hkeep := waits_keep (fun id l => hkeeps id l b t out) (hwaitsA rfl)
    refine Eff.wp_seq (Eff.wp_mono (Eff.wp_and (hp b out _ w' hboxes) hkeep)
      (fun _ _ h => h) fun _ _ => trivial) ?_
    intro rb w'' h'' hst
    obtain ⟨hwaitsB, hwaitsA⟩ := h''
    exact ⟨List.append_ne_nil_of_left_ne_nil hwaitsA.some _,
      List.forall_mem_append.mpr ⟨hwaitsA.all, (hwaitsB hst).all⟩⟩
  · exact nodeWaits_ready

omit hkept in
theorem smPoll_waits (hp : PollsWait t G P poll) {states : List K} {n state : Nat} {cur : Fut L F K}
    {curOut : Option Nat} {curNext : Nat} {haveCur : Bool}
    (h : G (⟨t, id, none⟩ ::ₘ (owned haveCur (cur.boxes t) + C)) w) :
    Eff.wp (smPoll site.toEnv poll id states t n state cur curOut curNext haveCur) (NodeWaits P)
      (fun _ => True) w := by
  induction n generalizing state cur curOut curNext haveCur w with
  | zero => trivial
  | succ n ih =>
      unfold smPoll
      split
      · exact nodeWaits_ready
      next k _ =>
        rw [← Multiset.add_cons] at h
        apply Eff.wp_seq_total (enterState_boxes hG k h)
        intro r w' h'
        obtain ⟨cur', curOut', curNext'⟩ := r
        dsimp only at h' ⊢
        by_cases hnull : cur'.isNull = true
        · -- a null child has no box, and the next state is entered
          rw [if_pos hnull]
          have hzero : cur'.boxes t = 0 := by cases cur' <;> first | rfl | exact absurd hnull nofun
          apply ih
          simpa [owned, hzero] using h'
        · rw [if_neg hnull]
          apply Eff.wp_seq (child_waits hb hp h')
          intro r w'' h''
          obtain ⟨hboxes, hwaits⟩ := h''
          obtain ⟨_ | _, cur''⟩ := r
          · exact fun _ => ⟨(hwaits rfl).some, (hwaits rfl).all⟩
          · apply Eff.wp_seq_total (drop_boxes hG.toHandRules cur'' hboxes)
            intro _ w₃ h₃
            apply ih
            simpa [owned] using h₃

/-- One case for each vtable. -/
theorem nodePoll_waits (hp : PollsWait t G P poll) (hkeeps : ∀ id l, PollKeeps (P id l) poll)
    (hanswered : ∀ C w id l out, G (⟨t, id, some l⟩ ::ₘ C) w →
      (site.leafPoll id l t out w.mem).1.1 = false →
      P id (site.leafPoll id l t out w.mem).1.2 (site.leafPoll id l t out w.mem).2)
    (n : Nat) {f : Fut L F K} (h : G (f.boxes t + C) w) :
    Eff.wp (nodePoll site.toEnv poll n f t out) (NodeWaits P) (fun _ => True) w := by
  cases f with
  | null => trivial
  | leaf id l =>
      rw [Fut.boxes, Multiset.cons_add, zero_add] at h
      rw [nodePoll, Eff.wp_bind, wp_onMem]
      refine fun hst => ⟨List.cons_ne_nil _ _, ?_⟩
      intro x hx
      obtain rfl := List.mem_singleton.mp hx
      exact hanswered C w id l out h hst
  | map id inner fn => exact mapPoll_waits hp h
  | then_ id a b stage => exact thenPoll_waits hG hb hp h
  | join2 id a b aSize aDone bDone => exact joinPoll_waits hG hb hkept hp hkeeps h
  | select2 id a b => exact selectPoll_waits hb hp hkeeps h
  | sm id states state cur curOut curNext haveCur =>
      apply smPoll_waits hG hb hp
      rwa [Fut.boxes, Multiset.cons_add] at h

end Polls

/-! ## The rules of a site

What the code around the combinators has to keep so that a task that waits is woken in time. The
relation `P` is left open; for the I/O driver it says that the driver has the task's waker.
-/

structure WaitRules (site : Site L F K R σ) (New : L → Prop)
    (G : List TaskId → Multiset (Box L) → World σ → Prop) (P : TaskId → Nat → L → σ → Prop) :
    Prop extends LiveRules site New G where
  answered  : ∀ {live C w t id l out}, t ∈ live → G live (⟨t, id, some l⟩ ::ₘ C) w →
    (site.leafPoll id l t out w.mem).1.1 = false →
    P t id (site.leafPoll id l t out w.mem).1.2 (site.leafPoll id l t out w.mem).2
  kept      : ∀ t id l, Env.Keeps site.toEnv (P t id l)
  trapped   : ∀ {t id l m}, P t id l m → P t id l (site.trap m)
  called    : ∀ {t id l m} r, P t id l m → P t id l (site.call r m)
  parked    : ∀ {live C w t id l}, G live C w → P t id l w.mem → P t id l (site.hook w.mem).2
  /-- Until the task is woken. -/
  delivered : ∀ {t id l m}, P t id l m → t ∉ (site.wakes m).1 → P t id l (site.wakes m).2

section Rules

variable {site : Site L F K R σ} {New : L → Prop}
  {G : List TaskId → Multiset (Box L) → World σ → Prop} {P : TaskId → Nat → L → σ → Prop}
  (hW : WaitRules site New G P)
include hW

theorem WaitRules.poll_keeps (t : TaskId) (id : Nat) (l : L) (n : Nat) :
    PollKeeps (P t id l) (site.poll n) := by
  induction n with
  | zero => exact fun _ _ _ => Eff.keeps_stuck
  | succ n ih =>
      intro f wk out
      unfold Site.poll
      split
      · apply (keepsMem_onMem fun m => hW.trapped).bind
        exact fun _ => Eff.keeps_stuck
      · apply (keepsMem_note _).bind
        intro _
        apply ((hW.kept t id l).nodePoll ih n f wk out).bind
        intro r
        exact KeepsMem.bind (keepsMem_note _).when fun _ => keepsMem_pure _

/-- **A task that is `Pending` waits for leaves in `P`.** The induction is on the depth of the calls. -/
theorem WaitRules.poll_waits {live : List TaskId} {t : TaskId} (ht : t ∈ live) (n : Nat) :
    PollsWait t (G live) (P t) (site.poll n) := by
  induction n with
  | zero => exact fun f out C w h => trivial
  | succ n ih =>
      intro f out C w h
      unfold Site.poll
      split
      · exact Eff.wp_seq Eff.wp_trivial fun _ _ _ => trivial
      next id hid =>
        rw [Eff.wp_bind, wp_note]
        have hboxes := hW.boxes ht
        apply Eff.wp_seq (nodePoll_waits hboxes (poll_boxes hboxes n) (hW.kept t) ih
          (fun id l => hW.poll_keeps t id l n) (fun _ _ _ _ _ => hW.answered ht) n
          (hboxes.used _ w id h))
        intro r w' h'
        obtain ⟨_ | _, f'⟩ := r
        · exact h'
        · exact Eff.wp_seq Eff.wp_trivial fun _ _ _ => nodeWaits_ready

end Rules

/-! ## Tasks that the executor attends to

A task that is queued or at hand need not wait for anything, since it will be polled or is gone soon.
-/

/-- The task that is polled or dropped. -/
def Pc.atHand : Pc → Option TaskId
  | .polling _ t | .dropping _ t                => some t
  | .idle | .drive _ | .parked _ | .crashed     => none

def Sched.Attended (v : Sched) (t : TaskId) : Prop := t ∈ v.queue ∨ v.pc.atHand = some t

def Sys.Attended (s : Sys) (t : TaskId) : Prop := s.Queued t ∨ s.pc.atHand = some t

/-- A live task is attended to after a step, unless it was live and not attended to before, or has just
    answered `Pending`. -/
theorem Sched.Step.attended {v v' : Sched} {a : Act} (hs : Step v a v') {t : TaskId}
    (ht : (v'.jobs t).isSome) : v'.Attended t ∨
      (v.jobs t).isSome ∧ t ∉ v.queue ∧ (v.pc.atHand = some t → a = .answerPending) := by
  unfold Sched.Attended
  cases hs with
  | setPark b hpc => grind [Pc.atHand]
  | run hpc => grind [Pc.atHand]
  | spawn hpc =>
      simp only [Sched.push] at ht ⊢
      grind
  | spawn_fails hpc => grind
  | blockOn hpc =>
      simp only [Sched.push, Sched.openFrame] at ht ⊢
      grind [Pc.atHand]
  | blockOn_fails hpc => grind [Sched.openFrame, Pc.atHand]
  | wake hpc hjob => grind [mem_enqueue]
  | poll hpc hq hjob => grind [Pc.atHand]
  | crash hpc hq hjob => grind [Pc.atHand]
  | stop hpc hq hwhy => grind [Sched.stop, Pc.atHand]
  | park hpc hq hlive hpark => grind [Pc.atHand]
  | pended hpc => grind [Pc.atHand]
  | ready hpc hjob => grind [Pc.atHand]
  | freed hpc => grind [Pc.atHand]
  | resumed hpc => grind [Pc.atHand]
  | stalled hpc => grind [Sched.stop, Pc.atHand]

/-- The same of the executor. -/
theorem Sys.Tidied.attended {s s' : Sys} {live : List TaskId} (h : s.Tidied live) {a : Act}
    (hs : Exec.step s a = some s') {t : TaskId} (ht : (s'.ex.tasks t).isSome) : s'.Attended t ∨
      (s.ex.tasks t).isSome ∧ ¬ s.Queued t ∧ (s.pc.atHand = some t → a = .answerPending) := by
  obtain ⟨v, hsim, hok, htidy, -⟩ := h.sched
  obtain ⟨v', hstep, hsim'⟩ := sim_step hsim hok hs
  have hjob' : (v'.jobs t).isSome := by
    rw [← hsim'.jobs, Option.isSome_map]
    exact ht
  rcases hstep.attended hjob' with (hmem | hhand) | ⟨hjob, hmem, hhand⟩
  · exact .inl (.inl (Sys.queued_of_mem hsim' hmem hjob'))
  · exact .inl (.inr (hsim'.pc ▸ hhand))
  · refine .inr ⟨?_, fun hq => hmem (Sys.mem_of_queued hsim hq), hsim.pc ▸ hhand⟩
    rwa [← hsim.jobs, Option.isSome_map] at hjob

/-- After wakes were delivered, every live task is attended to that was woken, or was attended to
    before. -/
theorem Host.Delivered.attended {site : Site L F K R σ} {h h' : Host L F K σ} {as : List Act}
    (hd : Host.Delivered site h as h') {live live' : List TaskId} (hsys : h.sys.Tidied live)
    (hsys' : h'.sys.Tidied live') (hwoken : ∀ t ∈ site.pendingWakes h.world, t ∈ live)
    (hout : h.sys.pc.outside = true) (hpc : ∀ c t, h.sys.pc ≠ .dropping c t) (has : as.length ≤ 1) :
    h'.futs = h.futs ∧ h'.world = { h.world with mem := (site.wakes h.world.mem).2 } ∧
      ∀ t, h'.Live t → h'.sys.Attended t ∨ h.Live t ∧ t ∉ (site.wakes h.world.mem).1 ∧
        ¬ h.sys.Queued t ∧ (h.sys.pc.atHand = some t → as = [.answerPending]) := by
  cases hd with
  | lost => exact absurd rfl hsys'.not_crashed
  | @done woken mem sys hwakes hrun =>
      rw [Site.pendingWakes, hwakes] at hwoken
      rw [hwakes]
      refine ⟨rfl, rfl, fun t ht => ?_⟩
      obtain ⟨s₁, hs₁, hpc₁, h₁⟩ := hsys.wakes hout hpc hwoken
      obtain ⟨hqueued, hkeep⟩ := hsys.wakes_queued hout hpc hwoken hs₁
      rw [run_append, hs₁] at hrun
      have hrest : (s₁.ex.tasks t).isSome → ¬ s₁.Queued t → h.Live t ∧ t ∉ woken ∧
          ¬ h.sys.Queued t := fun hlive hno =>
        ⟨(hsys.isSome_iff t).mpr ((h₁.isSome_iff t).mp hlive), fun hmem => hno (hqueued t hmem),
          fun hq => hno (hkeep t hq)⟩
      rcases as with _ | ⟨a, _ | ⟨b, as⟩⟩
      · cases hrun
        by_cases hatt : sys.Attended t
        · exact .inl hatt
        · obtain ⟨hno, hhand⟩ := not_or.mp hatt
          obtain ⟨hlive, hmem, hq⟩ := hrest ht hno
          exact .inr ⟨hlive, hmem, hq, fun hh => absurd (hpc₁ ▸ hh) hhand⟩
      · have hrun : Exec.step s₁ a = some sys := by simpa using hrun
        rcases h₁.attended hrun ht with hatt | ⟨hlive, hno, hhand⟩
        · exact .inl hatt
        · obtain ⟨hlive, hmem, hq⟩ := hrest hlive hno
          exact .inr ⟨hlive, hmem, hq, fun hh => by rw [hhand (hpc₁ ▸ hh)]⟩
      · simp at has

/-! ## Runs

Every live task is attended to or waits. The invariant needs that of the boxes
(`CustLib.Execution.LiveTasks`), since a leaf that is waited for is one that is allocated.
-/

/-- Every live task is attended to, or waits for leaves in `P` only. -/
def Host.Attends (P : TaskId → Nat → L → σ → Prop) (h : Host L F K σ) : Prop :=
  ∀ t, h.Live t → h.sys.Attended t ∨ (h.futs t).WaitsFor fun id l => P t id l h.world.mem

section Keeps

variable {env : Env L F K σ} {J : σ → Prop}

theorem Env.Keeps.construct (h : env.Keeps J) (e : Expr L F K) : KeepsMem J (construct env e) := by
  have hpair : ∀ (box : Nat → Fut L F K → Fut L F K → Fut L F K) (a b : Fut L F K),
      KeepsMem J (pairIn env box a b) := fun box a b =>
    keepsMem_box ((h.drop a).bind fun _ => (h.drop b).bind fun _ => keepsMem_pure _)
  induction e with
  | null => exact keepsMem_pure _
  | leaf l => exact keepsMem_box (keepsMem_pure _)
  | map inner fn ih =>
      exact ih.bind fun f => keepsMem_box ((h.drop f).bind fun _ => keepsMem_pure _)
  | then_ a b iha ihb | join2 a size b iha ihb | select2 a b iha ihb =>
      exact iha.bind fun fa => ihb.bind fun fb => hpair _ fa fb
  | sm states start => exact keepsMem_box (keepsMem_pure _)

/-- What is handed over, or refused, too. -/
theorem Env.Keeps.handOver (h : env.Keeps J) (e : Expr L F K) : KeepsMem J (handOver env e) := by
  apply (h.construct e).bind
  intro f
  apply KeepsMem.bind
  · apply KeepsMem.bind
    · exact Eff.keeps_move fun _ hw => ⟨trivial, hw⟩
    · intro granted
      cases granted with
      | true => exact keepsMem_pure _
      | false => exact (h.drop f).bind fun _ => keepsMem_pure _
  · exact fun _ => keepsMem_pure _

end Keeps

/-- What a program that keeps `P` has returned. -/
theorem waits_of_run {P : TaskId → Nat → L → σ → Prop} {α : Type} {x : Eff (World σ) α} {t : TaskId}
    (hx : ∀ id l, KeepsMem (P t id l) x) {w w' : World σ} {a : α} (hrun : x w = (some a, w'))
    {f : Fut L F K} (h : f.WaitsFor fun id l => P t id l w.mem) :
    f.WaitsFor fun id l => P t id l w'.mem := by
  have hkeep := waits_keep hx h
  rw [Eff.wp, hrun] at hkeep
  exact hkeep

section Steps

variable {site : Site L F K R σ} {New : L → Prop}
  {G : List TaskId → Multiset (Box L) → World σ → Prop} {P : TaskId → Nat → L → σ → Prop}
  {h h' : Host L F K σ} {live : List TaskId}
  (hW : WaitRules site New G P)
include hW

/-- A future is handed over. -/
theorem Host.Attends.offered (ha : h.Attends P) (hk : h.Keeps site G live) {e : Expr L F K}
    {f : Fut L F K} {granted : Bool} {world : World σ} {sys : Sys} {a : Act}
    (hrun : handOver site.toEnv e h.world = (some (f, granted), world))
    (hs : Exec.step h.sys a = some sys) (hpended : a ≠ .answerPending) : Host.Attends P
      ⟨sys, if granted then Function.update h.futs h.sys.nextTask f else h.futs, world⟩ := by
  intro t ht
  refine (hk.sys.attended hs ht).imp id fun hold => ?_
  obtain ⟨hlive, hq, hhand⟩ := hold
  have hno : ¬ h.sys.Attended t := not_or.mpr ⟨hq, fun hh => hpended (hhand hh)⟩
  have hwaits := waits_of_run (fun id l => (hW.kept t id l).handOver e) hrun
    ((ha t hlive).resolve_left hno)
  have hne : t ≠ h.sys.nextTask := fun heq =>
    hk.sys.next_notMem (heq ▸ (hk.sys.isSome_iff t).mp hlive)
  cases granted with
  | false => exact hwaits
  | true =>
      show (Function.update h.futs h.sys.nextTask f t).WaitsFor _
      rwa [Function.update_of_ne hne]

/-- Wakes are delivered after the memory has changed, and the tree of the task at hand perhaps. -/
theorem Host.Attends.delivered {as : List Act} (hd : Host.Delivered site h as h')
    {live' : List TaskId} (hsys : h.sys.Tidied live) (hsys' : h'.sys.Tidied live')
    (hwoken : ∀ t ∈ site.pendingWakes h.world, t ∈ live)
    (hpc : h.sys.pc = .idle ∨ (∃ c t, h.sys.pc = .polling c t) ∨ ∃ c, h.sys.pc = .parked c)
    (has : as.length ≤ 1)
    (hwaits : ∀ t, h.Live t → ¬ h.sys.Queued t →
      (h.sys.pc.atHand = some t → as = [.answerPending]) →
      (h.futs t).WaitsFor fun id l => P t id l h.world.mem) : h'.Attends P := by
  have hout : h.sys.pc.outside = true := by
    rcases hpc with hpc | ⟨c, t, hpc⟩ | ⟨c, hpc⟩ <;> rw [hpc] <;> rfl
  have hdrop : ∀ c t, h.sys.pc ≠ .dropping c t := by
    rcases hpc with hpc | ⟨c, t, hpc⟩ | ⟨c, hpc⟩ <;> rw [hpc] <;> exact nofun
  obtain ⟨hfuts, hworld, hattended⟩ := hd.attended hsys hsys' hwoken hout hdrop has
  intro t ht
  refine (hattended t ht).imp id fun hold => ?_
  obtain ⟨hlive, hmem, hq, hhand⟩ := hold
  rw [hfuts, hworld]
  exact (hwaits t hlive hq hhand).mono fun x _ hx => hW.delivered hx hmem

/-- The poll of the task at hand. -/
theorem Host.Attends.polled (ha : h.Attends P) (hk : h.Keeps site G live) {live' : List TaskId}
    {n : Nat} {c : Caller} {u : TaskId} {st : Bool} {f : Fut L F K} {world : World σ}
    (hpc : h.sys.pc = .polling c u)
    (hpoll : site.poll n (h.futs u) u ((h.sys.ex.tasks u).bind Task.out) h.world =
      (some (st, f), world))
    (hd : Host.Delivered site { h with world, futs := Function.update h.futs u f }
      [if st then .answerReady else .answerPending] h')
    (hk' : h'.Keeps site G live') : h'.Attends P := by
  have hu := hk.sys.polled_mem hpc
  have hboxes := hk.poll hW.toLiveRules hpc n ((h.sys.ex.tasks u).bind Task.out)
  rw [Eff.wp, hpoll] at hboxes
  have hstart := hk.boxes
  rw [liveBoxes, ← bind_erase _ hu] at hstart
  have hpost := hW.poll_waits hu n (h.futs u) ((h.sys.ex.tasks u).bind Task.out) _ h.world hstart
  rw [Eff.wp, hpoll] at hpost
  refine Host.Attends.delivered hW hd hk.sys hk'.sys (hW.woken hboxes) (.inr (.inl ⟨c, u, hpc⟩))
    (Nat.le_refl 1) ?_
  intro t hlive hq hhand
  by_cases htu : t = u
  · subst htu
    have hst : st = false := by
      have hans := hhand (by rw [hpc]; rfl)
      cases st
      · rfl
      · cases hans
    show (Function.update h.futs t f t).WaitsFor _
    rw [Function.update_self]
    exact hpost hst
  · have hno : ¬ h.sys.Attended t := by
      refine not_or.mpr ⟨hq, fun hh => htu ?_⟩
      rw [hpc] at hh
      exact (Option.some.inj hh).symm
    show (Function.update h.futs u f t).WaitsFor _
    rw [Function.update_of_ne htu]
    exact waits_of_run (fun id l => hW.poll_keeps t id l n _ _ _) hpoll
      ((ha t hlive).resolve_left hno)

/-- Every move leaves each task attended to, or waiting. -/
theorem Host.Attends.step (ha : h.Attends P) (hk : h.Keeps site G live) {live' : List TaskId}
    {m : Move L F K R} (hs : h.step site m = some h') (hk' : h'.Keeps site G live') :
    h'.Attends P := by
  -- a step of the executor alone
  have hacted : ∀ {a sys}, Exec.step h.sys a = some sys → a ≠ .answerPending →
      Host.Attends P { h with sys } := by
    intro a sys hs hpended t ht
    refine (hk.sys.attended hs ht).imp id fun hold => ?_
    obtain ⟨hlive, hq, hhand⟩ := hold
    exact (ha t hlive).resolve_left (not_or.mpr ⟨hq, fun hh => hpended (hhand hh)⟩)
  have hold : ∀ as : List Act, as ≠ [.answerPending] → ∀ t, h.Live t → ¬ h.sys.Queued t →
      (h.sys.pc.atHand = some t → as = [.answerPending]) →
      (h.futs t).WaitsFor fun id l => P t id l h.world.mem := fun _ has t hlive hq hhand =>
    (ha t hlive).resolve_left (not_or.mpr ⟨hq, fun hh => has (hhand hh)⟩)
  cases Host.stepped hs with
  | spawned hrun hsys => exact ha.offered hW hk hrun hsys (by simp)
  | blocked hrun hsys => exact ha.offered hW hk hrun hsys (by simp)
  | ran hsys => exact hacted hsys (by simp)
  | drove hsys => exact hacted hsys (by simp)
  | @stuck n c t world hpc hpoll => exact absurd rfl hk'.sys.not_crashed
  | polled hpc hpoll hd => exact ha.polled hW hk hpc hpoll hd hk'
  | @dropped c u world sys hpc hdrop hsys =>
      intro t ht
      refine (hacted hsys (by simp) t ht).imp id fun hwaits => ?_
      exact waits_of_run (fun id l => (hW.kept t id l).drop _) hdrop hwaits
  | @parked c progress mem h' hpc hhook hd =>
      have hpark := hW.hook hk.boxes
      rw [hhook] at hpark
      refine Host.Attends.delivered hW hd hk.sys hk'.sys (hW.woken hpark) (.inr (.inr ⟨c, hpc⟩))
        (Nat.le_refl 1) ?_
      intro t hlive hq hhand
      refine (hold [.parkReturns progress] (by simp) t hlive hq hhand).mono fun x _ hx => ?_
      have hx' := hW.parked hk.boxes hx
      rwa [hhook] at hx'
  | @called r h' hpc hd =>
      refine Host.Attends.delivered hW hd hk.sys hk'.sys (hW.woken (hW.call r hk.boxes)) hpc
        (Nat.zero_le 1) ?_
      intro t hlive hq hhand
      exact (hold [] (List.cons_ne_nil _ _).symm t hlive hq hhand).mono fun x _ hx => hW.called r hx

/-- **Run lemma.** Between two moves every live task is attended to, or waits for leaves in `P` only. -/
theorem attended_run {park : Bool} {mem : σ} (hinit : G [] 0 (World.start mem))
    (hquiet : site.pendingWakes (World.start mem) = []) {moves : List (Move L F K R)}
    (hmoves : ∀ m ∈ moves, m.Starts New)
    (hrun : Machine.run (Host.step site) (Host.init park mem) moves = some h) :
    h.sys.pc = .crashed ∨ ∃ live, h.Keeps site G live ∧ h.Attends P := by
  induction moves using List.reverseRecOn generalizing h with
  | nil =>
      cases hrun
      exact .inr ⟨[], ⟨.init park, hinit, hquiet⟩, fun t ht => by cases ht⟩
  | append_singleton pre m ih =>
      rcases live_run hW.toLiveRules hinit hquiet hmoves hrun with ⟨live', hk'⟩ |
        ⟨_, n, h₀, _, -, -, -, hcut⟩
      · obtain ⟨hpre, -⟩ := List.forall_mem_append.mp hmoves
        obtain ⟨h₀, hrun₀, hstep⟩ := run_concat_iff.mp hrun
        rcases ih hpre hrun₀ with hcrash | ⟨live, hk, ha⟩
        · -- nothing comes after a crash
          rcases live_run hW.toLiveRules hinit hquiet hpre hrun₀ with ⟨live, hk⟩ |
            ⟨_, n, h₁, _, -, -, -, hcut⟩
          · exact absurd hcrash hk.sys.not_crashed
          · rw [hcut.last] at hstep
            cases hstep
        · exact .inr ⟨live', hk', ha.step hW hk hstep hk'⟩
      · obtain ⟨c, t, world, -, -, rfl⟩ := hcut
        exact .inl rfl

end Steps

end CustLib.Exec
