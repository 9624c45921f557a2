import CustLib.Execution.Outputs

/-!
# What trees without `select2` compute

A tree of `map`, `then` and `join2` has a meaning: the bytes it leaves in its output. `OutTree` is
such a tree with the bookkeeping of the boxes left out, and `denote` its meaning; when the leaves
answer is not part of it. `Computes f t` says that the boxes of `f` are fresh and make up the tree
`t`, as they do when the constructors have built them (`build_computes`).

A tree that is polled writes its output piece by piece. `Partway` says which pieces are there: those
of the children that a `join2` has latched. A poll keeps it, and a `Ready` poll completes the output
(`futurePoll_completes`); the accesses stay in the place that the tree was given.
-/

namespace CustLib.Exec

open CustLib.Overwrite

/-! ## Trees and their meaning

The output of a tree without `select2` does not depend on the schedule. `denote` computes it from the
values of the leaves; sizes and offsets are those that the boxes have.
-/

inductive OutTree where
  | leaf (key size : Nat)
  | map (t : OutTree) (fn : Option Nat)
  | then_ (s t : OutTree)
  | join2 (s t : OutTree)
  deriving DecidableEq, Repr

namespace OutTree

def size : OutTree → Nat
  | leaf _ n  => n
  | map t _   => t.size
  | then_ _ t => t.size
  | join2 s t => s.size + t.size

def denote (v : Values) : OutTree → List UInt8
  | leaf key n     => (List.range n).map (v.bytes key)
  | map t (some k) => (List.range t.size).map (v.fn k (t.denote v))
  | map t none     => t.denote v
  | then_ _ t      => t.denote v
  | join2 s t      => s.denote v ++ t.denote v

@[simp] theorem denote_length (v : Values) (t : OutTree) : (t.denote v).length = t.size := by
  induction t with
  | leaf key n => simp [denote, size]
  | map t fn ih => cases fn <;> simp [denote, size, ih]
  | then_ s t _ iht => exact iht
  | join2 s t ihs iht => rw [denote, List.length_append, ihs, iht, size]

end OutTree

/-- The future is fresh, and its boxes make up this tree: a function fits the output that it
    rewrites, and `a_size` is the size of the first output. -/
inductive Computes : OutFut → OutTree → Prop
  | leaf (id : Nat) (l : OutLeaf) : Computes (.leaf id l) (.leaf l.key l.size)
  | map {inner : OutFut} {t : OutTree} {fn : Option OutFn} (id : Nat) (hinner : Computes inner t)
      (hfn : ∀ f ∈ fn, f.size = t.size) : Computes (.map id inner fn) (.map t (fn.map OutFn.key))
  | then_ {a b : OutFut} {s t : OutTree} (id : Nat) (ha : Computes a s) (hb : Computes b t) :
      Computes (.then_ id a b 0) (.then_ s t)
  | join2 {a b : OutFut} {s t : OutTree} (id : Nat) (ha : Computes a s) (hb : Computes b t) :
      Computes (.join2 id a b s.size false false) (.join2 s t)

theorem Computes.plain {f : OutFut} {t : OutTree} (h : Computes f t) : f.Plain := by
  induction h with
  | leaf id l => trivial
  | map id hinner hfn ih => exact ih
  | then_ id ha hb iha ihb => exact ⟨iha, ihb⟩
  | join2 id ha hb iha ihb => exact ⟨iha, ihb⟩

/-! ## Trees that a program builds

The constructors build a tree that computes what its expression means, when the parts fit together.
-/

/-- The tree of an expression without `select2`, if its parts fit. -/
def Expr.tree : Expr OutLeaf OutFn Empty → Option OutTree
  | .leaf l => some (.leaf l.key l.size)
  | .map inner fn => do
    let t ← inner.tree
    if ∀ f ∈ fn, f.size = t.size then some (.map t (fn.map OutFn.key)) else none
  | .then_ a b => do return .then_ (← a.tree) (← b.tree)
  | .join2 a aSize b => do
    let s ← a.tree
    let t ← b.tree
    if aSize = s.size then some (.join2 s t) else none
  | .null | .select2 .. | .sm .. => none

/-- The constructors build it, when they get their boxes. -/
theorem build_computes {σ : Type} (access : Effect → σ → σ) {e : Expr OutLeaf OutFn Empty}
    {t : OutTree} (h : e.tree = some t) (w : World σ) :
    Eff.wp (build (outEnv access) e) (fun f _ => Computes f t) (fun _ => False) w := by
  induction e generalizing t w with
  | leaf l =>
      cases h
      exact Computes.leaf w.next l
  | map inner fn ih =>
      obtain ⟨s, hs, h⟩ := Option.bind_eq_some_iff.mp h
      obtain ⟨hfn, h⟩ := Option.ite_none_right_eq_some.mp h
      cases h
      exact Eff.wp_seq (ih hs w) fun f w' hf => Computes.map w'.next hf hfn
  | then_ a b iha ihb =>
      obtain ⟨s, hs, h⟩ := Option.bind_eq_some_iff.mp h
      obtain ⟨t, ht, h⟩ := Option.bind_eq_some_iff.mp h
      cases h
      apply Eff.wp_seq (iha hs w)
      intro fa w' ha
      exact Eff.wp_seq (ihb ht w') fun fb w'' hb => Computes.then_ w''.next ha hb
  | join2 a aSize b iha ihb =>
      obtain ⟨s, hs, h⟩ := Option.bind_eq_some_iff.mp h
      obtain ⟨t, ht, h⟩ := Option.bind_eq_some_iff.mp h
      obtain ⟨hsize, h⟩ := Option.ite_none_right_eq_some.mp h
      cases h
      subst hsize
      apply Eff.wp_seq (iha hs w)
      intro fa w' ha
      exact Eff.wp_seq (ihb ht w') fun fb w'' hb => Computes.join2 w''.next ha hb
  | null => cases h
  | select2 a b iha ihb => cases h
  | sm states start => cases h

/-! ## The output of a tree on its way

Between two polls some children are done: their output is in its place, and they are not polled again.
`Partway` says which, for each kind of node.
-/

/-- The output is there, if there is a place for it. -/
def Yields (v : Values) (m : Memory) (out : Option Nat) (t : OutTree) : Prop :=
  ∀ o ∈ out, extent m o t.size = t.denote v

inductive Partway (v : Values) (m : Memory) : Option Nat → OutFut → OutTree → Prop
  | leaf {out : Option Nat} (id : Nat) (l : OutLeaf) :
      Partway v m out (.leaf id l) (.leaf l.key l.size)
  | map {out : Option Nat} {inner : OutFut} {t : OutTree} {fn : Option OutFn} (id : Nat)
      (hinner : Partway v m out inner t) (hfn : ∀ f ∈ fn, f.size = t.size) :
      Partway v m out (.map id inner fn) (.map t (fn.map OutFn.key))
  | first {out : Option Nat} {a b : OutFut} {s t : OutTree} (id : Nat)
      (ha : Partway v m none a s) (hb : Partway v m out b t) :
      Partway v m out (.then_ id a b 0) (.then_ s t)
  | second {out : Option Nat} {a b : OutFut} {s t : OutTree} (id : Nat)
      (hb : Partway v m out b t) : Partway v m out (.then_ id a b 1) (.then_ s t)
  | join2 {out : Option Nat} {a b : OutFut} {s t : OutTree} {aDone bDone : Bool} (id : Nat)
      (haYields : aDone = true → Yields v m out s)
      (ha : aDone = false → Partway v m out a s)
      (hbYields : bDone = true → Yields v m (out.map (· + s.size)) t)
      (hb : bDone = false → Partway v m (out.map (· + s.size)) b t) :
      Partway v m out (.join2 id a b s.size aDone bDone) (.join2 s t)

/-- After a poll: the output is there, or the future is on its way. -/
def Arrives (v : Values) (m : Memory) (out : Option Nat) (done : Bool) (f : OutFut) (t : OutTree) :
    Prop :=
  (done = true → Yields v m out t) ∧ (done = false → Partway v m out f t)

/-- A fresh tree is on its way, whatever there is in the memory. -/
theorem Computes.partway {f : OutFut} {t : OutTree} (h : Computes f t) (v : Values) (m : Memory)
    (out : Option Nat) : Partway v m out f t := by
  induction h generalizing out with
  | leaf id l => exact .leaf id l
  | map id hinner hfn ih => exact .map id (ih out) hfn
  | then_ id ha hb iha ihb => exact .first id (iha none) (ihb out)
  | join2 id ha hb iha ihb =>
      exact .join2 id nofun (fun _ => iha out) nofun fun _ => ihb _

/-! ## Accesses elsewhere

A child writes inside its own extent, so it cannot spoil what its neighbour in a `join2` has left in the
extent next to it.
-/

/-- From `es` to `es'` a future has made accesses to its `size` bytes of output only. -/
def Wrote (out : Option Nat) (size : Nat) (es es' : List Effect) : Prop :=
  ∃ new, es' = es ++ new ∧ ∀ e ∈ new, ∃ o ∈ out, e.Within o size

namespace Wrote

variable {out : Option Nat} {size : Nat} {es es' es'' : List Effect}

theorem refl (out : Option Nat) (size : Nat) (es : List Effect) : Wrote out size es es :=
  ⟨[], (List.append_nil es).symm, nofun⟩

theorem snoc {o : Nat} {e : Effect} (ho : o ∈ out) (he : e.Within o size) :
    Wrote out size es (es ++ [e]) := by
  refine ⟨[e], rfl, ?_⟩
  intro e' he'
  rw [List.mem_singleton.mp he']
  exact ⟨o, ho, he⟩

theorem trans (h : Wrote out size es es') (h' : Wrote out size es' es'') :
    Wrote out size es es'' := by
  obtain ⟨new, rfl, hnew⟩ := h
  obtain ⟨new', rfl, hnew'⟩ := h'
  refine ⟨new ++ new', List.append_assoc _ _ _, ?_⟩
  intro e he
  rcases List.mem_append.mp he with he | he
  · exact hnew e he
  · exact hnew' e he

/-- Without a place for the output there are no accesses. -/
theorem eq_of_none (h : Wrote none size es es') : es' = es := by
  obtain ⟨new, rfl, hnew⟩ := h
  cases new with
  | nil => exact List.append_nil es
  | cons e new =>
      obtain ⟨o, ho, -⟩ := hnew e List.mem_cons_self
      cases ho

/-- The first output of a `join2` is a part of its output. -/
theorem left (h : Wrote out size es es') (size' : Nat) : Wrote out (size + size') es es' := by
  obtain ⟨new, rfl, hnew⟩ := h
  refine ⟨new, rfl, ?_⟩
  intro e he
  obtain ⟨o, ho, hin⟩ := hnew e he
  exact ⟨o, ho, hin.mono (Nat.le_refl o) (by omega)⟩

/-- So is the second one. -/
theorem right {size' : Nat} (h : Wrote (out.map (· + size)) size' es es') :
    Wrote out (size + size') es es' := by
  obtain ⟨new, rfl, hnew⟩ := h
  refine ⟨new, rfl, ?_⟩
  intro e he
  obtain ⟨o', ho', hin⟩ := hnew e he
  obtain ⟨o, ho, rfl⟩ := Option.mem_map.mp ho'
  exact ⟨o, ho, hin.mono (Nat.le_add_right o size) (by omega)⟩

/-- The bytes outside are as before. -/
theorem outside (h : Wrote out size es es') (v : Values) (m : Memory) {p : Nat}
    (hp : ∀ o ∈ out, p < o ∨ o + size ≤ p) : replay v m es p = replay v m es' p := by
  obtain ⟨new, rfl, hnew⟩ := h
  cases out with
  | none => rw [eq_of_none ⟨new, rfl, hnew⟩]
  | some o =>
      rw [replay_append]
      refine (replay_outside v (hp o rfl) ?_ _).symm
      intro e he
      obtain ⟨o', ho', hin⟩ := hnew e he
      cases ho'
      exact hin

end Wrote

section Frame

variable {v : Values} {m m' : Memory} {out : Option Nat} {f : OutFut} {t : OutTree}

theorem Yields.congr (h : Yields v m out t)
    (hm : ∀ o ∈ out, ∀ p, o ≤ p → p < o + t.size → m p = m' p) : Yields v m' out t := by
  intro o ho
  rw [← h o ho]
  exact (extent_congr (hm o ho)).symm

/-- A future on its way needs the bytes of its own output only. -/
theorem Partway.congr (h : Partway v m out f t)
    (hm : ∀ o ∈ out, ∀ p, o ≤ p → p < o + t.size → m p = m' p) : Partway v m' out f t := by
  induction h with
  | leaf id l => exact .leaf id l
  | map id hinner hfn ih => exact .map id (ih hm) hfn
  | first id ha hb iha ihb => exact .first id (iha nofun) (ihb hm)
  | second id hb ihb => exact .second id (ihb hm)
  | @join2 out a b s t aDone bDone id haYields ha hbYields hb iha ihb =>
      have hleft : ∀ o ∈ out, ∀ p, o ≤ p → p < o + s.size → m p = m' p := by
        intro o ho p hlo hhi
        exact hm o ho p hlo (by rw [OutTree.size]; omega)
      have hright : ∀ o ∈ out.map (· + s.size), ∀ p, o ≤ p → p < o + t.size → m p = m' p := by
        intro o' ho' p hlo hhi
        obtain ⟨o, ho, rfl⟩ := Option.mem_map.mp ho'
        exact hm o ho p (by omega) (by rw [OutTree.size]; omega)
      exact .join2 id (fun hd => (haYields hd).congr hleft) (fun hd => iha hd hleft)
        (fun hd => (hbYields hd).congr hright) fun hd => ihb hd hright

theorem Arrives.congr {done : Bool} (h : Arrives v m out done f t)
    (hm : ∀ o ∈ out, ∀ p, o ≤ p → p < o + t.size → m p = m' p) : Arrives v m' out done f t :=
  ⟨fun hd => (h.1 hd).congr hm, fun hd => (h.2 hd).congr hm⟩

end Frame

/-! ## Polls

A poll takes a future that is on its way to one that is further, or to its output. By induction on the
depth of the calls, with one lemma for each combinator.
-/

section Polls

variable {v : Values} {m : Memory} {poll : Poller OutLeaf OutFn Empty (List Effect)}

/-- What a poll of a future that is on its way does, from `w` to `w'`. -/
def Advanced (v : Values) (m : Memory) (out : Option Nat) (t : OutTree) (w : World (List Effect))
    (r : Bool × OutFut) (w' : World (List Effect)) : Prop :=
  Wrote out t.size w.mem w'.mem ∧ Arrives v (replay v m w'.mem) out r.1 r.2 t

/-- Polls complete the outputs of futures that are on their way. -/
def Completes (v : Values) (m : Memory) (poll : Poller OutLeaf OutFn Empty (List Effect)) : Prop :=
  ∀ {f t out} wk w, Partway v (replay v m w.mem) out f t →
    Eff.wp (poll f wk out) (Advanced v m out t w) (fun _ => True) w

theorem futureDrop_silent (f : OutFut) (w : World (List Effect)) :
    Eff.wp (futureDrop accessEnv f) (fun _ w' => w'.mem = w.mem) (fun _ => True) w := by
  have hkeeps : Eff.Keeps (fun w' : World (List Effect) => w'.mem = w.mem) (futureDrop accessEnv f)
      fun _ => True := futureDrop_keeps (fun _ _ => id) (fun _ _ _ => id) f
  exact Eff.wp_mono (hkeeps w rfl) (fun _ _ h => h.2) fun _ _ => trivial

/-- The function of a `map` turns the output of its child into its own. -/
theorem applyFn_yields {out : Option Nat} {t : OutTree} {fn : Option OutFn}
    (hfn : ∀ f ∈ fn, f.size = t.size) {w : World (List Effect)}
    (h : Yields v (replay v m w.mem) out t) :
    Eff.wp (applyFn accessEnv true fn out)
      (fun _ w' => Wrote out t.size w.mem w'.mem ∧
        Yields v (replay v m w'.mem) out (.map t (fn.map OutFn.key))) (fun _ => True) w := by
  cases fn with
  | none => exact ⟨.refl _ _ _, h⟩
  | some f =>
      cases out with
      | none => exact ⟨.refl _ _ _, nofun⟩
      | some p =>
          have hsize := hfn f rfl
          refine ⟨.snoc rfl ⟨Nat.le_refl p, by rw [hsize]⟩, ?_⟩
          intro o ho
          cases ho
          show extent (replay v m (w.mem ++ [.rewrite f.key p f.size])) p t.size = _
          rw [replay_append, replay, List.foldl_cons, List.foldl_nil, Effect.apply, hsize,
            extent_patch, h p rfl]
          rfl

/-- A leaf writes its bytes when it is `Ready`. -/
theorem leaf_completes {id : Nat} {l : OutLeaf} {out : Option Nat} (wk : TaskId)
    (w : World (List Effect)) (rounds : Nat) :
    Eff.wp (nodePoll accessEnv poll rounds (.leaf id l) wk out)
      (Advanced v m out (.leaf l.key l.size) w) (fun _ => True) w := by
  rw [nodePoll, Eff.wp_bind, wp_onMem]
  show Advanced v m out _ w _ _
  dsimp only [accessEnv, outEnv]
  cases hanswer : l.answers l.polls with
  | false =>
      exact ⟨.refl _ _ _, by simp, fun _ => .leaf id { l with polls := l.polls + 1 }⟩
  | true =>
      cases out with
      | none => exact ⟨.refl _ _ _, fun _ => by simp [Yields], by simp⟩
      | some p =>
          refine ⟨.snoc rfl ⟨Nat.le_refl p, Nat.le_refl _⟩, fun _ => ?_, by simp⟩
          intro o ho
          cases ho
          show extent (replay v m (w.mem ++ [.write l.key p l.size])) p l.size = _
          rw [replay_append, replay, List.foldl_cons, List.foldl_nil, Effect.apply, extent_patch]
          rfl

/-- An arm of `join2`: one that is done is left alone, and so is its output. -/
theorem joinArm_completes (hp : Completes v m poll) {child : OutFut} {t : OutTree} {done : Bool}
    {out : Option Nat} (wk : TaskId) {w : World (List Effect)}
    (h : Arrives v (replay v m w.mem) out done child t) :
    Eff.wp (joinArm accessEnv poll child done wk out) (Advanced v m out t w) (fun _ => True) w := by
  unfold joinArm
  cases done with
  | true => exact ⟨.refl _ _ _, h.1, nofun⟩
  | false =>
      apply Eff.wp_seq (hp wk w (h.2 rfl))
      rintro ⟨st, child'⟩ w' ⟨hwrote, harrives⟩
      refine Eff.wp_seq (P := fun _ w'' => w''.mem = w'.mem) ?_ ?_
      · rw [Eff.wp_when]
        split
        · exact futureDrop_silent child' w'
        · rfl
      · intro _ w'' hw''
        show Advanced v m out t w _ w''
        rw [Advanced, hw'']
        exact ⟨hwrote, harrives⟩

/-- Each arm of `join2` writes in its own place, so the output of the other one stays. -/
theorem joinPoll_completes (hp : Completes v m poll) {a b : OutFut} {s t : OutTree}
    {aDone bDone : Bool} {out : Option Nat} (id : Nat) (wk : TaskId) {w : World (List Effect)}
    (ha : Arrives v (replay v m w.mem) out aDone a s)
    (hb : Arrives v (replay v m w.mem) (out.map (· + s.size)) bDone b t) :
    Eff.wp (joinPoll accessEnv poll id a b s.size aDone bDone wk out)
      (Advanced v m out (.join2 s t) w) (fun _ => True) w := by
  apply Eff.wp_seq (joinArm_completes hp wk ha)
  rintro ⟨aDone', a'⟩ w' ⟨hwroteA, ha'⟩
  -- the place of the second output begins where the first one ends
  have hb' : Arrives v (replay v m w'.mem) (out.map (· + s.size)) bDone b t := by
    apply hb.congr
    intro o' ho' p hlo _
    obtain ⟨o, ho, rfl⟩ := Option.mem_map.mp ho'
    apply hwroteA.outside
    intro o₁ ho₁
    cases ho.symm.trans ho₁
    exact .inr hlo
  apply Eff.wp_seq (joinArm_completes hp wk hb')
  rintro ⟨bDone', b'⟩ w'' ⟨hwroteB, hb''⟩
  have ha'' : Arrives v (replay v m w''.mem) out aDone' a' s := by
    apply ha'.congr
    intro o ho p _ hhi
    apply hwroteB.outside
    intro o' ho'
    obtain ⟨o₁, ho₁, rfl⟩ := Option.mem_map.mp ho'
    cases ho.symm.trans ho₁
    exact .inl hhi
  refine ⟨(hwroteA.left t.size).trans hwroteB.right, ?_, ?_⟩
  · intro hdone o ho
    obtain ⟨hadone, hbdone⟩ := Bool.and_eq_true_iff.mp hdone
    have hfirst := ha''.1 hadone o ho
    have hsecond := hb''.1 hbdone (o + s.size) (Option.mem_map.mpr ⟨o, ho, rfl⟩)
    rw [OutTree.size, OutTree.denote, extent_append, hfirst, hsecond]
  · intro _
    exact .join2 id ha''.1 ha''.2 hb''.1 hb''.2

/-- The second child of `then`, and what was before it. -/
theorem then_second (hp : Completes v m poll) {b : OutFut} {t : OutTree} {out : Option Nat}
    (id : Nat) (a : OutFut) (s : OutTree) (wk : TaskId) {w : World (List Effect)}
    (h : Partway v (replay v m w.mem) out b t) :
    Eff.wp (do
      let (st, b) ← poll b wk out
      return (st, Fut.then_ id a b 1)) (Advanced v m out (.then_ s t) w) (fun _ => True) w := by
  apply Eff.wp_seq (hp wk w h)
  rintro ⟨st, b'⟩ w' ⟨hwrote, harrives⟩
  exact ⟨hwrote, harrives.1, fun hst => .second id (harrives.2 hst)⟩

/-- The polls of all nodes, from those of their children. -/
theorem nodePoll_completes (hp : Completes v m poll) (n : Nat) :
    Completes v m (nodePoll accessEnv poll n) := by
  intro f t out wk w h
  cases h with
  | leaf id l => exact leaf_completes wk w n
  | @map _ inner t fn id hinner hfn =>
      apply Eff.wp_seq (hp wk w hinner)
      rintro ⟨st, inner'⟩ w' ⟨hwrote, harrives⟩
      cases st with
      | false => exact ⟨hwrote, nofun, fun _ => .map id (harrives.2 rfl) hfn⟩
      | true =>
          apply Eff.wp_seq (applyFn_yields hfn (harrives.1 rfl))
          rintro _ w'' ⟨hwrote', hyields⟩
          exact ⟨hwrote.trans hwrote', fun _ => hyields, nofun⟩
  | @first _ a b s t id ha hb =>
      -- without a place for its output the first child makes no accesses
      apply Eff.wp_seq (hp wk w ha)
      rintro ⟨st, a'⟩ w' ⟨hwrote, harrives⟩
      have hmem := hwrote.eq_of_none
      have hb' : Partway v (replay v m w'.mem) out b t := by rwa [hmem]
      cases st with
      | false =>
          refine ⟨?_, nofun, fun _ => .first id (harrives.2 rfl) hb'⟩
          rw [hmem]
          exact .refl _ _ _
      | true =>
          apply Eff.wp_seq (futureDrop_silent a' w')
          intro _ w'' hdrop
          have hsecond := then_second hp id a' s wk (w := w'') (by rwa [hdrop])
          refine Eff.wp_mono hsecond ?_ fun _ _ => trivial
          rintro r w₃ ⟨hwrote', harrives'⟩
          rw [hdrop, hmem] at hwrote'
          exact ⟨hwrote', harrives'⟩
  | @second _ a b s t id hb => exact then_second hp id a s wk hb
  | join2 id haYields ha hbYields hb =>
      exact joinPoll_completes hp id wk ⟨haYields, ha⟩ ⟨hbYields, hb⟩

/-- **A `Ready` poll completes the output**, and every other one brings it nearer. -/
theorem futurePoll_completes (v : Values) (m : Memory) (n : Nat) :
    Completes v m (futurePoll accessEnv n) := by
  induction n with
  | zero => exact fun wk w h => trivial
  | succ n ih =>
      intro f t out wk w h
      unfold futurePoll
      split
      · trivial
      · refine Eff.wp_seq (P := fun _ w' => w'.mem = w.mem) rfl fun _ w' hw' => ?_
        rw [← hw'] at h
        apply Eff.wp_seq (nodePoll_completes ih n wk w' h)
        rintro ⟨st, f'⟩ w'' ⟨hwrote, harrives⟩
        rw [hw'] at hwrote
        cases st <;> exact ⟨hwrote, harrives⟩

end Polls

/-! ## Runs

Drive the future until it is `Ready`, under any schedule: the bytes in its output are those of its
meaning, and it has written nowhere else.
-/

section Runs

variable {v : Values} {m : Memory} {out : Option Nat} {f f' : OutFut} {t : OutTree}

/-- One poll, in terms of its accesses. -/
theorem turn_completes {wk : TaskId} {st : Bool} (h : Partway v m out f t)
    (hturn : (turn wk out f).1 = some (st, f')) :
    (∀ e ∈ (turn wk out f).2, ∃ o ∈ out, e.Within o t.size) ∧
      Arrives v (replay v m (turn wk out f).2) out st f' t := by
  have hpoll := futurePoll_completes v m f.height wk (World.start []) h
  obtain ⟨⟨new, hnew, hin⟩, harrives⟩ := (Eff.wp_iff.mp hpoll).1 (st, f') hturn
  have hmem : (turn wk out f).2 = new := hnew
  refine ⟨?_, harrives⟩
  rwa [hmem]

/-- **All polls until the future is `Ready`.** -/
theorem turns_completes (wk : TaskId) (hf : f.Plain) (h : Partway v m out f t) (k : Nat) :
    (∀ e ∈ (turns wk out f k).1.flatten, ∃ o ∈ out, e.Within o t.size) ∧
      ((turns wk out f k).2 = true →
        Yields v (replay v m (turns wk out f k).1.flatten) out t) := by
  induction k generalizing f m with
  | zero => exact ⟨nofun, nofun⟩
  | succ k ih =>
      obtain ⟨st, f', hturn, hf'⟩ := turn_total wk out hf
      obtain ⟨hin, harrives⟩ := turn_completes h hturn
      cases st with
      | true =>
          rw [turns_ready hturn, List.flatten_singleton]
          exact ⟨hin, fun _ => harrives.1 rfl⟩
      | false =>
          obtain ⟨hin', hyields⟩ := ih hf' (harrives.2 rfl)
          rw [turns_pending hturn, List.flatten_cons, replay_append]
          refine ⟨?_, hyields⟩
          intro e he
          rcases List.mem_append.mp he with he | he
          · exact hin e he
          · exact hin' e he

/-- **The output of a tree without `select2`** is what the tree denotes, whenever its leaves answer: it
    is there when the tree is `Ready`, and no poll until then makes an access outside its place. -/
theorem ready_output_eq_denote (h : Computes f t) (v : Values) (wk : TaskId) (o : Nat) (k : Nat)
    (w : World Memory) :
    (∀ e ∈ (turns wk (some o) f k).1.flatten, e.Within o t.size) ∧
      Eff.wp (driveAlone (byteEnv v) wk (some o) f k)
        (fun r w' => (∀ p, p < o ∨ o + t.size ≤ p → w'.mem p = w.mem p) ∧
          (r.1 = true → extent w'.mem o t.size = t.denote v))
        (fun _ => False) w := by
  have hplain := h.plain
  obtain ⟨hin, hyields⟩ := turns_completes wk hplain (h.partway v w.mem (some o)) k
  have hwithin : ∀ e ∈ (turns wk (some o) f k).1.flatten, e.Within o t.size := by
    intro e he
    obtain ⟨o', ho', he⟩ := hin e he
    cases ho'
    exact he
  refine ⟨hwithin, ?_⟩
  refine Eff.wp_mono (driveAlone_bytes v hplain k w) ?_ fun _ => False.elim
  rintro r w' ⟨hr, hmem⟩
  rw [hmem, hr]
  exact ⟨fun p hp => replay_outside v hp hwithin w.mem, fun hready => hyields hready o rfl⟩

end Runs

/-- A function that turns two bytes round, on a pair whose first half comes late. -/
def turnedPair : OutFut :=
  .map 0
    (.join2 1 (.leaf 2 (byteAt 10 1))
      (.then_ 3 (.leaf 4 (byteAt 11 0)) (.leaf 5 (byteAt 12 0)) 0) 1 false false)
    (some ⟨20, 2⟩)

def turnedTree : OutTree := .map (.join2 (.leaf 10 1) (.then_ (.leaf 11 1) (.leaf 12 1))) (some 20)

/-- Every leaf writes its key, and functions turn their bytes round. -/
def turningValues : Values := ⟨fun k _ => UInt8.ofNat k, fun _ old i => old.reverse.getD i 0⟩

theorem ready_output_eq_denote_turned_pair :
    ((∀ e ∈ (turns 0 (some 4) turnedPair 2).1.flatten, e.Within 4 2) ∧
      Eff.wp (driveAlone (byteEnv turningValues) 0 (some 4) turnedPair 2)
        (fun r w' => (∀ p, p < 4 ∨ 4 + 2 ≤ p → w'.mem p = 0) ∧
          (r.1 = true → extent w'.mem 4 2 = turnedTree.denote turningValues))
        (fun _ => False) (World.start fun _ => 0)) ∧
      (turns 0 (some 4) turnedPair 2).2 = true ∧ turnedTree.denote turningValues = [12, 10] :=
  ⟨ready_output_eq_denote
      (.map 0 (.join2 1 (.leaf 2 _) (.then_ 3 (.leaf 4 _) (.leaf 5 _))) (by decide))
      turningValues 0 4 2 _,
    by decide, by decide⟩

end CustLib.Exec
