import CustLib.Execution.NullFuture
import CustLib.Execution.PollKeeps

/-!
# The state machine when memory is short

A state that awaits nothing returns the null future, and so does a constructor that was refused its
box. `sm_poll` cannot tell the two apart: it goes on to the next state, as if the future had been
awaited.

The state functions call their constructors against an allocator that refuses requests by a
pattern (`Code.env`), and the polls of leaves may ask it for memory too. Where a refused request
leaves the null future further down, inside of a combinator, the poll that reaches it ends the run;
the machine is `Ready` only when none does. So its run is as with an allocator that refuses nothing,
iff the outermost constructor of every future it awaits is served (`as_if_served_iff`).
-/

namespace CustLib.Exec

variable {L F K σ : Type}

/-! ## What refused constructors leave

`prune` is the expression as it is after the refusals: a node whose box was refused is the null future,
and its children are dropped. The drops of these children must leave the memory alone (`DropsFree`).
-/

/-- The null future, as a state function returns it. -/
def Expr.isNull : Expr L F K → Bool
  | .null => true
  | _     => false

def Expr.leaves : Expr L F K → List L
  | .null => []
  | .leaf l => [l]
  | .map inner _ => inner.leaves
  | .then_ a b => a.leaves ++ b.leaves
  | .join2 a _ b => a.leaves ++ b.leaves
  | .select2 a b => a.leaves ++ b.leaves
  | .sm _ _ => []

/-- What the constructors return, when `r` is the number of their first request: one that is refused
    its box drops its children and returns the null future. -/
def Expr.prune (refuses : Nat → Bool) (r : Nat) : Expr L F K → Expr L F K
  | .null => .null
  | .leaf l => if refuses r then .null else .leaf l
  | .map inner fn => if refuses (r + inner.size) then .null else .map (inner.prune refuses r) fn
  | .then_ a b =>
    if refuses (r + a.size + b.size) then .null
    else .then_ (a.prune refuses r) (b.prune refuses (r + a.size))
  | .join2 a size b =>
    if refuses (r + a.size + b.size) then .null
    else .join2 (a.prune refuses r) size (b.prune refuses (r + a.size))
  | .select2 a b =>
    if refuses (r + a.size + b.size) then .null
    else .select2 (a.prune refuses r) (b.prune refuses (r + a.size))
  | .sm states start => if refuses r then .null else .sm states start

/-- The future is what the calls of the constructors return when they get their boxes. -/
inductive Assembled : Expr L F K → Fut L F K → Prop
  | null : Assembled .null .null
  | leaf (id : Nat) (l : L) : Assembled (.leaf l) (.leaf id l)
  | map {e : Expr L F K} {f : Fut L F K} (id : Nat) (fn : Option F) (h : Assembled e f) :
      Assembled (.map e fn) (.map id f fn)
  | then_ {a b : Expr L F K} {fa fb : Fut L F K} (id : Nat) (ha : Assembled a fa)
      (hb : Assembled b fb) : Assembled (.then_ a b) (.then_ id fa fb 0)
  | join2 {a b : Expr L F K} {fa fb : Fut L F K} (id size : Nat) (ha : Assembled a fa)
      (hb : Assembled b fb) : Assembled (.join2 a size b) (.join2 id fa fb size false false)
  | select2 {a b : Expr L F K} {fa fb : Fut L F K} (id : Nat) (ha : Assembled a fa)
      (hb : Assembled b fb) : Assembled (.select2 a b) (.select2 id fa fb)
  | sm (id : Nat) (states : List K) (start : Nat) :
      Assembled (.sm states start) (.sm id states start .null none 0 false)

theorem Assembled.isNull {e : Expr L F K} {f : Fut L F K} (h : Assembled e f) :
    f.isNull = e.isNull := by
  cases h <;> rfl

@[simp] theorem prune_served (r : Nat) (e : Expr L F K) : e.prune (fun _ => false) r = e := by
  induction e generalizing r with
  | null => rfl
  | leaf l => rfl
  | map inner fn ih => simp [Expr.prune, ih]
  | then_ a b iha ihb => simp [Expr.prune, iha, ihb]
  | join2 a size b iha ihb => simp [Expr.prune, iha, ihb]
  | select2 a b iha ihb => simp [Expr.prune, iha, ihb]
  | sm states start => rfl

/-- The request that decides on the whole future is the last one. -/
theorem prune_isNull (refuses : Nat → Bool) (r : Nat) (e : Expr L F K) :
    (e.prune refuses r).isNull = (e.isNull || refuses (r + e.size - 1)) := by
  cases e with
  | null => rfl
  | leaf l =>
      simp only [Expr.prune, Expr.size, Nat.add_sub_cancel]
      cases refuses r <;> rfl
  | map inner fn =>
      simp only [Expr.prune, Expr.size, ← Nat.add_assoc, Nat.add_sub_cancel]
      cases refuses (r + inner.size) <;> rfl
  | then_ a b | join2 a _ b | select2 a b =>
      simp only [Expr.prune, Expr.size, ← Nat.add_assoc, Nat.add_sub_cancel]
      cases refuses (r + a.size + b.size) <;> rfl
  | sm states start =>
      simp only [Expr.prune, Expr.size, Nat.add_sub_cancel]
      cases refuses r <;> rfl

/-- The drops of its leaves leave the memory alone. -/
def DropsFree (env : Env L F K σ) (e : Expr L F K) : Prop :=
  ∀ l ∈ e.leaves, ∀ id m, env.leafDrop id l m = m

/-- A future whose drop leaves the memory alone. -/
def Idle (env : Env L F K σ) (f : Fut L F K) : Prop :=
  ∀ w, Eff.wp (futureDrop env f) (fun _ w' => w'.mem = w.mem) (fun _ => False) w

theorem mem_leaves_of_prune {refuses : Nat → Bool} {r : Nat} {e : Expr L F K} {l : L}
    (h : l ∈ (e.prune refuses r).leaves) : l ∈ e.leaves := by
  induction e generalizing r with
  | null => exact h
  | leaf l' =>
      rw [Expr.prune] at h
      split at h
      · cases h
      · exact h
  | map inner fn ih =>
      rw [Expr.prune] at h
      split at h
      · cases h
      · exact ih h
  | then_ a b iha ihb | join2 a size b iha ihb | select2 a b iha ihb =>
      rw [Expr.prune] at h
      split at h
      · cases h
      · exact List.mem_append.mpr ((List.mem_append.mp h).imp iha ihb)
  | sm states start =>
      rw [Expr.prune] at h
      split at h
      · cases h
      · exact h

theorem DropsFree.prune {env : Env L F K σ} {e : Expr L F K} (h : DropsFree env e)
    (refuses : Nat → Bool) (r : Nat) : DropsFree env (e.prune refuses r) :=
  fun l hl => h l (mem_leaves_of_prune hl)

section Drops

variable {env : Env L F K σ}

theorem idle_null : Idle env (.null : Fut L F K) := fun _ => rfl

/-- A future that was not polled yet is idle, if its leaves are. -/
theorem Assembled.idle {e : Expr L F K} {f : Fut L F K} (h : Assembled e f) (he : DropsFree env e) :
    Idle env f := by
  induction h with
  | null => exact idle_null
  | leaf id l => exact fun w => he l (List.mem_singleton.mpr rfl) id w.mem
  | map id fn h ih => exact fun w => ih he _
  | then_ id ha hb iha ihb | join2 id size ha hb iha ihb | select2 id ha hb iha ihb =>
      obtain ⟨hea, heb⟩ := List.forall_mem_append.mp he
      intro w
      -- no child is marked as dropped yet, so both are dropped
      rw [futureDrop, Eff.wp_bind, wp_note]
      apply Eff.wp_seq (iha hea _)
      intro _ w' hw'
      exact Eff.wp_mono (ihb heb w') (fun _ w'' hw'' => hw''.trans hw') fun _ h => h
  | sm id states start => exact fun w => rfl

/-- The program builds `e`, asks for `n` boxes, and does nothing else to the memory. -/
def Gives (e : Expr L F K) (n : Nat) (x : Eff (World σ) (Fut L F K)) (w : World σ) : Prop :=
  Eff.wp x (fun f w' => Assembled e f ∧ w'.mem = w.mem ∧ w'.requests = w.requests + n)
    (fun _ => False) w

theorem gives_nothing (w : World σ) : Gives (.null : Expr L F K) 0 (pure .null) w :=
  ⟨.null, rfl, rfl⟩

/-- A box is asked for; without it nothing is left of the future. -/
theorem gives_box (env : Env L F K σ) {box : Nat → Fut L F K}
    {other : Eff (World σ) (Fut L F K)} {e : Expr L F K} (hbox : ∀ id, Assembled e (box id))
    (hother : ∀ w, Gives .null 0 other w) (w : World σ) :
    Gives (if env.refuses w.requests then .null else e) 1
      (do if ← request env then return box (← birth) else other) w := by
  rw [Gives, Eff.wp_bind, request, Eff.wp_move]
  cases env.refuses w.requests with
  | false => exact ⟨hbox _, rfl, rfl⟩
  | true => exact hother { w with requests := w.requests + 1 }

/-- A drop of an idle future, on the way to the null future. -/
theorem gives_null {f : Fut L F K} (hf : Idle env f) {x : Eff (World σ) (Fut L F K)}
    (hx : ∀ w, Gives .null 0 x w) (w : World σ) :
    Gives .null 0 (futureDrop env f >>= fun _ => x) w := by
  apply Eff.wp_seq_total (Eff.wp_mono (Eff.wp_and (hf w) (asks_drop env f w)) (fun _ _ h => h)
    fun _ h => h.1)
  intro _ w' ⟨hmem, hreq⟩
  refine Eff.wp_mono (hx w') (fun f' w'' ⟨hnull, hmem', hreq'⟩ => ?_) fun _ h => h
  exact ⟨hnull, hmem'.trans hmem, by rw [hreq', hreq]⟩

/-- Two children are built, and a box around them. -/
theorem gives_pair {a b e : Expr L F K} {na nb : Nat} {x y : Eff (World σ) (Fut L F K)}
    {box : Nat → Fut L F K → Fut L F K → Fut L F K} {w : World σ} (ha : DropsFree env a)
    (hb : DropsFree env b) (hx : Gives a na x w)
    (hy : ∀ w', w'.requests = w.requests + na → Gives b nb y w')
    (hbox : ∀ id fa fb, Assembled a fa → Assembled b fb → Assembled e (box id fa fb)) :
    Gives (if env.refuses (w.requests + na + nb) then .null else e) (na + nb + 1)
      (do pairIn env box (← x) (← y)) w := by
  apply Eff.wp_seq hx
  intro fa w₁ ⟨hfa, hmem₁, hreq₁⟩
  apply Eff.wp_seq (hy w₁ hreq₁)
  intro fb w₂ ⟨hfb, hmem₂, hreq₂⟩
  have hgives := gives_box env (fun id => hbox id fa fb hfa hfb)
    (gives_null (hfa.idle ha) (gives_null (hfb.idle hb) gives_nothing)) w₂
  rw [hreq₂, hreq₁] at hgives
  refine Eff.wp_mono hgives (fun f w₃ ⟨hf, hmem₃, hreq₃⟩ => ?_) fun _ h => h
  exact ⟨hf, hmem₃.trans (hmem₂.trans hmem₁), by omega⟩

/-- **The constructors under an allocator that refuses** return what `prune` leaves. -/
theorem construct_gives {e : Expr L F K} (he : DropsFree env e) (w : World σ) :
    Gives (e.prune env.refuses w.requests) e.size (construct env e) w := by
  induction e generalizing w with
  | null => exact ⟨.null, rfl, rfl⟩
  | leaf l => exact gives_box env (fun id => .leaf id l) gives_nothing w
  | map inner fn ih =>
      apply Eff.wp_seq (ih he w)
      intro f w₁ ⟨hf, hmem₁, hreq₁⟩
      have hgives := gives_box env (fun id => .map id fn hf)
        (gives_null (hf.idle (DropsFree.prune (e := inner) he _ _)) gives_nothing) w₁
      rw [hreq₁] at hgives
      refine Eff.wp_mono hgives (fun f w₂ ⟨hf, hmem₂, hreq₂⟩ => ?_) fun _ h => h
      exact ⟨hf, hmem₂.trans hmem₁, by rw [hreq₂, hreq₁, Expr.size, Nat.add_assoc]⟩
  | then_ a b iha ihb =>
      obtain ⟨hea, heb⟩ := List.forall_mem_append.mp he
      exact gives_pair (DropsFree.prune hea _ _) (DropsFree.prune heb _ _) (iha hea w)
        (fun w' hw' => hw' ▸ ihb heb w') fun id _ _ => .then_ id
  | join2 a size b iha ihb =>
      obtain ⟨hea, heb⟩ := List.forall_mem_append.mp he
      exact gives_pair (DropsFree.prune hea _ _) (DropsFree.prune heb _ _) (iha hea w)
        (fun w' hw' => hw' ▸ ihb heb w') fun id _ _ => .join2 id size
  | select2 a b iha ihb =>
      obtain ⟨hea, heb⟩ := List.forall_mem_append.mp he
      exact gives_pair (DropsFree.prune hea _ _) (DropsFree.prune heb _ _) (iha hea w)
        (fun w' hw' => hw' ▸ ihb heb w') fun id _ _ => .select2 id
  | sm states start => exact gives_box env (fun id => .sm id states start) gives_nothing w

/-- An allocator that refuses nothing. -/
theorem build_assembles (hserved : ∀ r, env.refuses r = false) (e : Expr L F K) (w : World σ) :
    Eff.wp (build env e) (fun f w' => Assembled e f ∧ w'.mem = w.mem) (fun _ => False) w := by
  have hpair : ∀ {a b e : Expr L F K} {box : Nat → Fut L F K → Fut L F K → Fut L F K},
      (∀ w, Eff.wp (build env a) (fun f w' => Assembled a f ∧ w'.mem = w.mem) (fun _ => False) w) →
      (∀ w, Eff.wp (build env b) (fun f w' => Assembled b f ∧ w'.mem = w.mem) (fun _ => False) w) →
      (∀ id fa fb, Assembled a fa → Assembled b fb → Assembled e (box id fa fb)) → ∀ w,
      Eff.wp (do pairIn env box (← build env a) (← build env b))
        (fun f w' => Assembled e f ∧ w'.mem = w.mem) (fun _ => False) w := by
    intro a b e box iha ihb hbox w
    apply Eff.wp_seq (iha w)
    intro fa w₁ ⟨hfa, hmem₁⟩
    apply Eff.wp_seq (ihb w₁)
    intro fb w₂ ⟨hfb, hmem₂⟩
    rw [pairIn, Eff.wp_bind, request, Eff.wp_move, hserved]
    exact ⟨hbox _ fa fb hfa hfb, hmem₂.trans hmem₁⟩
  induction e generalizing w with
  | null => exact ⟨.null, rfl⟩
  | leaf l => exact ⟨.leaf _ l, rfl⟩
  | map inner fn ih =>
      apply Eff.wp_seq (ih w)
      intro f w₁ ⟨hf, hmem₁⟩
      rw [mapIn, Eff.wp_bind, request, Eff.wp_move, hserved]
      exact ⟨.map _ fn hf, hmem₁⟩
  | then_ a b iha ihb => exact hpair iha ihb (fun id _ _ => .then_ id) w
  | join2 a size b iha ihb => exact hpair iha ihb (fun id _ _ => .join2 id size) w
  | select2 a b iha ihb => exact hpair iha ihb (fun id _ _ => .select2 id) w
  | sm states start =>
      rw [build, smIn, Eff.wp_bind, request, Eff.wp_move, hserved]
      exact ⟨.sm _ states start, rfl⟩

end Drops

/-! ## A program and its allocator

The state functions, leaves and functions of a machine, with an allocator that refuses by the number of
the request. Polls of leaves may ask for memory as well, and are told the answers.
-/

/-- The entry of a state: its function, the context that it got, the number of its first request,
    and whether it awaits a future. -/
structure Visit (K σ : Type) where
  state  : K
  ctx    : σ
  first  : Nat
  awaits : Bool

/-- The memory, the number of requests that were made, the states that were entered, and the
    requests that polls of leaves made. -/
structure Stock (K σ : Type) where
  mem      : σ
  requests : Nat
  entries  : List (Visit K σ)
  polled   : List Nat

/-- The code around the combinators. A leaf is not told where its box is. It may ask for memory in
    its polls: then it is given the answers, and says how many it asked for. -/
structure Code (L F K σ : Type) where
  leafPoll : (Nat → Bool) → L → TaskId → Option Nat → σ → (Bool × L) × σ × Nat
  leafDrop : L → σ → σ
  mapFn    : F → Nat → σ → σ
  stateFn  : K → σ → SmStep L F K × σ
  /-- A poll knows no more of the allocator than the answers that it got. -/
  poll_served : ∀ refuses l wk out m,
    (∀ i < (leafPoll refuses l wk out m).2.2, refuses i = false) →
      leafPoll refuses l wk out m = leafPoll (fun _ => false) l wk out m
  /-- A leaf that was not polled yet holds its box and nothing else. -/
  drop_unpolled : ∀ k m, ∀ l ∈ (stateFn k m).1.fut.leaves, ∀ m', leafDrop l m' = m'

/-- The program with an allocator that refuses requests. A state function calls the constructors of
    the future that it returns, and gets what they leave of it (`construct_gives`). -/
def Code.env (P : Code L F K σ) (refuses : Nat → Bool) : Env L F K (Stock K σ) where
  leafPoll _ l wk out s :=
    let (r, mem, n) := P.leafPoll (fun i => refuses (s.requests + i)) l wk out s.mem
    (r, { s with mem, requests := s.requests + n,
                 polled := s.polled ++ (List.range n).map (s.requests + ·) })
  leafDrop _ l s := { s with mem := P.leafDrop l s.mem }
  mapFn f p s    := { s with mem := P.mapFn f p s.mem }
  stateFn k s    :=
    let (step, mem) := P.stateFn k s.mem
    let fut := step.fut.prune refuses s.requests
    ({ step with fut },
      { s with mem, requests := s.requests + step.fut.size,
               entries := s.entries ++ [⟨k, s.mem, s.requests, !fut.isNull⟩] })
  refuses _      := false

/-- The rest of the program leaves the records alone. -/
def Turn.stocked (t : Turn σ) : Turn (Stock K σ) where
  rest  := fun s => { s with mem := t.rest s.mem }
  waker := t.waker

/-- The future that the state asked its constructors for. -/
def Code.asked (P : Code L F K σ) (e : Visit K σ) : Expr L F K := (P.stateFn e.state e.ctx).1.fut

/-- The state awaits nothing, or the outermost constructor of what it awaits got its box. -/
def Code.Served (P : Code L F K σ) (refuses : Nat → Bool) (e : Visit K σ) : Prop :=
  (P.asked e).isNull = true ∨ refuses (e.first + (P.asked e).size - 1) = false

/-- No state was left without the future that it asked for, and no poll of a leaf without memory. -/
structure Code.WellServed (P : Code L F K σ) (refuses : Nat → Bool) (s : Stock K σ) : Prop where
  entries : ∀ e ∈ s.entries, P.Served refuses e
  polled  : ∀ r ∈ s.polled, refuses r = false

/-! ## What refused boxes leave of a tree

A tree in which some parts are missing, next to the whole one. Nothing that is missing was ever polled,
so up to now the two have done the same.
-/

inductive Remnant (env : Env L F K σ) : Fut L F K → Fut L F K → Prop
  | null {f : Fut L F K} (h : Idle env f) : Remnant env .null f
  | leaf (id id' : Nat) (l : L) : Remnant env (.leaf id l) (.leaf id' l)
  | map {f f' : Fut L F K} (id id' : Nat) (fn : Option F) (h : Remnant env f f') :
      Remnant env (.map id f fn) (.map id' f' fn)
  | then_ {a a' b b' : Fut L F K} (id id' stage : Nat) (ha : Remnant env a a')
      (hb : Remnant env b b') : Remnant env (.then_ id a b stage) (.then_ id' a' b' stage)
  | join2 {a a' b b' : Fut L F K} (id id' size : Nat) (aDone bDone : Bool) (ha : Remnant env a a')
      (hb : Remnant env b b') :
      Remnant env (.join2 id a b size aDone bDone) (.join2 id' a' b' size aDone bDone)
  | select2 {a a' b b' : Fut L F K} (id id' : Nat) (ha : Remnant env a a') (hb : Remnant env b b') :
      Remnant env (.select2 id a b) (.select2 id' a' b')
  | sm {cur cur' : Fut L F K} (id id' : Nat) (states : List K) (state : Nat) (curOut : Option Nat)
      (curNext : Nat) (haveCur : Bool) (h : Remnant env cur cur')
      (hcur : haveCur = true → cur.isNull = false) :
      Remnant env (.sm id states state cur curOut curNext haveCur)
        (.sm id' states state cur' curOut curNext haveCur)

theorem Fut.isNull_eq (f : Fut L F K) : f.isNull = f.id?.isNone := by
  cases f <;> rfl

theorem Remnant.ids {env : Env L F K σ} {f f' : Fut L F K} (h : Remnant env f f') :
    f = .null ∨ ∃ id id', f.id? = some id ∧ f'.id? = some id' := by
  cases h with
  | null h => exact .inl rfl
  | leaf | map | then_ | join2 | select2 | sm => exact .inr ⟨_, _, rfl, rfl⟩

/-- Nothing is left of a tree that was not polled. -/
theorem Assembled.remnant_null {env : Env L F K σ} {e : Expr L F K} {f f' : Fut L F K}
    (h : Assembled .null f) (h' : Assembled e f') (he : DropsFree env e) : Remnant env f f' := by
  cases h
  exact .null (h'.idle he)

/-- The tree that is built of what was left, and the tree that is built of everything. -/
theorem Assembled.remnant {env : Env L F K σ} {refuses : Nat → Bool} {r : Nat} {e : Expr L F K}
    {f f' : Fut L F K} (h : Assembled (e.prune refuses r) f) (h' : Assembled e f')
    (he : DropsFree env e) : Remnant env f f' := by
  induction h' generalizing r f with
  | null => exact h.remnant_null .null he
  | leaf id' l =>
      rw [Expr.prune] at h
      split at h
      · exact h.remnant_null (.leaf id' l) he
      · cases h with
        | leaf id => exact .leaf id id' l
  | map id' fn h' ih =>
      rw [Expr.prune] at h
      split at h
      · exact h.remnant_null (.map id' fn h') he
      · cases h with
        | map id _ h => exact .map id id' fn (ih h he)
  | then_ id' ha' hb' iha ihb =>
      rw [Expr.prune] at h
      split at h
      · exact h.remnant_null (.then_ id' ha' hb') he
      · obtain ⟨hea, heb⟩ := List.forall_mem_append.mp he
        cases h with
        | then_ id ha hb => exact .then_ id id' 0 (iha ha hea) (ihb hb heb)
  | join2 id' size ha' hb' iha ihb =>
      rw [Expr.prune] at h
      split at h
      · exact h.remnant_null (.join2 id' size ha' hb') he
      · obtain ⟨hea, heb⟩ := List.forall_mem_append.mp he
        cases h with
        | join2 id _ ha hb => exact .join2 id id' size false false (iha ha hea) (ihb hb heb)
  | select2 id' ha' hb' iha ihb =>
      rw [Expr.prune] at h
      split at h
      · exact h.remnant_null (.select2 id' ha' hb') he
      · obtain ⟨hea, heb⟩ := List.forall_mem_append.mp he
        cases h with
        | select2 id ha hb => exact .select2 id id' (iha ha hea) (ihb hb heb)
  | sm id' states start =>
      rw [Expr.prune] at h
      split at h
      · exact h.remnant_null (.sm id' states start) he
      · cases h with
        | sm id => exact .sm id id' states start none 0 false (.null idle_null) nofun

/-! ## The run as if everything were served

The two programs run side by side. Where no state lost its future and no leaf its memory they stay
together (`drive_shadows`). Where they part, the shortage is on record. The machine at the end adds two
numbers and may lose the future that brings one of them.
-/

section Shadows

variable {P : Code L F K σ} {refuses : Nat → Bool} {α β : Type}

/-- Some state was left without the future that it asked for, or a poll of a leaf without memory. -/
def Code.Shorted (P : Code L F K σ) (refuses : Nat → Bool) (s : Stock K σ) : Prop :=
  ¬P.WellServed refuses s

/-- The records only grow. -/
theorem Code.Shorted.of_shorter {s s' : Stock K σ} (h : P.Shorted refuses s)
    (hentries : ∀ e ∈ s.entries, e ∈ s'.entries) (hpolled : ∀ r ∈ s.polled, r ∈ s'.polled) :
    P.Shorted refuses s' := fun hserved =>
  h ⟨fun e he => hserved.entries e (hentries e he), fun r hr => hserved.polled r (hpolled r hr)⟩

theorem Code.env_keeps (P : Code L F K σ) (refuses : Nat → Bool) :
    (P.env refuses).Keeps (P.Shorted refuses) where
  leafPoll := fun _ _ _ _ _ h => h.of_shorter (fun _ => id) fun _ => List.mem_append_left _
  leafDrop := fun _ _ _ h => h.of_shorter (fun _ => id) fun _ => id
  mapFn    := fun _ _ _ h => h.of_shorter (fun _ => id) fun _ => id
  stateFn  := fun _ _ h => h.of_shorter (fun _ => List.mem_append_left _) fun _ => id

/-- With an allocator that refuses nothing. -/
abbrev Code.full (P : Code L F K σ) : Env L F K (Stock K σ) := P.env fun _ => false

variable (P refuses) in
/-- On equal memories: while the first program is well served, the second one does the same. -/
def Shadows (Q : α → β → Prop) (x : Eff (World (Stock K σ)) α) (y : Eff (World (Stock K σ)) β) :
    Prop :=
  Eff.Tracks (fun w => P.Shorted refuses w.mem) (fun w w' => w.mem = w'.mem) Q x y

/-- Two programs that stay together, in sequence. -/
theorem Shadows.bind {γ δ : Type} {Q : α → β → Prop} {Q' : γ → δ → Prop}
    {x : Eff (World (Stock K σ)) α} {y : Eff (World (Stock K σ)) β}
    {f : α → Eff (World (Stock K σ)) γ} {g : β → Eff (World (Stock K σ)) δ}
    (hx : Shadows P refuses Q x y) (hkeeps : ∀ a, KeepsMem (P.Shorted refuses) (f a))
    (hf : ∀ a b, Q a b → Shadows P refuses Q' (f a) (g b)) :
    Shadows P refuses Q' (x >>= f) (y >>= g) := Eff.tracks_bind hx hkeeps hf

variable (P refuses) in
/-- Polls of what is left of a tree, and polls of the tree. -/
def PollShadows (poll poll' : Poller L F K (Stock K σ)) : Prop :=
  ∀ f f' wk out, Remnant P.full f f' → Shadows P refuses
    (fun r r' => r.1 = r'.1 ∧ Remnant P.full r.2 r'.2 ∧ r.2.isNull = false) (poll f wk out)
    (poll' f' wk out)

variable {poll poll' : Poller L F K (Stock K σ)}

/-- A poll, and what is done with its answer. -/
theorem PollShadows.bind {γ δ : Type} {Q : γ → δ → Prop} {f f' : Fut L F K} {wk : TaskId}
    {out : Option Nat} {x : Bool × Fut L F K → Eff (World (Stock K σ)) γ}
    {y : Bool × Fut L F K → Eff (World (Stock K σ)) δ} (hp : PollShadows P refuses poll poll')
    (h : Remnant P.full f f') (hkeeps : ∀ r, KeepsMem (P.Shorted refuses) (x r))
    (hxy : ∀ st a a', Remnant P.full a a' → a.isNull = false →
      Shadows P refuses Q (x (st, a)) (y (st, a'))) :
    Shadows P refuses Q (poll f wk out >>= x) (poll' f' wk out >>= y) := by
  apply Shadows.bind (hp f f' wk out h) hkeeps
  rintro ⟨st, a⟩ ⟨st', a'⟩ ⟨hst, ha, hnull⟩
  dsimp only at hst ha hnull
  subst hst
  exact hxy st a a' ha hnull

theorem note_shadows (e e' : Custody.Event) :
    Shadows P refuses (fun _ _ => True) (note e) (note e') :=
  Eff.tracks_modify trivial fun _ _ h => h

theorem drop_keeps (f : Fut L F K) : KeepsMem (P.Shorted refuses) (futureDrop (P.env refuses) f) :=
  (P.env_keeps refuses).drop f

/-- Drops. Of a tree that was not polled nothing is missed. -/
theorem drop_shadows {f f' : Fut L F K} (h : Remnant P.full f f') :
    Shadows P refuses (fun _ _ => True) (futureDrop (P.env refuses) f) (futureDrop P.full f') := by
  induction h with
  | null hidle =>
      -- only the second run has something to drop
      intro w w' hw
      refine .inr (Eff.wp_mono (hidle w') (fun _ w'' hw'' => ⟨trivial, ?_⟩) fun _ h => h)
      exact hw.trans hw''.symm
  | leaf id id' l =>
      apply (note_shadows _ _).bind
      · exact fun _ => keepsMem_onMem fun m => (P.env_keeps refuses).leafDrop id l m
      · intro _ _ _
        exact Eff.tracks_move fun w w' hw => .inr ⟨trivial, by rw [hw]; rfl⟩
  | map id id' fn h ih => exact (note_shadows _ _).bind (fun _ => drop_keeps _) fun _ _ _ => ih
  | then_ id id' stage ha hb iha ihb =>
      apply (note_shadows _ _).bind
      · exact fun _ => (drop_keeps _).when.bind fun _ => drop_keeps _
      · exact fun _ _ _ => Shadows.bind (Eff.tracks_when iha) (fun _ => drop_keeps _)
          fun _ _ _ => ihb
  | join2 id id' size aDone bDone ha hb iha ihb =>
      apply (note_shadows _ _).bind
      · exact fun _ => (drop_keeps _).when.bind fun _ => (drop_keeps _).when
      · exact fun _ _ _ => Shadows.bind (Eff.tracks_when iha) (fun _ => (drop_keeps _).when)
          fun _ _ _ => Eff.tracks_when ihb
  | select2 id id' ha hb iha ihb =>
      apply (note_shadows _ _).bind
      · exact fun _ => (drop_keeps _).bind fun _ => drop_keeps _
      · exact fun _ _ _ => Shadows.bind iha (fun _ => drop_keeps _) fun _ _ _ => ihb
  | sm id id' states state curOut curNext haveCur h hcur ih =>
      apply (note_shadows _ _).bind
      · exact fun _ => (drop_keeps _).when
      · exact fun _ _ _ => Eff.tracks_when ih

/-- A leaf that gets the memory it asks for in its poll. -/
theorem leafPoll_shadows (id id' : Nat) (l : L) (wk : TaskId) (out : Option Nat) :
    Shadows P refuses Eq (onMem ((P.env refuses).leafPoll id l wk out))
      (onMem (P.full.leafPoll id' l wk out)) := by
  refine Eff.tracks_move fun w w' hw => ?_
  rw [← hw]
  let refuses' := fun i => refuses (w.mem.requests + i)
  by_cases hserved : ∀ i < (P.leafPoll refuses' l wk out w.mem.mem).2.2, refuses' i = false
  · have hpoll : P.leafPoll (fun i => refuses (w.mem.requests + i)) l wk out w.mem.mem =
        P.leafPoll (fun _ => false) l wk out w.mem.mem := P.poll_served refuses' _ _ _ _ hserved
    refine .inr ⟨?_, ?_⟩
    · simp only [Code.env, hpoll]
    · simp only [Code.env, hpoll]
  · -- the request that was refused stays on record
    refine .inl fun hwell => hserved fun i hi => hwell.polled _ ?_
    exact List.mem_append_right _ (List.mem_map.mpr ⟨i, List.mem_range.mpr hi, rfl⟩)

/-- A state function whose future is there, if it asked for one. -/
theorem stateFn_shadows (k : K) :
    Shadows P refuses (fun step step' => step.out = step'.out ∧ step.next = step'.next ∧
        (∃ r, step.fut = step'.fut.prune refuses r) ∧ step.fut.isNull = step'.fut.isNull ∧
        DropsFree P.full step'.fut)
      (onMem ((P.env refuses).stateFn k)) (onMem (P.full.stateFn k)) := by
  refine Eff.tracks_move fun w w' hw => ?_
  rw [← hw]
  let e := (P.stateFn k w.mem.mem).1.fut
  by_cases hserved : e.isNull = true ∨ refuses (w.mem.requests + e.size - 1) = false
  · have hnull : (e.prune refuses w.mem.requests).isNull = e.isNull := by
      rw [prune_isNull]
      rcases hserved with h | h
      · rw [h, Bool.true_or]
      · rw [h, Bool.or_false]
    have hfree : DropsFree P.full e := fun l hl id m =>
      congrArg (fun mem => { m with mem }) (P.drop_unpolled k w.mem.mem l hl m.mem)
    refine .inr ⟨⟨rfl, rfl, ⟨w.mem.requests, ?_⟩, ?_, ?_⟩, ?_⟩
    · simp only [Code.env, prune_served]
    · simpa only [Code.env, prune_served] using hnull
    · simpa only [Code.env, prune_served] using hfree
    · simp only [Code.env, prune_served]
      rw [hnull]
  · -- the state that was left without its future stays on record
    refine .inl fun hwell => hserved ?_
    exact hwell.entries ⟨k, w.mem.mem, w.mem.requests, _⟩
      (List.mem_append_right _ (List.mem_singleton.mpr rfl))

theorem build_shadows {e : Expr L F K} (r : Nat) (he : DropsFree P.full e) :
    Shadows P refuses (fun f f' => Remnant P.full f f' ∧ f.isNull = (e.prune refuses r).isNull ∧
        f'.isNull = e.isNull)
      (build (P.env refuses) (e.prune refuses r)) (build P.full e) := by
  intro w w' hw
  refine Eff.wp_mono (build_assembles (fun _ => rfl) _ w) (fun f w₁ ⟨hf, hmem⟩ => .inr ?_)
    fun _ => False.elim
  refine Eff.wp_mono (build_assembles (fun _ => rfl) e w') (fun f' w₁' ⟨hf', hmem'⟩ => ?_)
    fun _ h => h
  exact ⟨⟨hf.remnant hf' he, hf.isNull, hf'.isNull⟩, hmem.trans (hw.trans hmem'.symm)⟩

theorem applyFn_shadows (st : Bool) (fn : Option F) (out : Option Nat) :
    Shadows P refuses (fun _ _ => True) (applyFn (P.env refuses) st fn out)
      (applyFn P.full st fn out) := by
  unfold applyFn
  split
  · exact Eff.tracks_move fun w w' hw => .inr ⟨trivial, by rw [hw]; rfl⟩
  · exact Eff.tracks_pure trivial

theorem joinArm_shadows (hp : PollShadows P refuses poll poll') {f f' : Fut L F K}
    (h : Remnant P.full f f') (done : Bool) (wk : TaskId) (out : Option Nat) :
    Shadows P refuses (fun r r' => r.1 = r'.1 ∧ Remnant P.full r.2 r'.2)
      (joinArm (P.env refuses) poll f done wk out) (joinArm P.full poll' f' done wk out) := by
  unfold joinArm
  cases done with
  | true => exact Eff.tracks_pure ⟨rfl, h⟩
  | false =>
      apply hp.bind h
      · exact fun r => (drop_keeps r.2).when.bind fun _ => keepsMem_pure _
      · intro st a a' ha _
        refine Shadows.bind (Eff.tracks_when (drop_shadows ha)) (fun _ => keepsMem_pure _) ?_
        exact fun _ _ _ => Eff.tracks_pure ⟨rfl, ha⟩

theorem thenSecond_shadows (hp : PollShadows P refuses poll poll') {a a' b b' : Fut L F K}
    (ha : Remnant P.full a a') (hb : Remnant P.full b b') (id id' stage : Nat) (wk : TaskId)
    (out : Option Nat) :
    Shadows P refuses (fun r r' => r.1 = r'.1 ∧ Remnant P.full r.2 r'.2 ∧ r.2.isNull = false)
      (do
        let (st, b) ← poll b wk out
        return (st, Fut.then_ id a b stage))
      (do
        let (st, b) ← poll' b' wk out
        return (st, Fut.then_ id' a' b stage)) := by
  apply hp.bind hb
  · exact fun _ => keepsMem_pure _
  · exact fun st b b' hb _ => Eff.tracks_pure ⟨rfl, .then_ id id' stage ha hb, rfl⟩

theorem enterState_shadows (k : K) {cur cur' : Fut L F K} (h : Remnant P.full cur cur')
    (curOut : Option Nat) (curNext : Nat) {haveCur : Bool}
    (hcur : haveCur = true → cur.isNull = false) :
    Shadows P refuses
      (fun r r' => Remnant P.full r.1 r'.1 ∧ r.1.isNull = r'.1.isNull ∧ r.2 = r'.2)
      (enterState (P.env refuses) k cur curOut curNext haveCur)
      (enterState P.full k cur' curOut curNext haveCur) := by
  unfold enterState
  cases haveCur with
  | true =>
      refine Eff.tracks_pure ⟨h, ?_, rfl⟩
      rcases h.ids with rfl | ⟨id, id', hid, hid'⟩
      · cases hcur rfl
      · dsimp only
        rw [Fut.isNull_eq, Fut.isNull_eq, hid, hid']
        rfl
  | false =>
      apply (stateFn_shadows k).bind
      · exact fun step => ((P.env_keeps refuses).build step.fut).bind fun _ => keepsMem_pure _
      · rintro ⟨e, out, next⟩ ⟨e', out', next'⟩ ⟨hout, hnext, ⟨r, he⟩, hnull, hfree⟩
        dsimp only at hout hnext he hnull hfree
        subst hout hnext he
        apply (build_shadows r hfree).bind
        · exact fun _ => keepsMem_pure _
        · rintro f f' ⟨hremnant, hf, hf'⟩
          exact Eff.tracks_pure ⟨hremnant, by rw [hf, hf', hnull], rfl⟩

/-- The induction is on the rounds of the loop of `smPoll`. -/
theorem smPoll_shadows (hk : PollKeeps (P.Shorted refuses) poll)
    (hp : PollShadows P refuses poll poll') (id id' : Nat) (states : List K) (wk : TaskId)
    (n state : Nat) {cur cur' : Fut L F K} (h : Remnant P.full cur cur') (curOut : Option Nat)
    (curNext : Nat) {haveCur : Bool} (hcur : haveCur = true → cur.isNull = false) :
    Shadows P refuses (fun r r' => r.1 = r'.1 ∧ Remnant P.full r.2 r'.2 ∧ r.2.isNull = false)
      (smPoll (P.env refuses) poll id states wk n state cur curOut curNext haveCur)
      (smPoll P.full poll' id' states wk n state cur' curOut curNext haveCur) := by
  have hsm := fun n s cur out next have' =>
    (P.env_keeps refuses).smPoll hk id states wk n s cur out next have'
  induction n generalizing state cur cur' curOut curNext haveCur with
  | zero => exact Eff.tracks_stuck
  | succ n ih =>
      unfold smPoll
      split
      · exact Eff.tracks_pure ⟨rfl, .sm id id' states state curOut curNext haveCur h hcur, rfl⟩
      next k _ =>
        apply (enterState_shadows k h curOut curNext hcur).bind
        · rintro ⟨cur, curOut, curNext⟩
          dsimp only
          split
          · exact hsm _ _ _ _ _ _
          · apply (hk cur wk curOut).bind
            rintro ⟨_ | _, cur'⟩
            · exact keepsMem_pure _
            · exact (drop_keeps cur').bind fun _ => hsm _ _ _ _ _ _
        · rintro ⟨cur, curOut, curNext⟩ ⟨cur', curOut', curNext'⟩ ⟨hremnant, hnull, heq⟩
          cases heq
          dsimp only at hremnant hnull ⊢
          rw [← hnull]
          -- the two runs take the same branch: neither awaits anything here, or both do
          cases hcurnull : cur.isNull with
          | true => exact ih _ hremnant _ _ nofun
          | false =>
              apply hp.bind hremnant
              · rintro ⟨_ | _, cur''⟩
                · exact keepsMem_pure _
                · exact (drop_keeps cur'').bind fun _ => hsm _ _ _ _ _ _
              · intro st a a' ha hanull
                cases st with
                | false =>
                    exact Eff.tracks_pure
                      ⟨rfl, .sm id id' states state curOut curNext true ha fun _ => hanull, rfl⟩
                | true =>
                    apply (drop_shadows ha).bind
                    · exact fun _ => hsm _ _ _ _ _ _
                    · exact fun _ _ _ => ih _ ha _ _ nofun

/-- The polls of all nodes stay together, if those of their children do. -/
theorem nodePoll_shadows (hk : PollKeeps (P.Shorted refuses) poll)
    (hp : PollShadows P refuses poll poll') (n : Nat) :
    PollShadows P refuses (nodePoll (P.env refuses) poll n) (nodePoll P.full poll' n) := by
  intro f f' wk out h
  cases h with
  | null h => exact Eff.tracks_stuck
  | leaf id id' l =>
      apply (leafPoll_shadows id id' l wk out).bind
      · exact fun _ => keepsMem_pure _
      · rintro r _ rfl
        exact Eff.tracks_pure ⟨rfl, .leaf id id' r.2, rfl⟩
  | map id id' fn h =>
      apply hp.bind h
      · exact fun r => ((P.env_keeps refuses).applyFn r.1 fn out).bind fun _ => keepsMem_pure _
      · intro st a a' ha _
        apply (applyFn_shadows st fn out).bind
        · exact fun _ => keepsMem_pure _
        · exact fun _ _ _ => Eff.tracks_pure ⟨rfl, .map id id' fn ha, rfl⟩
  | then_ id id' stage ha hb =>
      show Shadows P refuses _ (thenPoll _ poll id _ _ stage wk out)
        (thenPoll _ poll' id' _ _ stage wk out)
      unfold thenPoll
      split
      · apply hp.bind ha
        · rintro ⟨_ | _, a⟩
          · exact keepsMem_pure _
          · exact (drop_keeps a).bind fun _ => thenSecond_keeps hk id a _ 1 wk out
        · intro st a a' ha _
          cases st with
          | false => exact Eff.tracks_pure ⟨rfl, .then_ id id' 0 ha hb, rfl⟩
          | true =>
              apply (drop_shadows ha).bind
              · exact fun _ => thenSecond_keeps hk id a _ 1 wk out
              · exact fun _ _ _ => thenSecond_shadows hp ha hb id id' 1 wk out
      · exact thenSecond_shadows hp ha hb id id' stage wk out
  | join2 id id' size aDone bDone ha hb =>
      apply (joinArm_shadows hp ha aDone wk out).bind
      · exact fun _ => ((P.env_keeps refuses).joinArm hk _ bDone wk _).bind fun _ => keepsMem_pure _
      · rintro ⟨aDone, a⟩ ⟨aDone', a'⟩ ⟨hst, ha⟩
        dsimp only at hst ha
        subst hst
        apply (joinArm_shadows hp hb bDone wk _).bind
        · exact fun _ => keepsMem_pure _
        · rintro ⟨bDone, b⟩ ⟨bDone', b'⟩ ⟨hst, hb⟩
          dsimp only at hst hb
          subst hst
          exact Eff.tracks_pure ⟨rfl, .join2 id id' size aDone bDone ha hb, rfl⟩
  | select2 id id' ha hb =>
      apply hp.bind ha
      · rintro ⟨_ | _, a⟩
        · exact (hk _ wk out).bind fun _ => keepsMem_pure _
        · exact keepsMem_pure _
      · intro st a a' ha _
        cases st with
        | true => exact Eff.tracks_pure ⟨rfl, .select2 id id' ha hb, rfl⟩
        | false =>
            -- the second arm may be missing: then its poll ends the run
            apply hp.bind hb
            · exact fun _ => keepsMem_pure _
            · exact fun st b b' hb _ => Eff.tracks_pure ⟨rfl, .select2 id id' ha hb, rfl⟩
  | sm id id' states state curOut curNext haveCur h hcur =>
      exact smPoll_shadows hk hp id id' states wk n state h curOut curNext hcur

/-- **Polls of what is left of a tree** do what polls of the tree do, or reach the null future. -/
theorem futurePoll_shadows (n : Nat) :
    PollShadows P refuses (futurePoll (P.env refuses) n) (futurePoll P.full n) := by
  induction n with
  | zero => exact fun _ _ _ _ _ => Eff.tracks_stuck
  | succ n ih =>
      intro f f' wk out h
      unfold futurePoll
      rcases h.ids with rfl | ⟨id, id', hid, hid'⟩
      · exact Eff.tracks_stuck
      · have hk := (P.env_keeps refuses).futurePoll (L := L) (F := F) n
        simp only [hid, hid']
        apply (note_shadows _ _).bind
        · intro _
          apply ((P.env_keeps refuses).nodePoll hk n f wk out).bind
          exact fun _ => (keepsMem_note _).when.bind fun _ => keepsMem_pure _
        · intro _ _ _
          apply (nodePoll_shadows hk ih n).bind h
          · exact fun _ => (keepsMem_note _).when.bind fun _ => keepsMem_pure _
          · intro st a a' ha hnull
            refine Shadows.bind (Eff.tracks_when (note_shadows _ _)) (fun _ => keepsMem_pure _) ?_
            exact fun _ _ _ => Eff.tracks_pure ⟨rfl, ha, hnull⟩

/-- A machine that is driven. -/
theorem drive_shadows (refuses : Nat → Bool) (n : Nat) (ts : List (Turn σ)) {f f' : Fut L F K}
    (h : Remnant P.full f f') (wk : TaskId) :
    Shadows P refuses Eq
      (driveSm (P.env refuses) (futurePoll (P.env refuses) n) n (ts.map Turn.stocked) f wk)
      (driveSm P.full (futurePoll P.full n) n (ts.map Turn.stocked) f' wk) := by
  have hk := (P.env_keeps refuses).futurePoll (L := L) (F := F) n
  have hnode := nodePoll_shadows hk (futurePoll_shadows n) n
  have hturn : ∀ (t : Turn σ) m, P.Shorted refuses m → P.Shorted refuses (t.stocked.rest m) :=
    fun t m h => h.of_shorter (fun _ => id) fun _ => id
  induction ts generalizing f f' wk with
  | nil =>
      rw [driveSm_eq, driveSm_eq]
      apply hnode.bind h
      · rintro ⟨_ | _, a⟩ <;> exact keepsMem_pure _
      · intro st a a' _ _
        cases st <;> exact Eff.tracks_pure rfl
  | cons t ts ih =>
      rw [driveSm_eq, driveSm_eq]
      have hdrive : ∀ a, KeepsMem (P.Shorted refuses)
          (driveSm (P.env refuses) (futurePoll (P.env refuses) n) n (ts.map Turn.stocked) a
            t.waker) := by
        intro a
        refine (P.env_keeps refuses).driveSm n _ (fun t' ht' => ?_) a t.waker
        obtain ⟨t'', -, rfl⟩ := List.mem_map.mp ht'
        exact hturn t''
      apply hnode.bind h
      · rintro ⟨_ | _, a⟩
        · exact (keepsMem_onMem (hturn t)).bind fun _ => hdrive a
        · exact keepsMem_pure _
      · intro st a a' ha _
        cases st with
        | true => exact Eff.tracks_pure rfl
        | false =>
            refine Shadows.bind (Q := fun _ _ => True) ?_ (fun _ => hdrive a) fun _ _ _ =>
              ih ha t.waker
            exact Eff.tracks_move fun w w' hw => .inr ⟨trivial, by rw [hw]⟩

/-- Every entry says whether its state was given a future. -/
def Code.Recorded (P : Code L F K σ) (refuses : Nat → Bool) (s : Stock K σ) : Prop :=
  ∀ e ∈ s.entries, e.awaits = !((P.asked e).prune refuses e.first).isNull

theorem Code.env_recorded (P : Code L F K σ) (refuses : Nat → Bool) :
    (P.env refuses).Keeps (P.Recorded refuses) where
  leafPoll := fun _ _ _ _ _ h => h
  leafDrop := fun _ _ _ h => h
  mapFn    := fun _ _ _ h => h
  stateFn  := fun _ _ h => List.forall_mem_append.mpr ⟨h, List.forall_mem_singleton.mpr rfl⟩

/-- The entries of a whole run say which states were given a future. -/
theorem drive_recorded {ts : List (Turn σ)} {f : Fut L F K} {wk : TaskId}
    {w₀ w : World (Stock K σ)} {n : Nat} {r : Option (TaskId × List (Turn (Stock K σ)))}
    (hstart : w₀.mem.entries = [])
    (hrun : driveSm (P.env refuses) (futurePoll (P.env refuses) n) n (ts.map Turn.stocked) f wk w₀ =
      (some r, w)) : P.Recorded refuses w.mem := by
  have hnone : P.Recorded refuses w₀.mem := by
    rw [Code.Recorded, hstart]
    exact List.forall_mem_nil _
  have hkeeps := (P.env_recorded refuses).driveSm n (ts.map Turn.stocked) (fun t ht => ?_) f wk w₀
    hnone
  · rw [Eff.wp, hrun] at hkeeps
    exact hkeeps.2
  · obtain ⟨t', -, rfl⟩ := List.mem_map.mp ht
    exact fun _ h => h

/-- The full run awaits whatever its states ask for. A run with the same entries does, too, also if
    polls of leaves were short of memory. -/
theorem Code.Recorded.served {s s' : Stock K σ} (h : P.Recorded refuses s)
    (hfull : P.Recorded (fun _ => false) s') (hentries : s'.entries = s.entries) :
    ∀ e ∈ s.entries, P.Served refuses e := by
  intro e he
  have hawaits := hfull e (hentries ▸ he)
  rw [h e he, prune_isNull, prune_served] at hawaits
  cases hnull : (P.asked e).isNull with
  | true => exact .inl hnull
  | false => exact .inr (by simpa [hnull] using hawaits)

end Shadows

/-- A world whose allocator was asked for memory `requests` times before. -/
def World.stocked (w : World σ) (requests : Nat) : World (Stock K σ) :=
  ⟨⟨w.mem, requests, [], []⟩, w.next, w.requests, w.log⟩

/-- **A machine that is `Ready` has run as if the allocator had refused nothing, iff every state got
    the future that it asked for**, that is, the outermost constructor of the future its box. As if
    it had refused nothing: the machine is `Ready` after the same turns, the same states were
    entered with the same contexts, the same of them awaited a future, and the memory is the same.
    Leaves get the memory that they ask for in their polls; boxes further down may be refused. -/
theorem as_if_served_iff {P : Code L F K σ} {refuses : Nat → Bool} {states : List K}
    {start id : Nat} {ts : List (Turn σ)} {wk : TaskId} {w₀ : World σ} {requests n : Nat}
    {r : TaskId × List (Turn (Stock K σ))} {w : World (Stock K σ)}
    (hrun : driveSm (P.env refuses) (futurePoll (P.env refuses) n) n (ts.map Turn.stocked)
      (.sm id states start .null none 0 false) wk (w₀.stocked requests) = (some (some r), w))
    (hpolled : ∀ k ∈ w.mem.polled, refuses k = false) :
    (∃ w', driveSm P.full (futurePoll P.full n) n (ts.map Turn.stocked)
        (.sm id states start .null none 0 false) wk (w₀.stocked requests) = (some (some r), w') ∧
        w'.mem.entries = w.mem.entries ∧ w'.mem.mem = w.mem.mem) ↔
      ∀ e ∈ w.mem.entries, P.Served refuses e := by
  constructor
  · rintro ⟨w', hrun', hentries, -⟩
    exact (drive_recorded rfl hrun).served (drive_recorded rfl hrun') hentries
  · intro hserved
    have hremnant : Remnant P.full (.sm id states start .null none 0 false : Fut L F K)
        (.sm id states start .null none 0 false) :=
      .sm id id states start none 0 false (.null idle_null) (by simp)
    have hshadows := drive_shadows refuses n ts hremnant wk (w₀.stocked requests)
      (w₀.stocked requests) rfl
    rw [Eff.wp, hrun] at hshadows
    obtain ⟨r', w', hrun', rfl, hmem⟩ := Eff.wp_total
      (hshadows.resolve_left fun hshorted => hshorted ⟨hserved, hpolled⟩)
    exact ⟨w', hrun', by rw [hmem], by rw [hmem]⟩

structure SeqCtx where
  x   : Nat
  y   : Nat
  sum : Nat
  deriving DecidableEq

/-- Its states, and one that races two futures for the first number. -/
inductive SeqState where
  | x | y | sum | race
  deriving DecidableEq

/-- A leaf is `Pending` until it has fired, and then writes its number. -/
def seqCode : Code (Bool × Nat) Empty SeqState SeqCtx where
  leafPoll _ l _ out c := match l.1, out with
    | false, _     => ((false, true, l.2), c, 0)
    | true, some 0 => ((true, l), { c with x := l.2 }, 0)
    | true, some _ => ((true, l), { c with y := l.2 }, 0)
    | true, none   => ((true, l), c, 0)
  leafDrop _ c := c
  mapFn f _ _  := nomatch f
  stateFn k c  := match k with
    | .x    => (⟨.leaf (false, 3), some 0, 1⟩, c)
    | .y    => (⟨.leaf (false, 4), some 1, 2⟩, c)
    | .sum  => (⟨.null, none, smDone⟩, { c with sum := c.x + c.y })
    | .race => (⟨.select2 (.leaf (true, 3)) (.leaf (true, 5)), some 0, smDone⟩, c)
  poll_served   := fun _ _ _ _ _ _ => rfl
  drop_unpolled := fun _ _ _ _ _ => rfl

def seqWorld : World (Stock SeqState SeqCtx) := (World.start ⟨0, 0, 0⟩).stocked 0

/-- The second arm of a race is refused its box, and the first one wins. -/
theorem as_if_served_iff_race : ∃ w',
    driveSm seqCode.full (futurePoll seqCode.full 4) 4 [] (.sm 0 [.race] 0 .null none 0 false) 7
      seqWorld = (some (some (7, [])), w') ∧ w'.mem.mem = ⟨3, 0, 0⟩ := by
  obtain ⟨w, hrun, hmem⟩ : ∃ w, driveSm (seqCode.env (· = 1)) (futurePoll (seqCode.env (· = 1)) 4) 4
      (([] : List (Turn SeqCtx)).map Turn.stocked) (.sm 0 [.race] 0 .null none 0 false) 7
      ((World.start ⟨0, 0, 0⟩).stocked 0) = (some (some (7, [])), w) ∧
      w.mem = ⟨⟨3, 0, 0⟩, 3, [⟨.race, ⟨0, 0, 0⟩, 0, true⟩], []⟩ := ⟨_, rfl, rfl⟩
  obtain ⟨w', hrun', -, hmem'⟩ := (as_if_served_iff hrun (by simp [hmem])).mpr (by
    rw [hmem]
    exact List.forall_mem_singleton.mpr (.inr rfl))
  exact ⟨w', hrun', by rw [hmem', hmem]⟩

/-- The first number is refused its box: the machine is `Ready` with the sum of the second one and
    what the context held, a turn too early. -/
theorem await_skipped :
    (∃ w, driveSm (seqCode.env (· = 0)) (futurePoll (seqCode.env (· = 0)) 4) 4
        [Turn.stocked ⟨id, 8⟩, Turn.stocked ⟨id, 9⟩]
        (.sm 0 [.x, .y, .sum] 0 .null none 0 false) 7 seqWorld =
          (some (some (8, [Turn.stocked ⟨id, 9⟩])), w) ∧ w.mem.mem = ⟨0, 4, 4⟩) ∧
    ∃ w, driveSm seqCode.full (futurePoll seqCode.full 4) 4
        [Turn.stocked ⟨id, 8⟩, Turn.stocked ⟨id, 9⟩]
        (.sm 0 [.x, .y, .sum] 0 .null none 0 false) 7 seqWorld = (some (some (9, [])), w) ∧
        w.mem.mem = ⟨3, 4, 7⟩ :=
  ⟨⟨_, rfl, rfl⟩, _, rfl, rfl⟩

end CustLib.Exec
