import Mathlib.Tactic.TypeStar

/-!
# Programs that may get stuck

`Eff σ α` is a program over a state `σ`. It returns an `α`, or it gets stuck: a pointer that is not
there is followed, or a loop is cut off. What it did to the state until then counts in both cases.

`wp x Q E s` says of the program `x` in the state `s` that `Q` holds if it returns and `E` if it
gets stuck. `Agree R x y` says that two programs over different states return the same and keep the
relation `R` between their states. `Tracks bad R P x y` says this of one side: whatever `x` returns,
`y` returns something that is related to it, unless `x` has got into a `bad` state. `Le x y` says
that `y` is `x`, cut off later.
-/

namespace CustLib

/-! ## The monad

A state monad with failure, in which the state survives the failure. `move`, `modify` and `when` are the
building blocks, besides `pure` and sequencing.
-/

def Eff (σ α : Type*) := σ → Option α × σ

namespace Eff

variable {σ τ α β : Type}

instance : Monad (Eff σ) where
  pure a := fun s => (some a, s)
  bind x f := fun s =>
    match x s with
    | (some a, s') => f a s'
    | (none, s')   => (none, s')

/-- No way to go on. -/
def stuck : Eff σ α := fun s => (none, s)

def move (f : σ → α × σ) : Eff σ α := fun s => (some (f s).1, (f s).2)

def modify (f : σ → σ) : Eff σ Unit := fun s => (some (), f s)

def when (c : Bool) (x : Eff σ Unit) : Eff σ Unit := if c then x else pure ()

theorem bind_run (x : Eff σ α) (f : α → Eff σ β) (s : σ) :
    (x >>= f) s = match x s with
      | (some a, s') => f a s'
      | (none, s')   => (none, s') := rfl

instance : LawfulMonad (Eff σ : Type → Type) := LawfulMonad.mk' _
  (fun x => funext fun s => by
    apply (bind_run x pure s).trans
    rcases x s with ⟨_ | a, s'⟩ <;> rfl)
  (fun _ _ => rfl)
  (fun x f g => funext fun s => by
    apply (bind_run (x >>= f) g s).trans
    rw [bind_run, bind_run]
    rcases x s with ⟨_ | a, s'⟩ <;> rfl)

/-! ## Weakest preconditions

The rules of sequencing and consequence, with a second postcondition for programs that get stuck.
`wp_seq_total` is for a first half that cannot; then only the second half has to care.
-/

/-- If `x` returns, `Q` holds of the result and the state; if it gets stuck, `E` holds of the
    state. -/
def wp (x : Eff σ α) (Q : α → σ → Prop) (E : σ → Prop) (s : σ) : Prop :=
  match x s with
  | (some a, s') => Q a s'
  | (none, s')   => E s'

variable {x : Eff σ α} {Q Q' : α → σ → Prop} {E E' : σ → Prop} {s : σ}

@[simp] theorem wp_pure {a : α} : wp (pure a) Q E s ↔ Q a s := Iff.rfl

@[simp] theorem wp_move {f : σ → α × σ} : wp (move f) Q E s ↔ Q (f s).1 (f s).2 := Iff.rfl

theorem wp_when {c : Bool} {x : Eff σ Unit} {Q : Unit → σ → Prop} :
    wp (when c x) Q E s ↔ if c then wp x Q E s else Q () s := by
  cases c <;> rfl

/-- **Sequencing.** -/
theorem wp_bind {f : α → Eff σ β} {Q : β → σ → Prop} :
    wp (x >>= f) Q E s ↔ wp x (fun a s' => wp (f a) Q E s') E s := by
  unfold wp
  rw [bind_run]
  rcases x s with ⟨_ | a, s'⟩ <;> rfl

/-- **Consequence.** -/
theorem wp_mono (h : wp x Q E s) (hQ : ∀ a s', Q a s' → Q' a s') (hE : ∀ s', E s' → E' s') :
    wp x Q' E' s := by
  unfold wp at h ⊢
  rcases hx : x s with ⟨_ | a, s'⟩ <;> rw [hx] at h
  · exact hE s' h
  · exact hQ a s' h

/-- Consequence in the first half of a sequence. -/
theorem wp_seq {f : α → Eff σ β} {Q : β → σ → Prop} {P : α → σ → Prop} (h : wp x P E s)
    (hf : ∀ a s', P a s' → wp (f a) Q E s') : wp (x >>= f) Q E s :=
  wp_bind.mpr (wp_mono h hf fun _ => id)

/-- A program that cannot get stuck, in front of one that can. -/
theorem wp_seq_total {f : α → Eff σ β} {Q : β → σ → Prop} {P : α → σ → Prop}
    (h : wp x P (fun _ => False) s) (hf : ∀ a s', P a s' → wp (f a) Q E s') :
    wp (x >>= f) Q E s :=
  wp_bind.mpr (wp_mono h hf fun _ => False.elim)

theorem wp_and (h : wp x Q E s) (h' : wp x Q' E' s) :
    wp x (fun a s' => Q a s' ∧ Q' a s') (fun s' => E s' ∧ E' s') s := by
  unfold wp at h h' ⊢
  rcases hx : x s with ⟨_ | a, s'⟩ <;> rw [hx] at h h' <;> exact ⟨h, h'⟩

theorem wp_trivial : wp x (fun _ _ => True) (fun _ => True) s := by
  unfold wp
  rcases x s with ⟨_ | a, s'⟩ <;> trivial

/-- The run that a precondition is about. -/
theorem wp_iff : wp x Q E s ↔
    (∀ a, (x s).1 = some a → Q a (x s).2) ∧ ((x s).1 = none → E (x s).2) := by
  unfold wp
  rcases x s with ⟨_ | a, s'⟩ <;> simp

/-- A program that cannot get stuck returns. -/
theorem wp_total (h : wp x Q (fun _ => False) s) : ∃ a s', x s = (some a, s') ∧ Q a s' := by
  unfold wp at h
  rcases hx : x s with ⟨_ | a, s'⟩ <;> rw [hx] at h
  · exact h.elim
  · exact ⟨a, s', rfl, h⟩

/-! ## Programs that keep an invariant

An invariant of the state that holds at the end of a program however it ends. The rules follow the way a
program is put together.
-/

/-- The program keeps the invariant `I` of the state, also when it gets stuck, and `P` holds of what
    it returns. -/
def Keeps (I : σ → Prop) (x : Eff σ α) (P : α → Prop) : Prop :=
  ∀ s, I s → wp x (fun a s' => P a ∧ I s') I s

section Keeps

variable {I : σ → Prop} {P : α → Prop}

theorem keeps_pure {a : α} (h : P a) : Keeps I (pure a) P := fun _ hs => ⟨h, hs⟩

theorem keeps_stuck : Keeps I (stuck : Eff σ α) P := fun _ hs => hs

theorem keeps_move {f : σ → α × σ} (h : ∀ s, I s → P (f s).1 ∧ I (f s).2) :
    Keeps I (move f) P := h

theorem keeps_modify {f : σ → σ} (h : ∀ s, I s → I (f s)) : Keeps I (modify f) fun _ => True :=
  fun s hs => ⟨trivial, h s hs⟩

theorem keeps_bind {f : α → Eff σ β} {Q : β → Prop} (hx : Keeps I x P)
    (hf : ∀ a, P a → Keeps I (f a) Q) : Keeps I (x >>= f) Q := fun s hs =>
  wp_seq (hx s hs) fun a s' h => hf a h.1 s' h.2

theorem keeps_when {c : Bool} {x : Eff σ Unit} (h : Keeps I x fun _ => True) :
    Keeps I (when c x) fun _ => True := by
  cases c
  · exact keeps_pure trivial
  · exact h

end Keeps

/-! ## Agreement of two programs

Two programs with the same control flow over states that are related. They get stuck together, or return
the same.
-/

/-- From related states the programs return the same, and leave related states. -/
def Agree (R : σ → τ → Prop) (x : Eff σ α) (y : Eff τ α) : Prop :=
  ∀ s t, R s t → (x s).1 = (y t).1 ∧ R (x s).2 (y t).2

variable {R : σ → τ → Prop}

theorem agree_pure (a : α) : Agree R (pure a) (pure a) := fun _ _ h => ⟨rfl, h⟩

theorem agree_stuck : Agree R (stuck : Eff σ α) stuck := fun _ _ h => ⟨rfl, h⟩

theorem agree_move {f : σ → α × σ} {g : τ → α × τ}
    (h : ∀ s t, R s t → (f s).1 = (g t).1 ∧ R (f s).2 (g t).2) : Agree R (move f) (move g) :=
  fun s t hs => ⟨congrArg some (h s t hs).1, (h s t hs).2⟩

theorem agree_modify {f : σ → σ} {g : τ → τ} (h : ∀ s t, R s t → R (f s) (g t)) :
    Agree R (modify f) (modify g) := fun s t hs => ⟨rfl, h s t hs⟩

theorem agree_when {c : Bool} {x : Eff σ Unit} {y : Eff τ Unit} (h : Agree R x y) :
    Agree R (when c x) (when c y) := by
  cases c
  · exact agree_pure ()
  · exact h

theorem agree_bind {x : Eff σ α} {y : Eff τ α} {f : α → Eff σ β} {g : α → Eff τ β}
    (hx : Agree R x y) (hf : ∀ a, Agree R (f a) (g a)) : Agree R (x >>= f) (y >>= g) := by
  intro s t hs
  have h := hx s t hs
  rw [bind_run, bind_run]
  rcases hxs : x s with ⟨_ | a, s'⟩ <;> rcases hyt : y t with ⟨_ | b, t'⟩ <;> rw [hxs, hyt] at h
  · exact ⟨rfl, h.2⟩
  · exact absurd h.1 nofun
  · exact absurd h.1 nofun
  · obtain ⟨hres, hstate⟩ := h
    cases hres
    exact hf a s' t' hstate

/-! ## One program that tracks another

One-sided agreement, up to a state that is marked as bad. It composes when the rest of the program
cannot leave the bad states again.
-/

/-- From related states, when `x` returns in a state that is not `bad`, `y` returns a related result
    in a related state. -/
def Tracks (bad : σ → Prop) (R : σ → τ → Prop) (P : α → β → Prop) (x : Eff σ α) (y : Eff τ β) :
    Prop :=
  ∀ s t, R s t → wp x
    (fun a s' => bad s' ∨ wp y (fun b t' => P a b ∧ R s' t') (fun _ => False) t) (fun _ => True) s

section Tracks

variable {γ δ : Type} {bad : σ → Prop} {P : α → β → Prop} {Q : γ → δ → Prop}

theorem tracks_pure {a : α} {b : β} (h : P a b) : Tracks bad R P (pure a) (pure b) :=
  fun _ _ hR => .inr ⟨h, hR⟩

theorem tracks_stuck {y : Eff τ β} : Tracks bad R P stuck y := fun _ _ _ => trivial

theorem tracks_move {f : σ → α × σ} {g : τ → β × τ}
    (h : ∀ s t, R s t → bad (f s).2 ∨ P (f s).1 (g t).1 ∧ R (f s).2 (g t).2) :
    Tracks bad R P (move f) (move g) := h

theorem tracks_modify {P : Unit → Unit → Prop} {f : σ → σ} {g : τ → τ} (hP : P () ())
    (h : ∀ s t, R s t → R (f s) (g t)) : Tracks bad R P (modify f) (modify g) :=
  fun s t hR => .inr ⟨hP, h s t hR⟩

/-- **Sequencing.** The second half does not get out of a bad state. -/
theorem tracks_bind {x : Eff σ α} {y : Eff τ β} {f : α → Eff σ γ} {g : β → Eff τ δ}
    (hx : Tracks bad R P x y) (hbad : ∀ a, Keeps bad (f a) fun _ => True)
    (hf : ∀ a b, P a b → Tracks bad R Q (f a) (g b)) : Tracks bad R Q (x >>= f) (y >>= g) := by
  intro s t hR
  apply wp_seq (hx s t hR)
  rintro a s' (hs' | hy)
  · exact wp_mono (hbad a s' hs') (fun _ _ h => .inl h.2) fun _ _ => trivial
  · obtain ⟨b, t', hrun, hP, hR'⟩ := wp_total hy
    refine wp_mono (hf a b hP s' t' hR') (fun c s'' h => h.imp_right fun hg => ?_) fun _ => id
    rw [wp_bind, wp, hrun]
    exact hg

/-- Programs that are run on the same condition. -/
theorem tracks_when {c : Bool} {x : Eff σ Unit} {y : Eff τ Unit}
    (h : Tracks bad R (fun _ _ => True) x y) :
    Tracks bad R (fun _ _ => True) (when c x) (when c y) := by
  cases c
  · exact tracks_pure trivial
  · exact h

end Tracks

/-! ## Cut-offs

A loop that is cut off after `n` rounds is below the same loop with a larger bound. All constructions of
programs are monotone in this order.
-/

/-- `y` gets stuck less often than `x`, and is `x` where `x` returns. -/
def Le (x y : Eff σ α) : Prop := ∀ s a s', x s = (some a, s') → y s = (some a, s')

theorem le_refl (x : Eff σ α) : Le x x := fun _ _ _ => id

theorem stuck_le (x : Eff σ α) : Le stuck x := fun _ _ _ h => nomatch h

theorem le_bind {x y : Eff σ α} {f g : α → Eff σ β} (hx : Le x y) (hf : ∀ a, Le (f a) (g a)) :
    Le (x >>= f) (y >>= g) := by
  intro s b s' h
  rw [bind_run] at h ⊢
  rcases hxs : x s with ⟨_ | a, t⟩ <;> rw [hxs] at h
  · cases h
  · rw [hx s a t hxs]
    exact hf a t b s' h

theorem Le.trans {x y z : Eff σ α} (h : Le x y) (h' : Le y z) : Le x z :=
  fun s a s' hx => h' s a s' (h s a s' hx)

/-- The same program in front, of whose results `P` is known. -/
theorem le_bind_post {x : Eff σ α} {f g : α → Eff σ β} {P : α → Prop}
    (h : ∀ s, wp x (fun a _ => P a) (fun _ => True) s) (hf : ∀ a, P a → Le (f a) (g a)) :
    Le (x >>= f) (x >>= g) := by
  intro s b s' hrun
  rw [bind_run] at hrun ⊢
  have hP := (wp_iff.mp (h s)).1
  rcases hx : x s with ⟨_ | a, t⟩ <;> rw [hx] at hrun hP
  · cases hrun
  · exact hf a (hP a rfl) t b s' hrun

end Eff

end CustLib
