import Mathlib.Data.Multiset.Count
import Mathlib.Data.Multiset.MapFold
import CustLib.Lib.History

/-!
# Custody of numbered resources

A history of resources that are born, used, finished and released. Whoever holds a resource has its
token: `active` until the resource is finished, then `spent`. `Owns log n s` says that the history
`log` has handed out the numbers below `n` and that exactly the tokens `s` are held after it. A token
is needed for every event, so such a history is orderly: nothing is used after it was finished or
released, nothing is released twice, and what was born and is no longer held was released once.

The tokens are a multiset. A part of a program is specified by the tokens it takes and gives back, in
front of arbitrary other tokens that it leaves alone.
-/

namespace CustLib.Custody

open CustLib.History (concat_eq_split)

/-! ## Tokens

One kind of event for each thing that can happen to a resource. Births are numbered, so two resources
never share a name.
-/

inductive Event where
  | born (id : Nat)
  | used (id : Nat)
  | finished (id : Nat)
  | released (id : Nat)
  deriving DecidableEq, Repr

inductive Token where
  | active (id : Nat)
  | spent (id : Nat)
  deriving DecidableEq, Repr

def Token.id : Token → Nat
  | .active id => id
  | .spent id  => id

@[simp] theorem Token.id_active (id : Nat) : (Token.active id).id = id := rfl

@[simp] theorem Token.id_spent (id : Nat) : (Token.spent id).id = id := rfl

inductive Owns : List Event → Nat → Multiset Token → Prop
  | nil : Owns [] 0 0
  | born {log n s} : Owns log n s → Owns (log ++ [.born n]) (n + 1) (.active n ::ₘ s)
  | used {log n id s} : Owns log n (.active id ::ₘ s) →
      Owns (log ++ [.used id]) n (.active id ::ₘ s)
  | finished {log n id s} : Owns log n (.active id ::ₘ s) →
      Owns (log ++ [.finished id]) n (.spent id ::ₘ s)
  | released {log n t s} : Owns log n (t ::ₘ s) → Owns (log ++ [.released t.id]) n s

/-- Nothing is used after it was finished or released, and nothing is released twice. -/
structure Orderly (log : List Event) : Prop where
  used     : ∀ pre id post, log = pre ++ .used id :: post →
    .finished id ∉ pre ∧ .released id ∉ pre
  released : ∀ id, log.count (.released id) ≤ 1

/-! ## Every history is orderly

The induction is on the history, and carries what the tokens mean: an active token says that its
resource was born and neither finished nor released, a spent one that it was finished. A resource
without a token has been released.
-/

/-- What a history says about the tokens that are held after it. -/
structure Facts (log : List Event) (n : Nat) (s : Multiset Token) : Prop where
  born     : ∀ id, .born id ∈ log ↔ id < n
  count    : ∀ id, log.count (.released id) + (s.map Token.id).count id = if id < n then 1 else 0
  finished : ∀ id, .finished id ∈ log → id < n
  active   : ∀ id, .active id ∈ s → .finished id ∉ log
  used     : ∀ pre id post, log = pre ++ .used id :: post →
    .finished id ∉ pre ∧ .released id ∉ pre

namespace Facts

variable {log : List Event} {n : Nat} {s : Multiset Token}

theorem held_pos {t : Token} (ht : t ∈ s) : 0 < (s.map Token.id).count t.id :=
  Multiset.count_pos.mpr (Multiset.mem_map_of_mem Token.id ht)

/-- What is held was handed out. -/
theorem lt_of_mem (h : Facts log n s) {t : Token} (ht : t ∈ s) : t.id < n := by
  have hcount := h.count t.id
  have hpos := held_pos ht
  split at hcount <;> omega

/-- What is held has not been released. -/
theorem not_released (h : Facts log n s) {t : Token} (ht : t ∈ s) : .released t.id ∉ log := by
  have hcount := h.count t.id
  have hpos := held_pos ht
  apply List.count_eq_zero.mp
  split at hcount <;> omega

/-- There is one token for a resource. -/
theorem not_mem_tail {t u : Token} (h : Facts log n (t ::ₘ s)) (hu : u ∈ s) : u.id ≠ t.id := by
  intro heq
  have hcount := h.count t.id
  have hpos := held_pos hu
  rw [heq] at hpos
  rw [Multiset.map_cons, Multiset.count_cons_self] at hcount
  split at hcount <;> omega

/-- An event that is not a use keeps the facts about uses. -/
theorem used_snoc (h : Facts log n s) {e : Event} (he : ∀ id, e ≠ .used id) (pre : List Event)
    (id : Nat) (post : List Event) (heq : log ++ [e] = pre ++ .used id :: post) :
    .finished id ∉ pre ∧ .released id ∉ pre := by
  rcases concat_eq_split heq with ⟨post', hold⟩ | ⟨-, hnew⟩
  · exact h.used pre id post' hold
  · exact absurd hnew (he id)

end Facts

theorem Owns.facts {log : List Event} {n : Nat} {s : Multiset Token} (h : Owns log n s) :
    Facts log n s := by
  induction h with
  | nil => exact ⟨by simp, by simp, by simp, by simp, by simp⟩
  | @born log n s _ ih =>
      constructor
      case born =>
        intro id
        simp only [List.mem_append, List.mem_singleton, Event.born.injEq, ih.born id]
        omega
      case count =>
        intro id
        have hcount := ih.count id
        -- one more id that was given out, and one more token
        simp only [List.count_append, Multiset.map_cons, Token.id_active, Multiset.count_cons,
          List.count_eq_zero.mpr (show Event.released id ∉ [Event.born n] by simp)]
        split at hcount <;> split <;> split <;> omega
      case finished =>
        intro id hid
        have := ih.finished id (by simpa using hid)
        omega
      case active =>
        intro id hid hfin
        have hlt := ih.finished id (by simpa using hfin)
        rcases Multiset.mem_cons.mp hid with heq | hid
        · cases heq
          exact Nat.lt_irrefl _ hlt
        · exact ih.active id hid (by simpa using hfin)
      case used => exact ih.used_snoc nofun
  | @used log n id s _ ih =>
      have hmem : Token.active id ∈ Token.active id ::ₘ s := Multiset.mem_cons_self _ _
      constructor
      case born => simpa using ih.born
      case count => simpa [List.count_append] using ih.count
      case finished => simpa using ih.finished
      case active => simpa using ih.active
      case used =>
        intro pre id' post heq
        rcases concat_eq_split heq with ⟨post', hold⟩ | ⟨rfl, hnew⟩
        · exact ih.used pre id' post' hold
        · cases hnew
          -- the token in front is active, so nothing was finished or released under its id
          exact ⟨ih.active id hmem, ih.not_released hmem⟩
  | @finished log n id s _ ih =>
      have hlt := ih.lt_of_mem (Multiset.mem_cons_self (Token.active id) s)
      constructor
      case born => simpa using ih.born
      case count => simpa [List.count_append] using ih.count
      case finished =>
        intro id' hid'
        rcases List.mem_append.mp hid' with hid' | hid'
        · exact ih.finished id' hid'
        · simp only [List.mem_singleton, Event.finished.injEq] at hid'
          exact hid' ▸ hlt
      case active =>
        intro id' hid'
        have hs : Token.active id' ∈ s := by simpa using hid'
        -- an id has one token, so the others are not affected
        have hne : id' ≠ id := ih.not_mem_tail hs
        simpa [hne] using ih.active id' (Multiset.mem_cons_of_mem hs)
      case used => exact ih.used_snoc nofun
  | @released log n t s _ ih =>
      constructor
      case born => simpa using ih.born
      case count =>
        intro id
        have hcount := ih.count id
        simp only [Multiset.map_cons, Multiset.count_cons] at hcount
        simp only [List.count_append, List.count_singleton]
        by_cases hid : id = t.id
        · subst hid
          simp only [if_true] at hcount
          simpa using by omega
        · simp only [hid, if_false] at hcount
          simpa [Ne.symm hid] using hcount
      case finished => simpa using ih.finished
      case active => exact fun id hid => by simpa using ih.active id (Multiset.mem_cons_of_mem hid)
      case used => exact ih.used_snoc nofun

/-- **Histories are orderly.** -/
theorem Owns.orderly {log : List Event} {n : Nat} {s : Multiset Token} (h : Owns log n s) :
    Orderly log := by
  refine ⟨h.facts.used, fun id => ?_⟩
  have hcount := h.facts.count id
  split at hcount <;> omega

/-- **Nothing leaks.** When nothing is held any more, everything that was born was released once. -/
theorem Owns.released_once {log : List Event} {n : Nat} (h : Owns log n 0) {id : Nat}
    (hid : .born id ∈ log) : log.count (.released id) = 1 := by
  have hcount := h.facts.count id
  rw [if_pos ((h.facts.born id).mp hid)] at hcount
  simpa using hcount

/-- The held resources are all different. -/
theorem Owns.nodup {log : List Event} {n : Nat} {s : Multiset Token} (h : Owns log n s) :
    (s.map Token.id).Nodup := by
  rw [Multiset.nodup_iff_count_le_one]
  intro id
  have hcount := h.facts.count id
  split at hcount <;> omega

/-! ## Tokens in any state

Whoever drops a resource need not know whether it was finished. `Over s ids` hides the states of the
tokens, and splits along sums like a multiset.
-/

/-- The tokens of the resources `ids`, each in either state. -/
def Over (toks : Multiset Token) (ids : Multiset Nat) : Prop := toks.map Token.id = ids

theorem over_zero : Over 0 0 := rfl

theorem Over.cons {toks : Multiset Token} {ids : Multiset Nat} (h : Over toks ids) (t : Token) :
    Over (t ::ₘ toks) (t.id ::ₘ ids) := by
  rw [Over, Multiset.map_cons, h]

theorem Over.add {toks toks' : Multiset Token} {ids ids' : Multiset Nat} (h : Over toks ids)
    (h' : Over toks' ids') : Over (toks + toks') (ids + ids') := by
  rw [Over, Multiset.map_add, h, h']

theorem over_active (ids : Multiset Nat) : Over (ids.map .active) ids := by
  rw [Over, Multiset.map_map]
  exact Multiset.map_id' ids

theorem over_zero_iff {toks : Multiset Token} : Over toks 0 ↔ toks = 0 := Multiset.map_eq_zero

theorem over_cons_iff {toks : Multiset Token} {id : Nat} {ids : Multiset Nat} :
    Over toks (id ::ₘ ids) ↔ ∃ t toks', toks = t ::ₘ toks' ∧ t.id = id ∧ Over toks' ids := by
  constructor
  · intro h
    obtain ⟨t, ht, hid, hrest⟩ := (Multiset.map_eq_cons Token.id toks ids id).mpr h
    exact ⟨t, toks.erase t, (Multiset.cons_erase ht).symm, hid, hrest⟩
  · rintro ⟨t, toks', rfl, rfl, h⟩
    exact h.cons t

theorem over_add_iff {toks : Multiset Token} {ids ids' : Multiset Nat} :
    Over toks (ids + ids') ↔ ∃ ta tb, toks = ta + tb ∧ Over ta ids ∧ Over tb ids' := by
  constructor
  · intro h
    induction ids using Multiset.induction_on generalizing toks with
    | empty => exact ⟨0, toks, (Multiset.zero_add toks).symm, over_zero, by rwa [Multiset.zero_add] at h⟩
    | cons id ids ih =>
        rw [Multiset.cons_add] at h
        obtain ⟨t, rest, rfl, rfl, hrest⟩ := over_cons_iff.mp h
        obtain ⟨ta, tb, rfl, ha, hb⟩ := ih hrest
        exact ⟨t ::ₘ ta, tb, (Multiset.cons_add t ta tb).symm, ha.cons t, hb⟩
  · rintro ⟨ta, tb, rfl, ha, hb⟩
    exact ha.add hb

end CustLib.Custody
