import Mathlib.Data.List.Nodup
import CustLib.Lib.Machine

/-!
# First-in first-out service

A history of requests and services, and the queue of those still waiting. `Kind` says what an entry
of the history means to the queue, whatever the entries are. A history that the queue accepts
(`Machine.run (step kind)`) serves its customers fairly:

* `served_before_drained`: who asked is served before the queue is next found empty;
* `asked_between_serves`: who is served again has asked again in between;
* `served_in_order`: who asks while another is waiting is served after the other.
-/

namespace CustLib.Fifo

variable {E K : Type*} [DecidableEq K]

/-! ## The queue

What the entries of a history are is left open; `Kind` is all that the queue wants to know of them. A
customer is in the queue once at most, and asking again does not change its place.
-/

/-- What an entry of the history means to the queue. -/
inductive Kind (K : Type*) where
  | ask (k : K)
  | serve (k : K)
  | leave (k : K)
  | drained
  | other
  deriving DecidableEq, Repr

/-- Where a request leaves the queue: at the end, unless the customer is waiting already. -/
def enqueue (q : List K) (k : K) : List K := if k ∈ q then q else q ++ [k]

theorem mem_enqueue {q : List K} {k l : K} : l ∈ enqueue q k ↔ l ∈ q ∨ l = k := by
  unfold enqueue
  split
  · constructor
    · exact Or.inl
    · rintro (h | rfl) <;> assumption
  · simp

theorem nodup_enqueue {q : List K} (h : q.Nodup) (k : K) : (enqueue q k).Nodup := by
  unfold enqueue
  split
  · exact h
  · next hk => exact List.nodup_append.mpr ⟨h, List.nodup_singleton k, by grind⟩

/-- A request never changes the order of those who wait already. -/
theorem prefix_enqueue (q : List K) (k : K) : q <+: enqueue q k := by
  unfold enqueue
  split
  · exact List.prefix_rfl
  · exact List.prefix_append q [k]

/-- One entry of the history: only the head of the queue is served, and the queue is found empty only
    when it is. -/
def step (kind : E → Kind K) (q : List K) (e : E) : Option (List K) :=
  match kind e with
  | .ask k   => some (enqueue q k)
  | .serve k => if q.head? = some k then some q.tail else none
  | .leave k => some (q.erase k)
  | .drained => if q = [] then some q else none
  | .other   => some q

variable {kind : E → Kind K}

theorem step_serve {q q' : List K} {e : E} {k : K} (hk : kind e = .serve k)
    (h : step kind q e = some q') : q = k :: q' := by
  simp only [step, hk, Option.ite_none_right_eq_some, Option.some.injEq] at h
  obtain ⟨hhead, rfl⟩ := h
  exact (List.head?_eq_some_iff.mp hhead).elim fun _ hq => by simp [hq]

theorem step_drained {q q' : List K} {e : E} (hk : kind e = .drained)
    (h : step kind q e = some q') : q = [] ∧ q' = [] := by
  simp only [step, hk, Option.ite_none_right_eq_some, Option.some.injEq] at h
  obtain ⟨rfl, rfl⟩ := h
  exact ⟨rfl, rfl⟩

theorem step_nodup {q q' : List K} {e : E} (hq : q.Nodup) (h : step kind q e = some q') :
    q'.Nodup := by
  cases hk : kind e with
  | ask k =>
      simp only [step, hk, Option.some.injEq] at h
      exact h ▸ nodup_enqueue hq k
  | serve k => exact (List.nodup_cons.mp (step_serve hk h ▸ hq)).2
  | leave k =>
      simp only [step, hk, Option.some.injEq] at h
      exact h ▸ hq.erase k
  | drained => exact (step_drained hk h).2 ▸ List.nodup_nil
  | other =>
      simp only [step, hk, Option.some.injEq] at h
      exact h ▸ hq

theorem run_nodup {q q' : List K} {log : List E} (hq : q.Nodup)
    (h : Machine.run (step kind) q log = some q') : q'.Nodup :=
  Machine.run_invariant (fun _ _ _ hq h => step_nodup hq h) hq h

/-! ## Staying in the queue, and staying out of it

A customer leaves the queue by being served or by leaving, and enters it by asking. Between these events
it stays where it is.
-/

/-- Who waits keeps waiting unless served or gone. -/
theorem step_stays {q q' : List K} {e : E} {k : K} (hk : k ∈ q) (hserve : kind e ≠ .serve k)
    (hleave : kind e ≠ .leave k) (h : step kind q e = some q') : k ∈ q' := by
  cases he : kind e with
  | ask l =>
      simp only [step, he, Option.some.injEq] at h
      exact h ▸ mem_enqueue.mpr (.inl hk)
  | serve l =>
      have hne : k ≠ l := fun hkl => hserve (hkl ▸ he)
      rw [step_serve he h] at hk
      exact (List.mem_cons.mp hk).resolve_left hne
  | leave l =>
      simp only [step, he, Option.some.injEq] at h
      have hne : k ≠ l := fun hkl => hleave (hkl ▸ he)
      exact h ▸ (List.mem_erase_of_ne hne).mpr hk
  | drained =>
      obtain ⟨rfl, -⟩ := step_drained he h
      exact absurd hk List.not_mem_nil
  | other =>
      simp only [step, he, Option.some.injEq] at h
      exact h ▸ hk

/-- Who is in the queue stays there until it is served or leaves. -/
theorem run_stays {q q' : List K} {log : List E} {k : K} (hk : k ∈ q)
    (hlog : ∀ e ∈ log, kind e ≠ .serve k ∧ kind e ≠ .leave k)
    (h : Machine.run (step kind) q log = some q') : k ∈ q' := by
  induction log generalizing q with
  | nil =>
      cases h
      exact hk
  | cons e log ih =>
      obtain ⟨q₁, h₁, h⟩ := Option.bind_eq_some_iff.mp h
      obtain ⟨hserve, hleave⟩ := hlog e List.mem_cons_self
      exact ih (step_stays hk hserve hleave h₁)
        (fun e' he' => hlog e' (List.mem_cons_of_mem e he')) h

/-- Who does not wait enters by asking only. -/
theorem step_enters {q q' : List K} {e : E} {k : K} (hk : k ∉ q) (hask : kind e ≠ .ask k)
    (h : step kind q e = some q') : k ∉ q' := by
  cases he : kind e with
  | ask l =>
      simp only [step, he, Option.some.injEq] at h
      rw [← h, mem_enqueue]
      rintro (hmem | rfl)
      · exact hk hmem
      · exact hask he
  | serve l =>
      rw [step_serve he h] at hk
      exact fun hmem => hk (List.mem_cons_of_mem l hmem)
  | leave l =>
      simp only [step, he, Option.some.injEq] at h
      exact h ▸ fun hmem => hk (List.mem_of_mem_erase hmem)
  | drained => exact (step_drained he h).2 ▸ List.not_mem_nil
  | other =>
      simp only [step, he, Option.some.injEq] at h
      exact h ▸ hk

/-- Who is not in the queue stays out of it until it asks. -/
theorem run_enters {q q' : List K} {log : List E} {k : K} (hk : k ∉ q)
    (hlog : ∀ e ∈ log, kind e ≠ .ask k) (h : Machine.run (step kind) q log = some q') :
    k ∉ q' := by
  induction log generalizing q with
  | nil =>
      cases h
      exact hk
  | cons e log ih =>
      obtain ⟨q₁, h₁, h⟩ := Option.bind_eq_some_iff.mp h
      exact ih (step_enters hk (hlog e List.mem_cons_self) h₁)
        (fun e' he' => hlog e' (List.mem_cons_of_mem e he')) h

/-- `k` has asked, and was neither served nor gone since. -/
def Waiting (kind : E → Kind K) (log : List E) (k : K) : Prop :=
  ∃ a e b, log = a ++ e :: b ∧ kind e = .ask k ∧
    ∀ e' ∈ b, kind e' ≠ .serve k ∧ kind e' ≠ .leave k

theorem mem_of_waiting {q : List K} {log : List E} {k : K}
    (h : Machine.run (step kind) [] log = some q) (hk : Waiting kind log k) : k ∈ q := by
  obtain ⟨a, e, b, rfl, he, hb⟩ := hk
  obtain ⟨q₁, -, h⟩ := Machine.run_split h
  obtain ⟨q₂, h₂, h⟩ := Option.bind_eq_some_iff.mp h
  simp only [step, he, Option.some.injEq] at h₂
  exact run_stays (h₂ ▸ mem_enqueue.mpr (.inr rfl)) hb h

omit [DecidableEq K] in
theorem Waiting.concat {log : List E} {e : E} {k : K} (h : Waiting kind log k)
    (hserve : kind e ≠ .serve k) (hleave : kind e ≠ .leave k) :
    Waiting kind (log ++ [e]) k := by
  obtain ⟨a, e₀, b, rfl, he₀, hb⟩ := h
  refine ⟨a, e₀, b ++ [e], by simp, he₀, ?_⟩
  intro e' he'
  rcases List.mem_append.mp he' with he' | he'
  · exact hb e' he'
  · obtain rfl := List.mem_singleton.mp he'
    exact ⟨hserve, hleave⟩

/-- The queue holds those who wait. -/
theorem waiting_of_mem {q : List K} {log : List E} {k : K}
    (h : Machine.run (step kind) [] log = some q) (hk : k ∈ q) : Waiting kind log k := by
  induction log using List.reverseRecOn generalizing q with
  | nil =>
      cases h
      exact absurd hk List.not_mem_nil
  | append_singleton log e ih =>
      obtain ⟨q₁, h₁, he⟩ := Machine.run_concat_iff.mp h
      by_cases hask : kind e = .ask k
      · exact ⟨log, e, [], rfl, hask, fun _ he' => absurd he' List.not_mem_nil⟩
      · have hk₁ : k ∈ q₁ := by
          by_contra hnot
          exact step_enters hnot hask he hk
        have hnodup := run_nodup List.nodup_nil h₁
        refine (ih h₁ hk₁).concat ?_ ?_
        · intro hserve
          rw [step_serve hserve he] at hnodup
          exact (List.nodup_cons.mp hnodup).1 hk
        · intro hleave
          simp only [step, hleave, Option.some.injEq] at he
          exact hnodup.not_mem_erase (he ▸ hk)

/-! ## Order

Requests are put at the end, so who is ahead of another stays ahead of it as long as neither is served
nor leaves.
-/

/-- `k` is in the queue, and `l` is not ahead of it. -/
def Ahead (q : List K) (k l : K) : Prop := ∃ x y, q = x ++ k :: y ∧ l ∉ x

/-- Nobody is served before those that are ahead of it. -/
theorem step_ahead {q q' : List K} {e : E} {k l : K} (hq : Ahead q k l)
    (hserve : kind e ≠ .serve k) (hleave : kind e ≠ .leave k) (h : step kind q e = some q') :
    Ahead q' k l ∧ kind e ≠ .serve l := by
  obtain ⟨x, y, rfl, hx⟩ := hq
  cases he : kind e with
  | ask m =>
      simp only [step, he, Option.some.injEq] at h
      obtain ⟨z, hz⟩ := prefix_enqueue (x ++ k :: y) m
      exact ⟨⟨x, y ++ z, by rw [← h, ← hz]; simp, hx⟩, nofun⟩
  | serve m =>
      have hm := step_serve he h
      cases x with
      | nil =>
          obtain ⟨rfl, -⟩ := List.cons.inj hm
          exact absurd he hserve
      | cons x₀ x =>
          obtain ⟨rfl, hq'⟩ := List.cons.inj hm
          refine ⟨⟨x, y, hq'.symm, fun hl => hx (List.mem_cons_of_mem _ hl)⟩, ?_⟩
          rintro ⟨⟩
          exact hx List.mem_cons_self
  | leave m =>
      simp only [step, he, Option.some.injEq] at h
      have hmk : k ≠ m := fun hkm => hleave (hkm ▸ he)
      refine ⟨?_, nofun⟩
      -- the key that leaves is in front of `k`, or behind
      by_cases hm : m ∈ x
      · refine ⟨x.erase m, y, ?_, fun hl => hx (List.mem_of_mem_erase hl)⟩
        rw [← h, List.erase_append_left _ hm]
      · refine ⟨x, y.erase m, ?_, hx⟩
        rw [← h, List.erase_append_right _ hm, List.erase_cons_tail (by simpa using hmk)]
  | drained =>
      have hnil := (step_drained he h).1
      simp at hnil
  | other =>
      simp only [step, he, Option.some.injEq] at h
      exact ⟨⟨x, y, h.symm, hx⟩, nofun⟩

/-- Nobody is served ahead of who waits ahead. -/
theorem run_ahead {q q' : List K} {log : List E} {k l : K} (hq : Ahead q k l)
    (hlog : ∀ e ∈ log, kind e ≠ .serve k ∧ kind e ≠ .leave k)
    (h : Machine.run (step kind) q log = some q') : Ahead q' k l ∧ ∀ e ∈ log, kind e ≠ .serve l := by
  induction log generalizing q with
  | nil =>
      cases h
      exact ⟨hq, fun _ he => absurd he List.not_mem_nil⟩
  | cons e log ih =>
      obtain ⟨q₁, h₁, h⟩ := Option.bind_eq_some_iff.mp h
      obtain ⟨hserve, hleave⟩ := hlog e List.mem_cons_self
      obtain ⟨hq₁, hl⟩ := step_ahead hq hserve hleave h₁
      obtain ⟨hq', hrest⟩ := ih hq₁ (fun e' he' => hlog e' (List.mem_cons_of_mem e he')) h
      refine ⟨hq', ?_⟩
      intro e' he'
      rcases List.mem_cons.mp he' with rfl | he'
      · exact hl
      · exact hrest e' he'

/-! ## Fair service

The three properties of the header, for any history that the queue accepts from the empty queue on.
-/

/-- **No request is lost.** Who asked is served before the queue is next found empty. -/
theorem served_before_drained {pre mid post : List E} {e d : E} {k : K} {q : List K}
    (h : Machine.run (step kind) [] (pre ++ e :: mid ++ d :: post) = some q)
    (he : kind e = .ask k) (hd : kind d = .drained) (hleave : ∀ e' ∈ mid, kind e' ≠ .leave k) :
    ∃ e' ∈ mid, kind e' = .serve k := by
  by_contra hnone
  push Not at hnone
  obtain ⟨q₁, h₁, h₂⟩ := Machine.run_split h
  obtain ⟨q₂, hstep, -⟩ := Option.bind_eq_some_iff.mp h₂
  have hwait : Waiting kind (pre ++ e :: mid) k :=
    ⟨pre, e, mid, rfl, he, fun e' he' => ⟨hnone e' he', hleave e' he'⟩⟩
  have hmem := mem_of_waiting h₁ hwait
  rw [(step_drained hd hstep).1] at hmem
  exact List.not_mem_nil hmem

/-- **No request is served twice.** Who is served again has asked in between. -/
theorem asked_between_serves {pre mid post : List E} {e e' : E} {k : K} {q : List K}
    (h : Machine.run (step kind) [] (pre ++ e :: mid ++ e' :: post) = some q)
    (he : kind e = .serve k) (he' : kind e' = .serve k) : ∃ r ∈ mid, kind r = .ask k := by
  by_contra hnone
  push Not at hnone
  obtain ⟨q₁, h₁, h₂⟩ := Machine.run_split h
  obtain ⟨q₂, hstep, -⟩ := Option.bind_eq_some_iff.mp h₂
  obtain ⟨q₀, h₀, h₁⟩ := Machine.run_split h₁
  obtain ⟨q₀', hstep₀, h₁⟩ := Option.bind_eq_some_iff.mp h₁
  have hnodup := run_nodup List.nodup_nil h₀
  rw [step_serve he hstep₀] at hnodup
  have hout := run_enters (List.nodup_cons.mp hnodup).1 hnone h₁
  rw [step_serve he' hstep] at hout
  exact hout List.mem_cons_self

/-- **First in, first out.** Who asks while `k` waits is served after `k`. -/
theorem served_in_order {pre mid post : List E} {r e : E} {k l : K} {q : List K}
    (h : Machine.run (step kind) [] (pre ++ r :: mid ++ e :: post) = some q)
    (hk : Waiting kind pre k) (hl : ¬ Waiting kind pre l) (hr : kind r = .ask l)
    (he : kind e = .serve l) (hleave : ∀ e' ∈ mid, kind e' ≠ .leave k) :
    ∃ e' ∈ mid, kind e' = .serve k := by
  by_contra hnone
  push Not at hnone
  obtain ⟨q₁, h₁, h₂⟩ := Machine.run_split h
  obtain ⟨q₂, hstep, -⟩ := Option.bind_eq_some_iff.mp h₂
  obtain ⟨q₀, h₀, h₁⟩ := Machine.run_split h₁
  obtain ⟨q₀', hstep₀, h₁⟩ := Option.bind_eq_some_iff.mp h₁
  have hkq := mem_of_waiting h₀ hk
  have hlq : l ∉ q₀ := fun hmem => hl (waiting_of_mem h₀ hmem)
  have hkl : k ≠ l := fun hkl => hlq (hkl ▸ hkq)
  -- `l` was enqueued behind `k`, and stays there
  have hahead : Ahead q₀' k l := by
    simp only [step, hr, enqueue, if_neg hlq, Option.some.injEq] at hstep₀
    obtain ⟨x, y, rfl⟩ := List.append_of_mem hkq
    exact ⟨x, y ++ [l], by simp [← hstep₀], fun hx => hlq (List.mem_append_left _ hx)⟩
  obtain ⟨hahead₁, -⟩ :=
    run_ahead hahead (fun e' he' => ⟨hnone e' he', hleave e' he'⟩) h₁
  obtain ⟨-, hne⟩ := step_ahead (e := e) hahead₁ (by simp [he, hkl.symm]) (by simp [he]) hstep
  exact hne he

/-! ## Bounded waiting

Who is served between a request and its service was in the queue before the request, and is served once
at most. So the wait is bounded by the length of the queue.
-/

def served? (kind : E → Kind K) (e : E) : Option K :=
  match kind e with
  | .serve k => some k
  | _ => none

def served (kind : E → Kind K) (log : List E) : List K := log.filterMap (served? kind)

omit [DecidableEq K] in
theorem mem_served {log : List E} {k : K} : k ∈ served kind log ↔ ∃ e ∈ log, kind e = .serve k := by
  unfold served
  rw [List.mem_filterMap]
  refine exists_congr fun e => and_congr_right fun _ => ?_
  cases hk : kind e <;> simp [served?, hk]

omit [DecidableEq K] in
theorem served_cons (e : E) (log : List E) :
    served kind (e :: log) = (served? kind e).toList ++ served kind log := by
  unfold served
  rw [List.filterMap_cons]
  cases served? kind e <;> rfl

/-- Of those in front of `k`, one may be served or leave. -/
theorem step_bypass {q q' x y : List K} {e : E} {k : K} (hq : q = x ++ k :: y)
    (hserve : kind e ≠ .serve k) (hleave : kind e ≠ .leave k) (h : step kind q e = some q') :
    ∃ x' y', q' = x' ++ k :: y' ∧ ((served? kind e).toList ++ x').Sublist x := by
  subst hq
  cases he : kind e with
  | ask l =>
      simp only [step, he, Option.some.injEq] at h
      obtain ⟨z, hz⟩ := prefix_enqueue (x ++ k :: y) l
      exact ⟨x, y ++ z, by rw [← h, ← hz]; simp, by simp [served?, he]⟩
  | serve l =>
      have hl := step_serve he h
      cases x with
      | nil =>
          obtain ⟨rfl, -⟩ := List.cons.inj hl
          exact absurd he hserve
      | cons x₀ x =>
          obtain ⟨rfl, hq'⟩ := List.cons.inj hl
          exact ⟨x, y, hq'.symm, by simp [served?, he]⟩
  | leave l =>
      simp only [step, he, Option.some.injEq] at h
      have hlk : k ≠ l := fun hkl => hleave (hkl ▸ he)
      have hnone : (served? kind e).toList = [] := by simp [served?, he]
      rw [hnone]
      by_cases hl : l ∈ x
      · exact ⟨x.erase l, y, by rw [← h, List.erase_append_left _ hl], List.erase_sublist⟩
      · refine ⟨x, y.erase l, ?_, List.Sublist.refl x⟩
        rw [← h, List.erase_append_right _ hl, List.erase_cons_tail (by simpa using hlk)]
  | drained =>
      have hnil := (step_drained he h).1
      simp at hnil
  | other =>
      simp only [step, he, Option.some.injEq] at h
      exact ⟨x, y, h.symm, by simp [served?, he]⟩

/-- While `k` waits, those in front of it are served, in their order. -/
theorem run_bypass {q q' x y : List K} {log : List E} {k : K} (hq : q = x ++ k :: y)
    (hlog : ∀ e ∈ log, kind e ≠ .serve k ∧ kind e ≠ .leave k)
    (h : Machine.run (step kind) q log = some q') :
    ∃ x' y', q' = x' ++ k :: y' ∧ (served kind log ++ x').Sublist x := by
  induction log generalizing q x y with
  | nil =>
      cases h
      exact ⟨x, y, hq, List.Sublist.refl x⟩
  | cons e log ih =>
      obtain ⟨q₁, h₁, h⟩ := Option.bind_eq_some_iff.mp h
      obtain ⟨hserve, hleave⟩ := hlog e List.mem_cons_self
      obtain ⟨x₁, y₁, hq₁, hsub₁⟩ := step_bypass hq hserve hleave h₁
      obtain ⟨x', y', hq', hsub⟩ := ih hq₁ (fun e' he' => hlog e' (List.mem_cons_of_mem e he')) h
      refine ⟨x', y', hq', ?_⟩
      rw [served_cons, List.append_assoc]
      exact ((List.append_sublist_append_left _).mpr hsub).trans hsub₁

/-- **Bounded waiting.** Until who asked is served, only those who waited already are, each once and
    in their order. -/
theorem served_once_ahead {pre mid : List E} {r : E} {k : K} {q : List K}
    (h : Machine.run (step kind) [] (pre ++ r :: mid) = some q) (hr : kind r = .ask k)
    (hmid : ∀ e ∈ mid, kind e ≠ .serve k ∧ kind e ≠ .leave k) :
    ∃ ahead : List K, (served kind mid).Sublist ahead ∧ ahead.Nodup ∧ k ∉ ahead ∧
      ∀ l ∈ ahead, Waiting kind pre l := by
  obtain ⟨q₀, h₀, h₁⟩ := Machine.run_split h
  obtain ⟨q₁, hstep, h₁⟩ := Option.bind_eq_some_iff.mp h₁
  simp only [step, hr, Option.some.injEq] at hstep
  have hnodup := run_nodup List.nodup_nil h₀
  -- those in front of `k` when it has asked
  obtain ⟨x, y, hq₁, hx, hk, hmem⟩ : ∃ x y, q₁ = x ++ k :: y ∧ x.Nodup ∧ k ∉ x ∧ ∀ l ∈ x, l ∈ q₀ := by
    by_cases hk : k ∈ q₀
    · obtain ⟨x, y, rfl⟩ := List.append_of_mem hk
      obtain ⟨hx, -, hdisjoint⟩ := List.nodup_append.mp hnodup
      refine ⟨x, y, ?_, hx, fun hkx => hdisjoint k hkx k List.mem_cons_self rfl, ?_⟩
      · rw [← hstep, enqueue, if_pos hk]
      · exact fun l hl => List.mem_append_left _ hl
    · exact ⟨q₀, [], by rw [← hstep, enqueue, if_neg hk], hnodup, hk, fun _ hl => hl⟩
  obtain ⟨x', y', -, hsub⟩ := run_bypass hq₁ hmid h₁
  exact ⟨x, (List.sublist_append_left _ _).trans hsub, hx, hk,
    fun l hl => waiting_of_mem h₀ (hmem l hl)⟩

/-- The entry is a request. -/
def asks (kind : E → Kind K) (e : E) : Bool :=
  match kind e with
  | .ask _ => true
  | _ => false

/-- **Nobody is served without asking.** Every service answers a request of its own. -/
theorem served_length_le {log : List E} {q : List K}
    (h : Machine.run (step kind) [] log = some q) :
    (served kind log).length + q.length ≤ log.countP (asks kind) := by
  induction log using List.reverseRecOn generalizing q with
  | nil =>
      cases h
      exact Nat.le_refl _
  | append_singleton log e ih =>
      obtain ⟨q₁, h₁, he⟩ := Machine.run_concat_iff.mp h
      have ih := ih h₁
      rw [served, List.filterMap_append, List.length_append, List.countP_append]
      rw [served] at ih
      cases hk : kind e with
      | ask k =>
          simp only [step, hk, Option.some.injEq] at he
          have hlen : q.length ≤ q₁.length + 1 := by
            rw [← he, enqueue]
            split
            · exact Nat.le_succ _
            · simp
          simp [served?, asks, hk]
          omega
      | serve k =>
          have hq₁ := step_serve hk he
          simp [served?, asks, hk, hq₁] at ih ⊢
          omega
      | leave k =>
          simp only [step, hk, Option.some.injEq] at he
          have hlen : q.length ≤ q₁.length := he ▸ List.erase_sublist.length_le
          simp [served?, asks, hk]
          omega
      | drained =>
          obtain ⟨rfl, rfl⟩ := step_drained hk he
          simpa [served?, asks, hk] using ih
      | other =>
          simp only [step, hk, Option.some.injEq] at he
          subst he
          simpa [served?, asks, hk] using ih

end CustLib.Fifo
