import CustLib.Execution.SleepTree

/-!
# Parking on a fake clock

The park hook moves the clock to the earliest deadline and fires the timers that are due then
(`reactorPark_spec`). When no timer was due before, none is passed over, and the reactor and the cells
stay in step.
-/

namespace CustLib.Exec

/-! ## The park of a fake clock

Between the polls of a run no timer is due: each task polled has seen the present reading. So the park
moves the clock forward, to a deadline that some tasks wait for, and wakes exactly those.
-/

/-- The cells whose timers are pending. -/
theorem mem_timerOf {now : Nat} {C : Multiset Cell} {id deadline : Nat} {waker : TaskId} :
    (⟨id, deadline, waker⟩ : Timer) ∈ C.bind (timerOf now) ↔
      now < deadline ∧ ∃ dur, (id, RtLeaf.sleep dur true deadline waker) ∈ C := by
  rw [Multiset.mem_bind]
  constructor
  · rintro ⟨⟨i, l⟩, hc, ht⟩
    rcases l with _ | _ | ⟨dur, _ | _, d, w⟩
    · exact absurd ht (Multiset.notMem_zero _)
    · exact absurd ht (Multiset.notMem_zero _)
    · exact absurd ht (Multiset.notMem_zero _)
    · rw [timerOf] at ht
      split at ht
      next hlt =>
        cases Multiset.mem_singleton.mp ht
        exact ⟨hlt, dur, hc⟩
      · exact absurd ht (Multiset.notMem_zero _)
  · rintro ⟨hlt, dur, hc⟩
    exact ⟨_, hc, by simp [timerOf, hlt]⟩

/-- The timers that are pending later are the late ones of those pending now. -/
theorem timerOf_later {now now' : Nat} (h : now ≤ now') (c : Cell) :
    timerOf now' c = (timerOf now c).filter fun t => now' < t.deadline := by
  obtain ⟨id, l⟩ := c
  rcases l with _ | _ | ⟨dur, _ | _, deadline, waker⟩
  · rfl
  · rfl
  · rfl
  · by_cases hlt : now' < deadline
    · have hlt' : now < deadline := Nat.lt_of_le_of_lt h hlt
      simp [timerOf, hlt, hlt', Multiset.filter_singleton]
    · by_cases hlt' : now < deadline
      · simp [timerOf, hlt, hlt', Multiset.filter_singleton]
      · simp [timerOf, hlt, hlt']

/-- The timers that stay are the late ones. -/
theorem fireDue_stay_eq {now : Nat} {pending : List Timer}
    (hsorted : pending.Pairwise fun s t => s.deadline ≤ t.deadline) :
    (fireDue now pending).2 = pending.filter fun t => now < t.deadline := by
  have happend := fireDue_append now pending
  conv_rhs => rw [← happend]
  rw [List.filter_append]
  have hdue : (fireDue now pending).1.filter (fun t => now < t.deadline) = [] := by
    rw [List.filter_eq_nil_iff]
    intro t ht
    simpa using fireDue_fired now pending t ht
  have hstay : (fireDue now pending).2.filter (fun t => now < t.deadline) =
      (fireDue now pending).2 := by
    rw [List.filter_eq_self]
    intro t ht
    simpa using fireDue_late hsorted t ht
  rw [hdue, hstay, List.nil_append]

/-- What the cells can still do changes with their pending timers only. -/
theorem workOf_timers (now now' : Nat) (C : Multiset Cell) :
    workOf now C + (C.bind (timerOf now')).card = workOf now' C + (C.bind (timerOf now)).card := by
  have hcell : ∀ c, work now c + (timerOf now' c).card = work now' c + (timerOf now c).card := by
    rintro ⟨id, l⟩
    rcases l with _ | ⟨_ | _⟩ | ⟨dur, _ | _, deadline, waker⟩
    · rfl
    · rfl
    · rfl
    · rfl
    · by_cases hlt : now < deadline <;> by_cases hlt' : now' < deadline <;>
        simp [work, timerOf, hlt, hlt']
  induction C using Multiset.induction with
  | empty => rfl
  | cons c C ih =>
      have hc := hcell c
      rw [← Multiset.singleton_add, workOf_add, workOf_add, Multiset.add_bind, Multiset.add_bind,
        Multiset.card_add, Multiset.card_add, Multiset.singleton_bind, Multiset.singleton_bind]
      have hone : ∀ now, workOf now {c} = work now c := fun now => Multiset.sum_singleton _
      rw [hone, hone]
      omega

/-- The hook has moved the clock to the earliest deadline, which `woken` were waiting for. -/
structure Parked (C : Multiset Cell) (m : Reactor) (woken : List TaskId) (m' : Reactor) : Prop where
  good  : Good C m'
  clock : m.clock ≤ m'.clock
  work  : workOf m'.clock C + woken.length = workOf m.clock C
  some  : woken ≠ []
  woken : ∀ t, t ∈ woken ↔
    ∃ id dur deadline, (id, RtLeaf.sleep dur true deadline t) ∈ C ∧ deadline ≤ m'.clock

/-- The timers that fire are those that are due. -/
theorem mem_fireDue {now : Nat} {pending : List Timer}
    (hsorted : pending.Pairwise fun s t => s.deadline ≤ t.deadline) (t : Timer) :
    t ∈ (fireDue now pending).1 ↔ t ∈ pending ∧ t.deadline ≤ now := by
  have happend : t ∈ pending ↔ t ∈ (fireDue now pending).1 ∨ t ∈ (fireDue now pending).2 := by
    rw [← List.mem_append, fireDue_append]
  constructor
  · exact fun ht => ⟨happend.mpr (.inl ht), fireDue_fired now pending t ht⟩
  · rintro ⟨ht, hle⟩
    apply (happend.mp ht).resolve_right
    intro hstay
    exact absurd hle (Nat.not_le.mpr (fireDue_late hsorted t hstay))

/-- Two cells at one address are the same. -/
theorem Good.cell_unique {C : Multiset Cell} {m : Reactor} (h : Good C m) {c c' : Cell} (hc : c ∈ C)
    (hc' : c' ∈ C) (heq : c.1 = c'.1) : c = c' :=
  Multiset.inj_on_of_nodup_map h.nodup c hc c' hc' heq

/-- The clock is moved to the earliest deadline, and the timers that are due then are fired. -/
theorem Good.fire {C : Multiset Cell} {m : Reactor} (h : Good C m) {now : Nat}
    (hlate : ∀ id deadline, ArmedAt C id deadline → m.clock < deadline ∧ now ≤ deadline)
    (hnow : m.clock ≤ now) (hsome : ∃ id, ArmedAt C id now) :
    Good C { m with clock := now, pending := (fireDue now m.pending).2,
                    fired := fun i => m.fired i || (fireDue now m.pending).1.any (·.id = i) } := by
  obtain ⟨top, htop, hbelow, hroom⟩ := h.room
  constructor
  case sorted =>
    show (fireDue now m.pending).2.Pairwise _
    rw [fireDue_stay_eq h.sorted]
    exact h.sorted.sublist List.filter_sublist
  case pending =>
    show ((fireDue now m.pending).2 : Multiset Timer) = C.bind (timerOf now)
    rw [fireDue_stay_eq h.sorted, ← Multiset.filter_coe, h.pending, Multiset.filter_bind]
    exact (Multiset.bind_congr fun c _ => timerOf_later hnow c).symm
  case armed =>
    rintro id deadline ⟨dur, waker, hc⟩
    obtain ⟨hlt, hle⟩ := hlate id deadline ⟨dur, waker, hc⟩
    -- the clock has not reached the deadline yet
    have hnot : m.fired id = false := by
      rw [Bool.eq_false_iff, Ne, (h.armed id deadline ⟨dur, waker, hc⟩).2]
      exact Nat.not_le.mpr hlt
    refine ⟨hle, ?_⟩
    show (m.fired id || _) = true ↔ deadline ≤ now
    rw [hnot, Bool.false_or, List.any_eq_true]
    constructor
    · rintro ⟨⟨i, d, w⟩, ht, hid⟩
      obtain ⟨hin, hdue⟩ := (mem_fireDue h.sorted _).mp ht
      rw [← Multiset.mem_coe, h.pending, mem_timerOf] at hin
      obtain ⟨-, dur', hc'⟩ := hin
      cases h.cell_unique hc hc' (of_decide_eq_true hid).symm
      exact hdue
    · intro hdue
      refine ⟨⟨id, deadline, waker⟩, (mem_fireDue h.sorted _).mpr ⟨?_, hdue⟩, by simp⟩
      rw [← Multiset.mem_coe, h.pending, mem_timerOf]
      exact ⟨hlt, dur, hc⟩
  case nodup => exact h.nodup
  case room =>
    obtain ⟨id, harmed⟩ := hsome
    exact ⟨top, hbelow id now harmed, hbelow, hroom⟩

/-- The park of a fake clock makes progress whenever a sleep is armed. -/
theorem reactorPark_spec {C : Multiset Cell} {m : Reactor} (h : Good C m)
    (hlate : ∀ id deadline, ArmedAt C id deadline → m.clock < deadline)
    (hsome : ∃ id deadline, ArmedAt C id deadline) :
    ∃ woken m', reactorPark m = (true, m', woken) ∧ Parked C m woken m' := by
  have hmem : ∀ {id deadline waker}, ⟨id, deadline, waker⟩ ∈ m.pending ↔
      ∃ dur, (id, RtLeaf.sleep dur true deadline waker) ∈ C := by
    intro id deadline waker
    rw [← Multiset.mem_coe, h.pending, mem_timerOf]
    exact ⟨And.right, fun ⟨dur, hc⟩ => ⟨hlate id deadline ⟨dur, waker, hc⟩, dur, hc⟩⟩
  obtain ⟨front, rest, hfront⟩ : ∃ front rest, m.pending = front :: rest := by
    obtain ⟨id, deadline, dur, waker, hc⟩ := hsome
    exact List.exists_cons_of_ne_nil (List.ne_nil_of_mem (hmem.mpr ⟨dur, hc⟩))
  have hin : front ∈ m.pending := hfront ▸ List.mem_cons_self
  -- the hook waits for the timer in front, and no armed timer is due before that
  have hself : ArmedAt C front.id front.deadline := by
    obtain ⟨dur, hc⟩ := hmem.mp hin
    exact ⟨dur, front.waker, hc⟩
  have hnow : m.clock < front.deadline := hlate _ _ hself
  have hfirst : ∀ id deadline, ArmedAt C id deadline → front.deadline ≤ deadline := by
    rintro id deadline ⟨dur, waker, hc⟩
    have hin : ⟨id, deadline, waker⟩ ∈ m.pending := hmem.mpr ⟨dur, hc⟩
    have hsorted := h.sorted
    rw [hfront] at hin hsorted
    rcases List.mem_cons.mp hin with heq | hin
    · rw [← heq]
    · exact (List.pairwise_cons.mp hsorted).1 _ hin
  have hfire := h.fire (fun id deadline ha => ⟨hlate id deadline ha, hfirst id deadline ha⟩)
    (Nat.le_of_lt hnow) ⟨front.id, hself⟩
  have hdue : front ∈ (fireDue front.deadline m.pending).1 :=
    (mem_fireDue h.sorted _).mpr ⟨hin, Nat.le_refl _⟩
  have hearliest : earliest m.pending = some front.deadline := by rw [hfront]; rfl
  have hpark : reactorPark m = (true,
      { m with clock := front.deadline, pending := (fireDue front.deadline m.pending).2,
               fired := fun i =>
                 m.fired i || (fireDue front.deadline m.pending).1.any (·.id = i) },
      (fireDue front.deadline m.pending).1.map Timer.waker) := by
    unfold reactorPark
    rw [hearliest]
    simp [hnow, List.ne_nil_of_mem hdue]
  refine ⟨_, _, hpark, hfire, Nat.le_of_lt hnow, ?_, ?_, ?_⟩
  case refine_1 =>
    have hcount := workOf_timers front.deadline m.clock C
    rw [← hfire.pending, ← h.pending] at hcount
    have happend := congrArg List.length (fireDue_append front.deadline m.pending)
    simp only [Multiset.coe_card, List.length_append] at hcount happend
    rw [List.length_map]
    show workOf front.deadline C + _ = _
    omega
  case refine_2 => exact List.ne_nil_of_mem (List.mem_map_of_mem hdue)
  case refine_3 =>
    intro t
    rw [List.mem_map]
    constructor
    · rintro ⟨⟨id, deadline, waker⟩, ht, rfl⟩
      obtain ⟨hin, hle⟩ := (mem_fireDue h.sorted _).mp ht
      obtain ⟨dur, hc⟩ := hmem.mp hin
      exact ⟨id, dur, deadline, hc, hle⟩
    · rintro ⟨id, dur, deadline, hc, hle⟩
      exact ⟨⟨id, deadline, t⟩, (mem_fireDue h.sorted _).mpr ⟨hmem.mpr ⟨dur, hc⟩, hle⟩, rfl⟩

end CustLib.Exec
