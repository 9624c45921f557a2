import CustLib.Lib.History
import CustLib.Lib.Machine
import CustLib.Execution.Runtime

/-!
# When a sleep completes

A reactor with any number of sleeps, polled and dropped in any order while the clock goes on, by any
code that stops polling a sleep when it is `Ready`. The clock reads a `u64` and never goes back.
`cexec_reactor_fire_due` is called with a reading of this clock, an old one perhaps; `reactor_park` is
a clock that goes on and such a call.

The deadline of a sleep is a sum modulo 2^64. `sleep_early_iff` says of every sleep of every run that it
completes after its duration and not before iff this sum does not wrap; a sleep whose sum wraps is
`Ready` when it is first polled.
-/

namespace CustLib.Sleeps

open CustLib.Exec (Reactor RtLeaf TaskId Timer sleepPoll sleepDrop fireDue)
open CustLib.Machine (run run_invariant)
open CustLib.History (Each each_nil each_concat append_eq_split)

/-! ## Programs with sleeps

A reactor and its sleeps, under code that may do anything that the interface of `reactor.c` allows. The
history has the readings of the clock that the theorem speaks of.
-/

/-- What becomes of the sleep in the box `id`: it is created, its `sleep_poll` reads the clock and
    answers, its timer fires. -/
inductive Event where
  | created (id dur : Nat)
  | polled (id now : Nat) (ready : Bool)
  | fired (id now : Nat)
  deriving DecidableEq, Repr

/-- A reactor with the boxes of sleeps that are allocated. `spent` are those that have been `Ready`.
    Boxes are numbered in the order of their births. -/
structure Sys where
  reactor : Reactor
  box     : Nat → Option RtLeaf
  spent   : Nat → Bool
  next    : Nat
  log     : List Event

def Sys.init : Sys := ⟨⟨0, [], fun _ => false, []⟩, fun _ => none, fun _ => false, 0, []⟩

inductive Act where
  | sleepIn (dur : Nat)
  | poll (id : Nat) (w : TaskId)
  | drop (id : Nat)
  | clock (reading : Nat)
  | fireDue (now : Nat)
  deriving DecidableEq, Repr

/-- A call of `sleep_poll`, `sleep_drop` or `cexec_reactor_fire_due`, a sleep from `cexec_sleep_in`, or a
    clock that goes on. -/
def step (s : Sys) : Act → Option Sys
  | .sleepIn dur =>
    if dur < 2 ^ 64 then
      some { s with
        box  := Function.update s.box s.next (some (.sleep dur false 0 0))
        next := s.next + 1
        log  := s.log ++ [.created s.next dur] }
    else none
  | .poll id w =>
    match s.box id, s.spent id with
    | some (.sleep dur armed deadline waker), false =>
      let ((ready, l), reactor) := sleepPoll id dur armed deadline waker w s.reactor
      some { s with
        reactor
        box   := Function.update s.box id (some l)
        spent := Function.update s.spent id ready
        log   := s.log ++ [.polled id s.reactor.clock ready] }
    | _, _ => none
  | .drop id =>
    match s.box id with
    | some (.sleep _ armed deadline waker) =>
      some { s with
        reactor := sleepDrop id armed deadline waker s.reactor
        box     := Function.update s.box id none }
    | _ => none
  | .clock reading =>
    if s.reactor.clock ≤ reading ∧ reading < 2 ^ 64 then
      some { s with reactor.clock := reading }
    else none
  | .fireDue now =>
    if now ≤ s.reactor.clock then
      let (due, stay) := fireDue now s.reactor.pending
      some { s with
        reactor := { s.reactor with
          pending := stay
          fired   := fun i => s.reactor.fired i || due.any (·.id = i) }
        log := s.log ++ due.map fun t => .fired t.id now }
    else none

/-! ## Readings in the history

The deadline of a sleep is fixed at its first poll, from the reading of the clock at that moment. The
history tells this reading, and the readings of all later polls.
-/

/-- The reading of the clock at the first poll of a sleep. -/
def firstPoll (i : Nat) (log : List Event) : Option Nat :=
  log.findSome? fun
    | .polled j now _ => if j = i then some now else none
    | _               => none

/-- A timer has fired before no `Pending` of its sleep. -/
def FiredReady (log : List Event) : Prop :=
  Each (fun pre e => ∀ i t c, e = .polled i t false → .fired i c ∉ pre) log

theorem firstPoll_append (i : Nat) (log evs : List Event) :
    firstPoll i (log ++ evs) = (firstPoll i log).or (firstPoll i evs) := List.findSome?_append

/-- Events that are not polls of the sleep. -/
theorem firstPoll_none {i : Nat} {evs : List Event} (h : ∀ now r, .polled i now r ∉ evs) :
    firstPoll i evs = none := by
  rw [firstPoll, List.findSome?_eq_none_iff]
  intro e he
  cases e with
  | polled j now r =>
      have hji : j ≠ i := by
        rintro rfl
        exact h now r he
      simp [hji]
  | created j dur => rfl
  | fired j now => rfl

/-- More events, none of them a poll of the sleep. -/
theorem firstPoll_stay {i : Nat} (log : List Event) {evs : List Event}
    (h : ∀ now r, .polled i now r ∉ evs) : firstPoll i (log ++ evs) = firstPoll i log := by
  rw [firstPoll_append, firstPoll_none h, Option.or_none]

/-- The first poll of the sleep. -/
theorem firstPoll_first {i : Nat} {log : List Event} (h : firstPoll i log = none) (now : Nat)
    (r : Bool) : firstPoll i (log ++ [.polled i now r]) = some now := by
  rw [firstPoll_append, h, Option.none_or]
  simp [firstPoll]

/-- One more poll of the sleep. -/
theorem firstPoll_again {i : Nat} {log : List Event} {first : Nat}
    (h : firstPoll i log = some first) (evs : List Event) :
    firstPoll i (log ++ evs) = some first := by
  rw [firstPoll_append, h, Option.some_or]

/-- A sleep that has been polled has been polled first. -/
theorem exists_firstPoll {i now : Nat} {r : Bool} {log : List Event} (h : .polled i now r ∈ log) :
    ∃ first, firstPoll i log = some first := by
  cases hfirst : firstPoll i log with
  | some first => exact ⟨first, rfl⟩
  | none =>
      rw [firstPoll, List.findSome?_eq_none_iff] at hfirst
      simpa using hfirst _ h

/-- More events, none of them a `Pending`. -/
theorem FiredReady.append {log evs : List Event} (h : FiredReady log)
    (hevs : ∀ i t, .polled i t false ∉ evs) : FiredReady (log ++ evs) := by
  intro pre e post heq i t c he
  rcases append_eq_split heq with ⟨post', hlog⟩ | ⟨pre', -, hcut⟩
  · exact h pre e post' hlog i t c he
  · refine absurd ?_ (hevs i t)
    simp [hcut, he]

/-! ## One poll

`sleep_poll` by cases: the timer has fired, its deadline is reached, or it is armed, or left as it is.
The sum of reading and duration is one of `u64`.
-/

theorem wadd_le_iff {now dur : Nat} (hnow : now < 2 ^ 64) (hdur : dur < 2 ^ 64) :
    wadd now dur ≤ now ↔ dur = 0 ∨ 2 ^ 64 ≤ now + dur := by
  unfold wadd
  omega

/-- The sleep is done when it is first polled, or its timer is armed, or it is armed already. -/
theorem sleepPoll_cases (id : Nat) {dur : Nat} (armed : Bool) (deadline : Nat) (waker w : TaskId)
    {m : Reactor} (hclock : m.clock < 2 ^ 64) (hdur : dur < 2 ^ 64) :
    (armed = false ∧ (dur = 0 ∨ 2 ^ 64 ≤ m.clock + dur) ∧
      sleepPoll id dur armed deadline waker w m = ((true, .sleep dur false deadline waker), m)) ∨
    (armed = false ∧ m.clock + dur < 2 ^ 64 ∧
      sleepPoll id dur armed deadline waker w m = ((false, .sleep dur true (m.clock + dur) w),
        { m with
          pending := Exec.reactorInsert ⟨id, m.clock + dur, w⟩ m.pending
          fired   := Function.update m.fired id false })) ∨
    (armed = true ∧ sleepPoll id dur armed deadline waker w m =
      ((decide (deadline ≤ m.clock), .sleep dur true deadline waker), m)) := by
  cases armed with
  | true => exact .inr (.inr ⟨rfl, rfl⟩)
  | false =>
      by_cases hle : wadd m.clock dur ≤ m.clock
      · refine .inl ⟨rfl, (wadd_le_iff hclock hdur).mp hle, ?_⟩
        simp [sleepPoll, hle]
      · have hsum : m.clock + dur < 2 ^ 64 := by
          rw [wadd_le_iff hclock hdur] at hle
          omega
        have hwadd : wadd m.clock dur = m.clock + dur := Nat.mod_eq_of_lt hsum
        refine .inr (.inl ⟨rfl, hsum, ?_⟩)
        rw [hwadd] at hle
        simp [sleepPoll, hwadd, hle]

/-! ## What holds of every run

An armed box has the deadline that its first poll has computed, and a timer fires only when some reading
of the clock has reached it. So a sleep can be early in one way only: its deadline has wrapped.
-/

structure Kept (s : Sys) : Prop where
  clock   : s.reactor.clock < 2 ^ 64
  created : ∀ i dur, .created i dur ∈ s.log → i < s.next ∧ dur < 2 ^ 64
  unique  : ∀ i dur dur', .created i dur ∈ s.log → .created i dur' ∈ s.log → dur = dur'
  polled  : ∀ i t r, .polled i t r ∈ s.log → i < s.next ∧ t < 2 ^ 64
  boxes   : ∀ i l, s.box i = some l → ∃ dur armed d w, l = .sleep dur armed d w ∧
    .created i dur ∈ s.log ∧ (armed = false → s.spent i = false → firstPoll i s.log = none) ∧
    (armed = true → ∃ now, firstPoll i s.log = some now ∧ d = now + dur ∧ d < 2 ^ 64)
  ready   : ∀ i dur now t, .created i dur ∈ s.log → firstPoll i s.log = some now →
    .polled i t true ∈ s.log → now + dur ≤ t ∨ 2 ^ 64 ≤ now + dur
  early   : ∀ i dur now, .created i dur ∈ s.log → firstPoll i s.log = some now →
    2 ^ 64 ≤ now + dur → .polled i now true ∈ s.log
  pending : ∀ t ∈ s.reactor.pending, t.id < s.next ∧
    ∀ l, s.box t.id = some l → ∃ dur w, l = .sleep dur true t.deadline w
  fired   : ∀ i c, .fired i c ∈ s.log → i < s.next ∧
    ∀ l, s.box i = some l → ∃ dur d w, l = .sleep dur true d w ∧ d ≤ s.reactor.clock
  after   : FiredReady s.log

/-- A box after one of the boxes has changed. -/
theorem of_update {box : Nat → Option RtLeaf} {id i : Nat} {x : Option RtLeaf} {l : RtLeaf}
    (h : Function.update box id x i = some l) : i = id ∧ x = some l ∨ i ≠ id ∧ box i = some l := by
  by_cases hi : i = id
  · subst hi
    rw [Function.update_self] at h
    exact .inl ⟨rfl, h⟩
  · rw [Function.update_of_ne hi] at h
    exact .inr ⟨hi, h⟩

/-- A sleep that is not armed has no timer, and has had none. -/
theorem Kept.unarmed {s : Sys} (h : Kept s) {id dur d : Nat} {w : TaskId}
    (hbox : s.box id = some (.sleep dur false d w)) :
    (∀ t ∈ s.reactor.pending, t.id ≠ id) ∧ ∀ c, .fired id c ∉ s.log := by
  constructor
  · rintro t ht rfl
    obtain ⟨dur', w', hl⟩ := (h.pending t ht).2 _ hbox
    cases hl
  · intro c hmem
    obtain ⟨dur', d', w', hl, -⟩ := (h.fired id c hmem).2 _ hbox
    cases hl

theorem kept_init : Kept Sys.init where
  clock   := by decide
  created := nofun
  unique  := nofun
  polled  := nofun
  boxes   := nofun
  ready   := nofun
  early   := nofun
  pending := nofun
  fired   := nofun
  after   := each_nil

/-- A new sleep. -/
theorem Kept.sleepIn {s : Sys} (h : Kept s) {dur : Nat} (hdur : dur < 2 ^ 64) : Kept { s with
    box  := Function.update s.box s.next (some (.sleep dur false 0 0))
    next := s.next + 1
    log  := s.log ++ [.created s.next dur] } := by
  have hstay : ∀ i, firstPoll i (s.log ++ [.created s.next dur]) = firstPoll i s.log :=
    fun i => firstPoll_stay _ (by simp)
  have hfirst : firstPoll s.next s.log = none :=
    firstPoll_none fun now r hmem => Nat.lt_irrefl _ (h.polled _ _ _ hmem).1
  have hold : ∀ {i}, i < s.next →
      Function.update s.box s.next (some (.sleep dur false 0 0)) i = s.box i :=
    fun hi => Function.update_of_ne (Nat.ne_of_lt hi) _ _
  constructor <;> dsimp only
  case clock => exact h.clock
  case created =>
    intro i dur' hmem
    rcases List.mem_append.mp hmem with hmem | hmem
    · exact ⟨Nat.lt_succ_of_lt (h.created i dur' hmem).1, (h.created i dur' hmem).2⟩
    · cases List.mem_singleton.mp hmem
      exact ⟨Nat.lt_succ_self _, hdur⟩
  case unique =>
    have hnew := h.created
    have hold := h.unique
    simp only [List.mem_append, List.mem_singleton, Event.created.injEq]
    grind
  case polled =>
    intro i t r hmem
    rcases List.mem_append.mp hmem with hmem | hmem
    · exact ⟨Nat.lt_succ_of_lt (h.polled i t r hmem).1, (h.polled i t r hmem).2⟩
    · cases List.mem_singleton.mp hmem
  case boxes =>
    intro i l hl
    rcases of_update hl with ⟨rfl, hnew⟩ | ⟨-, hl⟩
    · cases hnew
      refine ⟨dur, false, 0, 0, rfl, by simp, fun _ _ => ?_, nofun⟩
      rw [hstay, hfirst]
    · obtain ⟨dur', armed, d, w, rfl, hmade, hidle, harmed⟩ := h.boxes i l hl
      refine ⟨dur', armed, d, w, rfl, List.mem_append_left _ hmade, ?_, ?_⟩
      · rw [hstay]
        exact hidle
      · rw [hstay]
        exact harmed
  case ready =>
    intro i dur' now t hmade hnow hpoll
    rw [hstay] at hnow
    -- the new sleep has not been polled
    have hi : i ≠ s.next := by
      rintro rfl
      rw [hfirst] at hnow
      cases hnow
    have hmade : .created i dur' ∈ s.log := by simpa [hi] using hmade
    exact h.ready i dur' now t hmade hnow (by simpa using hpoll)
  case early =>
    intro i dur' now hmade hnow hwrap
    rw [hstay] at hnow
    have hi : i ≠ s.next := by
      rintro rfl
      rw [hfirst] at hnow
      cases hnow
    have hmade : .created i dur' ∈ s.log := by simpa [hi] using hmade
    exact List.mem_append_left _ (h.early i dur' now hmade hnow hwrap)
  case pending =>
    intro t ht
    obtain ⟨hi, hbox⟩ := h.pending t ht
    refine ⟨Nat.lt_succ_of_lt hi, ?_⟩
    rw [hold hi]
    exact hbox
  case fired =>
    intro i c hmem
    have hmem : .fired i c ∈ s.log := by simpa using hmem
    obtain ⟨hi, hbox⟩ := h.fired i c hmem
    refine ⟨Nat.lt_succ_of_lt hi, ?_⟩
    rw [hold hi]
    exact hbox
  case after => exact each_concat.mpr ⟨h.after, nofun⟩

/-- A poll of a sleep, from what it answers and what it leaves in the box and on the list. -/
theorem Kept.answer {s : Sys} (h : Kept s) {id dur : Nat} (armed : Bool) (d : Nat) {w : TaskId}
    {r : Bool} {reactor : Reactor} (hid : id < s.next) (hmade : .created id dur ∈ s.log)
    (hclock : reactor.clock = s.reactor.clock)
    (hspent : armed = false → r = true)
    (harmed : armed = true →
      ∃ now, firstPoll id (s.log ++ [.polled id s.reactor.clock r]) = some now ∧ d = now + dur ∧
        d < 2 ^ 64)
    (hready : ∀ now, firstPoll id (s.log ++ [.polled id s.reactor.clock r]) = some now → r = true →
      now + dur ≤ s.reactor.clock ∨ 2 ^ 64 ≤ now + dur)
    (hearly : ∀ now, firstPoll id (s.log ++ [.polled id s.reactor.clock r]) = some now →
      2 ^ 64 ≤ now + dur → .polled id now true ∈ s.log ++ [.polled id s.reactor.clock r])
    (hpending : ∀ t ∈ reactor.pending, if t.id = id then armed = true ∧ t.deadline = d
      else t ∈ s.reactor.pending)
    (hfired : ∀ c, .fired id c ∈ s.log → armed = true ∧ d ≤ s.reactor.clock ∧ r = true) :
    Kept { s with
      reactor
      box   := Function.update s.box id (some (.sleep dur armed d w))
      spent := Function.update s.spent id r
      log   := s.log ++ [.polled id s.reactor.clock r] } := by
  have hstay : ∀ i, i ≠ id →
      firstPoll i (s.log ++ [.polled id s.reactor.clock r]) = firstPoll i s.log :=
    fun i hi => firstPoll_stay _ (by simp [hi])
  have hcreated : ∀ {i dur'}, .created i dur' ∈ s.log ++ [.polled id s.reactor.clock r] →
      .created i dur' ∈ s.log := by simp
  constructor <;> dsimp only
  case clock => exact hclock ▸ h.clock
  case created => exact fun i dur' hmem => h.created i dur' (hcreated hmem)
  case unique =>
    exact fun i dur' dur'' hmem hmem' => h.unique i dur' dur'' (hcreated hmem) (hcreated hmem')
  case polled =>
    intro i t r' hmem
    rcases List.mem_append.mp hmem with hmem | hmem
    · exact h.polled i t r' hmem
    · cases List.mem_singleton.mp hmem
      exact ⟨hid, h.clock⟩
  case boxes =>
    intro i l hl
    rcases of_update hl with ⟨rfl, hnew⟩ | ⟨hi, hl⟩
    · cases hnew
      refine ⟨dur, armed, d, w, rfl, List.mem_append_left _ hmade, ?_, harmed⟩
      intro harm hsp
      rw [Function.update_self, hspent harm] at hsp
      cases hsp
    · rw [Function.update_of_ne hi, hstay i hi]
      obtain ⟨dur', armed', d', w', rfl, hmade', hrest⟩ := h.boxes i l hl
      exact ⟨dur', armed', d', w', rfl, List.mem_append_left _ hmade', hrest⟩
  case ready =>
    intro i dur' now t hmem hnow hpoll
    have hold := hcreated hmem
    by_cases hi : i = id
    · subst hi
      cases h.unique i dur' dur hold hmade
      rcases List.mem_append.mp hpoll with hpoll | hpoll
      · -- an earlier poll: the first one is the same as then
        obtain ⟨first, hfirst⟩ := exists_firstPoll hpoll
        rw [firstPoll_again hfirst] at hnow
        cases hnow
        exact h.ready i dur now t hold hfirst hpoll
      · cases List.mem_singleton.mp hpoll
        exact hready now hnow rfl
    · rw [hstay i hi] at hnow
      have hpoll : .polled i t true ∈ s.log := by simpa [hi] using hpoll
      exact h.ready i dur' now t hold hnow hpoll
  case early =>
    intro i dur' now hmem hnow hwrap
    have hold := hcreated hmem
    by_cases hi : i = id
    · subst hi
      cases h.unique i dur' dur hold hmade
      exact hearly now hnow hwrap
    · rw [hstay i hi] at hnow
      exact List.mem_append_left _ (h.early i dur' now hold hnow hwrap)
  case pending =>
    intro t ht
    have hcond := hpending t ht
    by_cases hi : t.id = id
    · rw [if_pos hi] at hcond
      obtain ⟨rfl, rfl⟩ := hcond
      rw [hi, Function.update_self]
      refine ⟨hid, fun l hl => ?_⟩
      cases hl
      exact ⟨dur, w, rfl⟩
    · rw [if_neg hi] at hcond
      rw [Function.update_of_ne hi]
      exact h.pending t hcond
  case fired =>
    intro i c hmem
    have hold : .fired i c ∈ s.log := by simpa using hmem
    obtain ⟨hi, hbox⟩ := h.fired i c hold
    rw [hclock]
    refine ⟨hi, fun l hl => ?_⟩
    rcases of_update hl with ⟨rfl, hnew⟩ | ⟨-, hl⟩
    · cases hnew
      obtain ⟨rfl, hd, -⟩ := hfired c hold
      exact ⟨dur, d, w, rfl, hd⟩
    · exact hbox l hl
  case after =>
    refine each_concat.mpr ⟨h.after, ?_⟩
    intro i t c he hmem
    cases he
    exact absurd (hfired c hmem).2.2 nofun

/-- A sleep that is done when it is first polled. -/
theorem Kept.poll_done {s : Sys} (h : Kept s) {id dur d : Nat} {w : TaskId}
    (hbox : s.box id = some (.sleep dur false d w)) (hspent : s.spent id = false)
    (hdone : dur = 0 ∨ 2 ^ 64 ≤ s.reactor.clock + dur) : Kept { s with
      box   := Function.update s.box id (some (.sleep dur false d w))
      spent := Function.update s.spent id true
      log   := s.log ++ [.polled id s.reactor.clock true] } := by
  obtain ⟨_, _, _, _, hl, hmade, hidle, -⟩ := h.boxes id _ hbox
  cases hl
  obtain ⟨hpending, hfired⟩ := h.unarmed hbox
  have hfirst := firstPoll_first (hidle rfl hspent) s.reactor.clock true
  apply h.answer false d (h.created id dur hmade).1 hmade rfl (fun _ => rfl) nofun
  · intro now hnow _
    cases hfirst.symm.trans hnow
    omega
  · intro now hnow _
    cases hfirst.symm.trans hnow
    exact List.mem_append_right _ List.mem_cons_self
  · intro t ht
    rw [if_neg (hpending t ht)]
    exact ht
  · exact fun c hmem => absurd hmem (hfired c)

/-- A sleep that arms its timer. -/
theorem Kept.poll_arm {s : Sys} (h : Kept s) {id dur d : Nat} {w w' : TaskId}
    (hbox : s.box id = some (.sleep dur false d w)) (hspent : s.spent id = false)
    (hsum : s.reactor.clock + dur < 2 ^ 64) (flags : Nat → Bool) : Kept { s with
      reactor := { s.reactor with
        pending := Exec.reactorInsert ⟨id, s.reactor.clock + dur, w'⟩ s.reactor.pending
        fired   := flags }
      box     := Function.update s.box id (some (.sleep dur true (s.reactor.clock + dur) w'))
      spent   := Function.update s.spent id false
      log     := s.log ++ [.polled id s.reactor.clock false] } := by
  obtain ⟨_, _, _, _, hl, hmade, hidle, -⟩ := h.boxes id _ hbox
  cases hl
  obtain ⟨hpending, hfired⟩ := h.unarmed hbox
  have hfirst := firstPoll_first (hidle rfl hspent) s.reactor.clock false
  refine h.answer true _ (h.created id dur hmade).1 hmade ?_ nofun
    (fun _ => ⟨_, hfirst, rfl, hsum⟩) (fun _ _ => nofun) ?_ ?_ ?_
  · rfl
  · intro now hnow hwrap
    cases hfirst.symm.trans hnow
    omega
  · intro t ht
    rcases List.mem_cons.mp ((Exec.reactorInsert_perm _ _).mem_iff.mp ht) with rfl | ht
    · rw [if_pos rfl]
      exact ⟨rfl, rfl⟩
    · rw [if_neg (hpending t ht)]
      exact ht
  · exact fun c hmem => absurd hmem (hfired c)

/-- A sleep whose timer is armed already. -/
theorem Kept.poll_armed {s : Sys} (h : Kept s) {id dur d : Nat} {w : TaskId}
    (hbox : s.box id = some (.sleep dur true d w)) : Kept { s with
      box   := Function.update s.box id (some (.sleep dur true d w))
      spent := Function.update s.spent id (decide (d ≤ s.reactor.clock))
      log   := s.log ++ [.polled id s.reactor.clock (decide (d ≤ s.reactor.clock))] } := by
  obtain ⟨_, _, _, _, hl, hmade, -, harmed⟩ := h.boxes id _ hbox
  cases hl
  obtain ⟨first, hfirst, rfl, hsum⟩ := harmed rfl
  have hnew := firstPoll_again hfirst
  apply h.answer true _ (h.created id dur hmade).1 hmade rfl nofun
  · exact fun _ => ⟨_, hnew _, rfl, hsum⟩
  · intro now hnow hr
    cases (hnew _).symm.trans hnow
    exact .inl (of_decide_eq_true hr)
  · intro now hnow hwrap
    cases (hnew _).symm.trans hnow
    omega
  · -- its pending timer, if it has one, has the deadline in the box
    intro t ht
    split
    next hi =>
      obtain ⟨dur', w', hl⟩ := (h.pending t ht).2 _ (hi ▸ hbox)
      obtain ⟨-, -, hd, -⟩ := RtLeaf.sleep.inj hl
      exact ⟨rfl, hd.symm⟩
    · exact ht
  · intro c hmem
    obtain ⟨dur', d', w', hl, hd⟩ := (h.fired id c hmem).2 _ hbox
    obtain ⟨-, -, rfl, -⟩ := RtLeaf.sleep.inj hl
    exact ⟨rfl, hd, decide_eq_true hd⟩

/-- A poll of a sleep that has not been `Ready`. -/
theorem Kept.poll {s s' : Sys} (h : Kept s) {id : Nat} {w : TaskId}
    (hs : step s (.poll id w) = some s') : Kept s' := by
  simp only [step] at hs
  split at hs
  next dur armed deadline waker hbox hspent =>
    obtain ⟨_, _, _, _, hl, hmade, -, -⟩ := h.boxes id _ hbox
    cases hl
    rcases sleepPoll_cases id armed deadline waker w h.clock (h.created id dur hmade).2 with
      ⟨rfl, hdone, hpoll⟩ | ⟨rfl, hsum, hpoll⟩ | ⟨rfl, hpoll⟩ <;>
      rw [hpoll] at hs <;> cases hs
    · exact h.poll_done hbox hspent hdone
    · exact h.poll_arm hbox hspent hsum _
    · exact h.poll_armed hbox
  · cases hs

/-- A sleep is dropped. -/
theorem Kept.drop {s : Sys} (h : Kept s) (id : Nat) {reactor : Reactor}
    (hclock : reactor.clock = s.reactor.clock)
    (hpending : ∀ t ∈ reactor.pending, t ∈ s.reactor.pending) :
    Kept { s with reactor, box := Function.update s.box id none } := by
  have hbox : ∀ {i l}, Function.update s.box id none i = some l → s.box i = some l := by
    intro i l hl
    rcases of_update hl with ⟨-, hl⟩ | ⟨-, hl⟩
    · cases hl
    · exact hl
  constructor <;> dsimp only
  case clock => exact hclock ▸ h.clock
  case created => exact h.created
  case unique => exact h.unique
  case polled => exact h.polled
  case boxes => exact fun i l hl => h.boxes i l (hbox hl)
  case ready => exact h.ready
  case early => exact h.early
  case pending =>
    intro t ht
    obtain ⟨hi, hrest⟩ := h.pending t (hpending t ht)
    exact ⟨hi, fun l hl => hrest l (hbox hl)⟩
  case fired =>
    intro i c hmem
    obtain ⟨hi, hrest⟩ := h.fired i c hmem
    rw [hclock]
    exact ⟨hi, fun l hl => hrest l (hbox hl)⟩
  case after => exact h.after

/-- The clock goes on. -/
theorem Kept.tick {s : Sys} (h : Kept s) {reading : Nat} (hle : s.reactor.clock ≤ reading)
    (hlt : reading < 2 ^ 64) : Kept { s with reactor.clock := reading } where
  clock   := hlt
  created := h.created
  unique  := h.unique
  polled  := h.polled
  boxes   := h.boxes
  ready   := h.ready
  early   := h.early
  pending := h.pending
  fired   := by
    intro i c hmem
    obtain ⟨hi, hrest⟩ := h.fired i c hmem
    refine ⟨hi, fun l hl => ?_⟩
    obtain ⟨dur, d, w, rfl, hd⟩ := hrest l hl
    exact ⟨dur, d, w, rfl, hd.trans hle⟩
  after   := h.after

/-- Timers fire that are due at a reading of the clock. -/
theorem Kept.fire {s : Sys} (h : Kept s) {now : Nat} (hnow : now ≤ s.reactor.clock)
    (flags : Nat → Bool) : Kept { s with
      reactor := { s.reactor with
        pending := (fireDue now s.reactor.pending).2
        fired   := flags }
      log := s.log ++ (fireDue now s.reactor.pending).1.map fun t => .fired t.id now } := by
  have hlog : ∀ e, (∀ i c, e ≠ .fired i c) →
      e ∈ s.log ++ (fireDue now s.reactor.pending).1.map (fun t => .fired t.id now) →
      e ∈ s.log := by
    intro e he hmem
    rcases List.mem_append.mp hmem with hmem | hmem
    · exact hmem
    · obtain ⟨t, -, rfl⟩ := List.mem_map.mp hmem
      exact absurd rfl (he t.id now)
  have hstay : ∀ i, firstPoll i (s.log ++ (fireDue now s.reactor.pending).1.map
      fun t => .fired t.id now) = firstPoll i s.log := fun i => firstPoll_stay _ (by simp)
  have happend := Exec.fireDue_append now s.reactor.pending
  constructor <;> dsimp only
  case clock => exact h.clock
  case created => exact fun i dur hmem => h.created i dur (hlog _ nofun hmem)
  case unique =>
    exact fun i dur dur' hmem hmem' => h.unique i dur dur' (hlog _ nofun hmem) (hlog _ nofun hmem')
  case polled => exact fun i t r hmem => h.polled i t r (hlog _ nofun hmem)
  case boxes =>
    intro i l hl
    obtain ⟨dur, armed, d, w, rfl, hmade, hrest⟩ := h.boxes i l hl
    refine ⟨dur, armed, d, w, rfl, List.mem_append_left _ hmade, ?_⟩
    rw [hstay]
    exact hrest
  case ready =>
    intro i dur t' t hmade hfirst hpoll
    rw [hstay] at hfirst
    exact h.ready i dur t' t (hlog _ nofun hmade) hfirst (hlog _ nofun hpoll)
  case early =>
    intro i dur t' hmade hfirst hwrap
    rw [hstay] at hfirst
    exact List.mem_append_left _ (h.early i dur t' (hlog _ nofun hmade) hfirst hwrap)
  case pending =>
    intro t ht
    apply h.pending t
    rw [← happend]
    exact List.mem_append_right _ ht
  case fired =>
    intro i c hmem
    rcases List.mem_append.mp hmem with hmem | hmem
    · exact h.fired i c hmem
    · -- a timer fires at a reading that its deadline has reached
      obtain ⟨t, ht, he⟩ := List.mem_map.mp hmem
      cases he
      have hpend : t ∈ s.reactor.pending := by
        rw [← happend]
        exact List.mem_append_left _ ht
      obtain ⟨hi, hrest⟩ := h.pending t hpend
      refine ⟨hi, fun l hl => ?_⟩
      obtain ⟨dur, w, rfl⟩ := hrest l hl
      exact ⟨dur, t.deadline, w, rfl, (Exec.fireDue_fired now _ t ht).trans hnow⟩
  case after => exact h.after.append (by simp)

theorem sleepDrop_pending (id : Nat) (armed : Bool) (deadline : Nat) (waker : TaskId)
    (m : Reactor) : (sleepDrop id armed deadline waker m).clock = m.clock ∧
      ∀ t ∈ (sleepDrop id armed deadline waker m).pending, t ∈ m.pending := by
  unfold sleepDrop
  split
  · exact ⟨rfl, fun t ht => List.mem_of_mem_erase ht⟩
  · exact ⟨rfl, fun t ht => ht⟩

/-- **Step lemma.** -/
theorem step_kept (s : Sys) (a : Act) (s' : Sys) (h : Kept s) (hs : step s a = some s') :
    Kept s' := by
  cases a with
  | poll id w => exact h.poll hs
  | sleepIn dur =>
      obtain ⟨hdur, hs⟩ := Option.ite_none_right_eq_some.mp hs
      cases hs
      exact h.sleepIn hdur
  | drop id =>
      simp only [step] at hs
      split at hs
      · cases hs
        obtain ⟨hclock, hpending⟩ := sleepDrop_pending id _ _ _ s.reactor
        exact h.drop id hclock hpending
      · cases hs
  | clock reading =>
      obtain ⟨⟨hle, hlt⟩, hs⟩ := Option.ite_none_right_eq_some.mp hs
      cases hs
      exact h.tick hle hlt
  | fireDue now =>
      obtain ⟨hnow, hs⟩ := Option.ite_none_right_eq_some.mp hs
      cases hs
      exact h.fire hnow _

/-- **Run lemma.** -/
theorem run_kept {acts : List Act} {s : Sys} (h : run step .init acts = some s) : Kept s :=
  run_invariant step_kept kept_init h

/-- **When a sleep completes.** A sleep that is first polled at `now` is `Ready` only at readings that
    its duration has passed at, and at the next poll after its timer has fired, iff the sum of `now`
    and its duration is below 2^64. -/
theorem sleep_early_iff {acts : List Act} {s : Sys} (h : run step .init acts = some s)
    {i dur now : Nat} (hmade : .created i dur ∈ s.log) (hfirst : firstPoll i s.log = some now) :
    ((∀ t, .polled i t true ∈ s.log → now + dur ≤ t) ∧
        ∀ pre post c, s.log = pre ++ .fired i c :: post → ∀ t r, .polled i t r ∈ post → r = true) ↔
      now + dur < 2 ^ 64 := by
  have hkept := run_kept h
  constructor
  · intro ⟨hready, _⟩
    by_contra hwrap
    -- `Ready` at once, although the duration is not zero
    have hearly := hkept.early i dur now hmade hfirst (Nat.not_lt.mp hwrap)
    have hsum := hready now hearly
    have hnow := (hkept.polled i now true hearly).2
    omega
  · intro hsum
    constructor
    · intro t ht
      rcases hkept.ready i dur now t hmade hfirst ht with hle | hwrap
      · exact hle
      · exact absurd hsum (Nat.not_lt.mpr hwrap)
    · intro pre post c hlog t r hmem
      obtain ⟨mid, rest, rfl⟩ := List.append_of_mem hmem
      cases r with
      | true => rfl
      | false =>
          refine absurd ?_ (hkept.after (pre ++ .fired i c :: mid) _ rest ?_ i t c rfl)
          · simp
          · rw [hlog, List.append_assoc, List.cons_append]

/-- A sleep that is `Ready` when its timer has fired. -/
theorem sleep_early_iff_fired :
    ∃ s, run step .init [.sleepIn 10, .clock 3, .poll 0 7, .clock 20, .fireDue 13, .poll 0 7] =
        some s ∧
      ((∀ t, .polled 0 t true ∈ s.log → 3 + 10 ≤ t) ∧
          ∀ pre post c, s.log = pre ++ .fired 0 c :: post →
            ∀ t r, .polled 0 t r ∈ post → r = true) ∧
      s.log = [.created 0 10, .polled 0 3 false, .fired 0 13, .polled 0 20 true] := by
  obtain ⟨s, hs, hlog⟩ : ∃ s, run step .init
      [.sleepIn 10, .clock 3, .poll 0 7, .clock 20, .fireDue 13, .poll 0 7] = some s ∧
        s.log = [.created 0 10, .polled 0 3 false, .fired 0 13, .polled 0 20 true] := ⟨_, rfl, rfl⟩
  exact ⟨s, hs, (sleep_early_iff hs (by simp [hlog]) (by simp [hlog, firstPoll])).mpr (by decide),
    hlog⟩

/-- A sleep of 2^64 - 1 ns completes 0 ns after it is first polled. -/
theorem longest_sleep_early :
    ∃ s, run step .init [.sleepIn (2 ^ 64 - 1), .clock 1, .poll 0 7] = some s ∧
      .created 0 (2 ^ 64 - 1) ∈ s.log ∧ firstPoll 0 s.log = some 1 ∧ .polled 0 1 true ∈ s.log ∧
      ¬ 1 + (2 ^ 64 - 1) ≤ 1 :=
  ⟨_, rfl, by decide, by decide, by decide, by decide⟩

end CustLib.Sleeps
