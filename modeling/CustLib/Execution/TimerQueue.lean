import CustLib.Lib.Eff
import CustLib.Lib.StableSort
import CustLib.Std.ListHead
import CustLib.Execution.Reactor

/-!
# `cust_execution::reactor`: the list of pending timers

`CustLib.Execution.Reactor` has the pending timers as a sequence. Here they are what `reactor.c` links
together: the sentinel `pending` and the links inside the boxes of sleeps, with the pointer writes of
`std_list`. A program that follows a null pointer, or takes the sentinel for a timer, gets stuck; the
walk of `reactor_insert` and the loop of `cexec_reactor_fire_due` are cut off.

* `reactorInsert_spec`, `fireDue_spec`, `sleepDrop_spec` and `reactorEarliest_spec` tie each function to
  the sequence (`Pending`).
* `History` says what is pending after a sequence of calls, in the order of the insertions, without a
  list. `timer_queue_stable` compares the two.
-/

namespace CustLib.TimerQueue

open CustLib.Linked
open CustLib.Exec (Timer TaskId earliest)
open CustLib.Machine (run run_progress)

/-! ## The memory of a reactor

Links, boxes and waker calls. A box is named by its number, and the fields of its timer stay readable
when the timer has been unlinked.
-/

/-- A `std_list_head`: the sentinel `pending`, or the link of the timer in a box. -/
abbrev Node := Option Nat

/-- The fields of a `sleep_box` and of the timer in it, less the link. -/
structure Box where
  deadline : Nat
  waker    : TaskId
  fired    : Bool
  armed    : Bool
  deriving DecidableEq, Repr

inductive WakerCall where
  | clone (t : TaskId)
  | wake (t : TaskId)
  | drop (t : TaskId)
  deriving DecidableEq, Repr

structure Queue where
  links : Heap Node
  box   : Nat → Box
  calls : List WakerCall

/-! ## The functions

`reactor.c` on its list, with `sleep_drop` and the part of `sleep_poll` that arms a timer. `TIMER_OF`
gets from a link to its timer, and there is no timer around the sentinel: a program that asks for it
gets stuck. The loops are cut off after a number of rounds.
-/

def next (p : Node) : Eff Queue Node := fun q => ((q.links p).next, q)

/-- `TIMER_OF`: there is no timer around the sentinel. -/
def timerOf (p : Node) : Eff Queue Nat := fun q => (p, q)

def fields (i : Nat) : Eff Queue Box := Eff.move fun q => (q.box i, q)

def write (i : Nat) (f : Box → Box) : Eff Queue Unit :=
  Eff.modify fun q => { q with box := Function.update q.box i (f (q.box i)) }

def relink (f : Heap Node → Option (Heap Node)) : Eff Queue Unit := fun q =>
  match f q.links with
  | some links => (some (), { q with links })
  | none       => (none, q)

def callWaker (c : WakerCall) : Eff Queue Unit :=
  Eff.modify fun q => { q with calls := q.calls ++ [c] }

def isIdle : Eff Queue Bool := Eff.move fun q => (ListHead.isEmpty q.links none, q)

def reactorEarliest : Eff Queue (Option Nat) := do
  if ← isIdle then
    return none
  let t ← timerOf (← next none)
  return some (← fields t).deadline

def fireLoop (now : Nat) : Nat → Bool → Eff Queue Bool
  | 0, _              => Eff.stuck
  | n + 1, progressed => do
    if ← isIdle then
      return progressed
    let t ← timerOf (← next none)
    let timer ← fields t
    if timer.deadline > now then
      return progressed
    relink (ListHead.del · (some t))
    write t fun b => { b with fired := true }
    callWaker (.wake timer.waker)
    fireLoop now n true

def fireDue (n now : Nat) : Eff Queue Bool := fireLoop now n false

/-- The walk of `reactor_insert`, from `p` on. -/
def walkTo (deadline : Nat) : Nat → Node → Eff Queue Node
  | 0, _          => Eff.stuck
  | _ + 1, none   => return none
  | n + 1, some t => do
    if (← fields t).deadline > deadline then
      return some t
    walkTo deadline n (← next (some t))

def reactorInsert (n t : Nat) : Eff Queue Unit := do
  let p ← walkTo (← fields t).deadline n (← next none)
  relink (ListHead.addTail · (some t) p)

/-- What `sleep_poll` does with a box that is not armed when its deadline is ahead. -/
def arm (n t deadline : Nat) (w : TaskId) : Eff Queue Unit := do
  callWaker (.clone w)
  write t fun b => { b with deadline, waker := w, fired := false }
  reactorInsert n t
  write t fun b => { b with armed := true }

/-- `sleep_drop`. The box is freed; a later one in its place is not armed. -/
def sleepDrop (t : Nat) : Eff Queue Unit := do
  let b ← fields t
  Eff.when (b.armed && !b.fired) do
    relink (ListHead.del · (some t))
    callWaker (.drop b.waker)
  write t fun b => { b with armed := false }

/-! ## The sequence of pending timers

`Pending P` says that the ring of the sentinel holds the links of the timers `P`, in this order, and
that a box which is armed and has not fired is in it.
-/

def nodes (P : List Timer) : List Node := P.map fun t => some t.id

structure Pending (q : Queue) (P : List Timer) : Prop where
  ring   : IsRing q.links none (nodes P)
  boxes  : ∀ t ∈ P, q.box t.id = ⟨t.deadline, t.waker, false, true⟩
  others : ∀ i, (∀ t ∈ P, t.id ≠ i) → (q.box i).armed = true → (q.box i).fired = true

theorem mem_nodes {P : List Timer} {i : Nat} : some i ∈ nodes P ↔ ∃ t ∈ P, t.id = i := by
  simp [nodes]

theorem nodes_append (P R : List Timer) : nodes (P ++ R) = nodes P ++ nodes R := List.map_append

theorem head_nodes (P : List Timer) :
    (nodes P ++ [none]).head? = some (P.head?.map Timer.id) := by
  cases P <;> rfl

/-- The first pending timer, or the sentinel. -/
theorem Pending.next_none {q : Queue} {P : List Timer} (h : Pending q P) :
    (q.links none).next = some (P.head?.map Timer.id) := by
  rw [h.ring.next_anchor, head_nodes]

/-- `is_idle` tells whether a timer is pending. -/
theorem Pending.isIdle {q : Queue} {P : List Timer} (h : Pending q P) :
    ListHead.isEmpty q.links none = P.isEmpty := by
  have hiff := ListHead.isEmpty_iff h.ring
  cases P with
  | nil => simpa [nodes] using hiff
  | cons t P => simpa [nodes] using hiff

/-- Pending timers are in different boxes. -/
theorem Pending.nodup {q : Queue} {P : List Timer} (h : Pending q P) : (P.map Timer.id).Nodup := by
  have hnodup : (nodes P).Nodup := (List.nodup_cons.mp h.ring.nodup).2
  have hnodes : nodes P = (P.map Timer.id).map some := by simp [nodes]
  rw [hnodes] at hnodup
  exact hnodup.of_map _

/-- An armed box holds a pending timer or one that has fired, so another box holds none. -/
theorem Pending.ne_of_unarmed {q : Queue} {P : List Timer} (h : Pending q P) {i : Nat}
    (hi : (q.box i).armed = false) : ∀ t ∈ P, t.id ≠ i := by
  intro t ht he
  rw [← he, h.boxes t ht] at hi
  cases hi

/-! ## The functions on sequences

The functions of `CustLib.Execution.Reactor` cut the sequence at the first timer with a later deadline,
which is how the loops of `reactor.c` go through the list.
-/

/-- The new timer goes in front of the first one that is later. -/
theorem reactorInsert_eq (t : Timer) (P : List Timer) :
    Exec.reactorInsert t P =
      P.takeWhile (·.deadline ≤ t.deadline) ++ t :: P.dropWhile (·.deadline ≤ t.deadline) := by
  induction P with
  | nil => rfl
  | cons p P ih =>
      by_cases hp : p.deadline > t.deadline
      · simp [Exec.reactorInsert, hp, not_le.mpr hp]
      · simp [Exec.reactorInsert, hp, not_lt.mp hp, ih]

/-- Those that are due are cut off the front. -/
theorem fireDue_eq (now : Nat) (P : List Timer) :
    Exec.fireDue now P = (P.takeWhile (·.deadline ≤ now), P.dropWhile (·.deadline ≤ now)) := by
  induction P with
  | nil => rfl
  | cons p P ih =>
      by_cases hp : p.deadline > now
      · simp [Exec.fireDue, hp, not_le.mpr hp]
      · simp [Exec.fireDue, hp, not_lt.mp hp, ih]

/-! ## One call

What each call does to the sequence. The loop of `fire_due` unlinks a timer before it wakes its task,
and reads the head anew in every round; a waker only queues its task, so it changes nothing here.
-/

/-- The head of the list has the earliest deadline. -/
theorem reactorEarliest_spec {q : Queue} {P : List Timer} (h : Pending q P) :
    reactorEarliest q = (some (earliest P), q) := by
  simp only [reactorEarliest, Eff.bind_run, isIdle, Eff.move, h.isIdle]
  cases P with
  | nil => rfl
  | cons t P =>
      simp only [List.isEmpty_cons, Bool.false_eq_true, if_false, Eff.bind_run, next, h.next_none,
        timerOf, fields, Eff.move, List.head?_cons, Option.map_some,
        h.boxes t List.mem_cons_self]
      rfl

/-- The walk stops at the first timer that is due later. The induction is on the timers ahead. -/
theorem walkTo_spec {q : Queue} (d : Nat) {P R : List Timer}
    (hring : IsRing q.links none (nodes P ++ nodes R))
    (hboxes : ∀ t ∈ R, (q.box t.id).deadline = t.deadline) {n : Nat} (hn : R.length < n) :
    walkTo d n (R.head?.map Timer.id) q =
      (some ((R.dropWhile (·.deadline ≤ d)).head?.map Timer.id), q) := by
  induction R generalizing P n with
  | nil =>
      obtain ⟨n, rfl⟩ : ∃ k, n = k + 1 := ⟨n - 1, by omega⟩
      rfl
  | cons t R ih =>
      obtain ⟨n, rfl⟩ : ∃ k, n = k + 1 := ⟨n - 1, by omega⟩
      have hdeadline := hboxes t List.mem_cons_self
      have hnext : (q.links (some t.id)).next = some (R.head?.map Timer.id) :=
        hring.next_mem.trans (head_nodes R)
      have hring' : IsRing q.links none (nodes (P ++ [t]) ++ nodes R) := by
        rw [nodes_append, List.append_assoc]
        exact hring
      have hrest := ih hring' (fun u hu => hboxes u (List.mem_cons_of_mem t hu))
        (Nat.lt_of_succ_lt_succ hn)
      simp only [List.head?_cons, Option.map_some, walkTo, Eff.bind_run, fields, Eff.move,
        hdeadline]
      by_cases ht : t.deadline > d
      · rw [if_pos ht, List.dropWhile_cons_of_neg (by simpa using ht)]
        rfl
      · rw [if_neg ht, List.dropWhile_cons_of_pos (by simpa using ht), Eff.bind_run, next, hnext]
        exact hrest

/-- `reactor_insert` puts a timer behind every one that is not due later. -/
theorem reactorInsert_spec {q : Queue} {P : List Timer} (h : Pending q P) {t n : Nat}
    (ht : ∀ u ∈ P, u.id ≠ t) (hn : P.length < n) :
    ∃ links, reactorInsert n t q = (some (), { q with links }) ∧
      IsRing links none (nodes (P.takeWhile (·.deadline ≤ (q.box t).deadline)) ++
        some t :: nodes (P.dropWhile (·.deadline ≤ (q.box t).deadline))) := by
  have hcut := (List.takeWhile_append_dropWhile (p := (·.deadline ≤ (q.box t).deadline)) (l := P))
  have hring := h.ring
  rw [← hcut, nodes_append] at hring
  have hwalk := walkTo_spec (q.box t).deadline (P := []) h.ring
    (fun u hu => by rw [h.boxes u hu]) hn
  have hnew : some t ∉ none :: (nodes (P.takeWhile (·.deadline ≤ (q.box t).deadline)) ++
      nodes (P.dropWhile (·.deadline ≤ (q.box t).deadline))) := by
    rw [← nodes_append, hcut]
    simpa [mem_nodes] using ht
  obtain ⟨links, hadd, hring', -⟩ := ListHead.addTail_spec hring hnew (head_nodes _)
  refine ⟨links, ?_, hring'⟩
  simp only [reactorInsert, Eff.bind_run, fields, Eff.move, next, h.next_none, hwalk, relink, hadd]

/-- A box that is not armed may change. -/
theorem Pending.set_unarmed {q : Queue} {P : List Timer} (h : Pending q P) {t : Nat}
    (ht : (q.box t).armed = false) {b : Box} (hb : b.armed = false) (calls : List WakerCall) :
    Pending ⟨q.links, Function.update q.box t b, calls⟩ P := by
  refine ⟨h.ring, ?_, ?_⟩
  · intro u hu
    show Function.update q.box t b u.id = _
    rw [Function.update_of_ne (h.ne_of_unarmed ht u hu), h.boxes u hu]
  · intro i hi
    show (Function.update q.box t b i).armed = true → (Function.update q.box t b i).fired = true
    rw [Function.update_apply]
    split
    · intro harmed
      exact absurd harmed (by simp [hb])
    · exact h.others i hi

/-- The new timer is linked, and its box armed. -/
theorem Pending.set_armed {q : Queue} {P : List Timer} (h : Pending q P) {t : Timer}
    (hne : ∀ u ∈ P, u.id ≠ t.id) {links : Heap Node}
    (hring : IsRing links none (nodes (Exec.reactorInsert t P))) :
    Pending ⟨links, Function.update q.box t.id ⟨t.deadline, t.waker, false, true⟩, q.calls⟩
      (Exec.reactorInsert t P) := by
  have hmem : ∀ u, u ∈ Exec.reactorInsert t P ↔ u = t ∨ u ∈ P := by
    intro u
    rw [(Exec.reactorInsert_perm t P).mem_iff, List.mem_cons]
  refine ⟨hring, ?_, ?_⟩
  · intro u hu
    rcases (hmem u).mp hu with rfl | hu
    · exact Function.update_self _ _ _
    · show Function.update q.box t.id _ u.id = _
      rw [Function.update_of_ne (hne u hu), h.boxes u hu]
  · intro i hi
    have hit : i ≠ t.id := fun he => hi t ((hmem t).mpr (.inl rfl)) he.symm
    show (Function.update q.box t.id _ i).armed = true → (Function.update q.box t.id _ i).fired = true
    rw [Function.update_of_ne hit]
    exact h.others i fun u hu => hi u ((hmem u).mpr (.inr hu))

/-- A timer is armed. -/
theorem arm_spec {q : Queue} {P : List Timer} (h : Pending q P) {t : Nat}
    (ht : (q.box t).armed = false) (deadline : Nat) (w : TaskId) {n : Nat} (hn : P.length < n) :
    ∃ q', arm n t deadline w q = (some (), q') ∧
      Pending q' (Exec.reactorInsert ⟨t, deadline, w⟩ P) ∧
      ∀ i, (q'.box i).armed = if i = t then true else (q.box i).armed := by
  have hne := h.ne_of_unarmed ht
  -- the queue when `reactor_insert` is called
  let q₁ : Queue := { q with
    box   := Function.update q.box t { q.box t with deadline, waker := w, fired := false }
    calls := q.calls ++ [.clone w] }
  have hbox : q₁.box t = ⟨deadline, w, false, false⟩ := by simp [q₁, ht]
  have h₁ : Pending q₁ P := by
    apply h.set_unarmed ht
    exact ht
  obtain ⟨links, hrun, hring⟩ := reactorInsert_spec h₁ hne hn
  rw [hbox] at hring
  have hring' : IsRing links none (nodes (Exec.reactorInsert ⟨t, deadline, w⟩ P)) := by
    rw [reactorInsert_eq, nodes_append]
    exact hring
  refine ⟨_, ?_, h₁.set_armed hne hring', ?_⟩
  · simp only [arm, Eff.bind_run, callWaker, write, Eff.modify]
    rw [show reactorInsert n t _ = (some (), { q₁ with links }) from hrun]
    dsimp only
    rw [hbox]
  · intro i
    by_cases hit : i = t
    · subst hit
      simp
    · simp [q₁, hit]

/-- The box `t` is freed when its timer is not linked any more. -/
theorem Pending.free {q : Queue} {P : List Timer} (h : Pending q P) {t : Nat} {links : Heap Node}
    (hring : IsRing links none (nodes (P.filter (·.id ≠ t)))) (calls : List WakerCall) :
    Pending ⟨links, Function.update q.box t { q.box t with armed := false }, calls⟩
      (P.filter (·.id ≠ t)) := by
  refine ⟨hring, ?_, ?_⟩
  · intro u hu
    obtain ⟨hu, hne⟩ := List.mem_filter.mp hu
    rw [← h.boxes u hu]
    exact Function.update_of_ne (by simpa using hne) _ _
  · intro i hi harmed
    by_cases hit : i = t
    · subst hit
      simp at harmed
    · dsimp only at harmed ⊢
      rw [Function.update_of_ne hit] at harmed ⊢
      refine h.others i (fun u hu he => hi u (List.mem_filter.mpr ⟨hu, ?_⟩) he) harmed
      simpa [he] using hit

/-- The box that `sleep_drop` takes for a linked one is that of a pending timer. -/
theorem Pending.timer_of_linked {q : Queue} {P : List Timer} (h : Pending q P) {t : Nat}
    (hlinked : ((q.box t).armed && !(q.box t).fired) = true) : ∃ u ∈ P, u.id = t := by
  rw [Bool.and_eq_true, Bool.not_eq_true'] at hlinked
  by_contra hno
  have hfired := h.others t (fun u hu he => hno ⟨u, hu, he⟩) hlinked.1
  rw [hlinked.2] at hfired
  cases hfired

/-- The box of a pending timer is linked. -/
theorem Pending.ne_of_unlinked {q : Queue} {P : List Timer} (h : Pending q P) {t : Nat}
    (hlinked : ¬ ((q.box t).armed && !(q.box t).fired) = true) : ∀ u ∈ P, u.id ≠ t := by
  rintro u hu rfl
  rw [h.boxes u hu] at hlinked
  exact hlinked rfl

/-- The other timers, when the boxes are told apart. -/
theorem filter_id_ne {P₁ P₂ : List Timer} {u : Timer}
    (hnodup : ((P₁ ++ u :: P₂).map Timer.id).Nodup) :
    (P₁ ++ u :: P₂).filter (·.id ≠ u.id) = P₁ ++ P₂ := by
  rw [List.map_append, List.map_cons, List.nodup_middle, List.nodup_cons, ← List.map_append,
    List.mem_map] at hnodup
  rw [List.filter_append, List.filter_cons_of_neg (by simp), ← List.filter_append]
  apply List.filter_eq_self.mpr
  intro v hv
  simpa using fun he => hnodup.1 ⟨v, hv, he⟩

/-- A box is dropped: its timer is unlinked if it is pending. -/
theorem sleepDrop_spec {q : Queue} {P : List Timer} (h : Pending q P) (t : Nat) :
    ∃ q', sleepDrop t q = (some (), q') ∧ Pending q' (P.filter (·.id ≠ t)) ∧
      ∀ i, (q'.box i).armed = if i = t then false else (q.box i).armed := by
  have harmed : ∀ i, ((Function.update q.box t { q.box t with armed := false }) i).armed =
      if i = t then false else (q.box i).armed := by
    intro i
    by_cases hi : i = t
    · simp [hi]
    · simp [hi]
  by_cases hlinked : ((q.box t).armed && !(q.box t).fired) = true
  · obtain ⟨u, hu, rfl⟩ := h.timer_of_linked hlinked
    obtain ⟨P₁, P₂, rfl⟩ := List.append_of_mem hu
    have hrest := filter_id_ne h.nodup
    have hring : IsRing q.links none (nodes P₁ ++ some u.id :: nodes P₂) :=
      nodes_append P₁ (u :: P₂) ▸ h.ring
    obtain ⟨links, hdel, hring', -⟩ := ListHead.del_spec hring
    rw [← nodes_append, ← hrest] at hring'
    refine ⟨_, ?_, h.free hring' (q.calls ++ [.drop (q.box u.id).waker]), harmed⟩
    simp only [sleepDrop, Eff.bind_run, fields, Eff.move, Eff.when, hlinked, if_true, relink, hdel,
      callWaker, write, Eff.modify]
  · -- a timer that has fired is not linked any more
    have hsame : P.filter (·.id ≠ t) = P := by
      apply List.filter_eq_self.mpr
      intro u hu
      exact decide_eq_true (h.ne_of_unlinked hlinked u hu)
    refine ⟨_, ?_, h.free (hsame ▸ h.ring) q.calls, harmed⟩
    simp only [sleepDrop, Eff.bind_run, fields, Eff.move, Eff.when, hlinked, write, Eff.modify]
    rfl

/-- The timers `due` have fired: their tasks were woken in this order, and their boxes marked. -/
structure Fired (due : List Timer) (q q' : Queue) : Prop where
  calls : q'.calls = q.calls ++ due.map fun t => .wake t.waker
  boxes : ∀ i, q'.box i =
    if ∃ t ∈ due, t.id = i then { q.box i with fired := true } else q.box i
  links : ∀ t ∈ due, q'.links (some t.id) = ⟨none, none⟩

/-- The first timer fires. -/
theorem fire_first {q : Queue} {t : Timer} {P : List Timer} (h : Pending q (t :: P)) :
    ∃ links, ListHead.del q.links (some t.id) = some links ∧ links (some t.id) = ⟨none, none⟩ ∧
      (∀ x, x ∉ none :: nodes (t :: P) → links x = q.links x) ∧
      Pending ⟨links, Function.update q.box t.id { q.box t.id with fired := true },
        q.calls ++ [.wake t.waker]⟩ P := by
  have hring : IsRing q.links none ([] ++ some t.id :: nodes P) := h.ring
  obtain ⟨links, hdel, hring', hnull, hframe⟩ := ListHead.del_spec hring
  have hnodup := h.nodup
  rw [List.map_cons, List.nodup_cons, List.mem_map] at hnodup
  have hne : ∀ u ∈ P, u.id ≠ t.id := fun u hu he => hnodup.1 ⟨u, hu, he⟩
  refine ⟨links, hdel, hnull, hframe, hring', ?_, ?_⟩
  · intro u hu
    rw [← h.boxes u (List.mem_cons_of_mem t hu)]
    exact Function.update_of_ne (hne u hu) _ _
  · intro i hi harmed
    by_cases hit : i = t.id
    · simp [hit]
    · dsimp only at harmed ⊢
      rw [Function.update_of_ne hit] at harmed ⊢
      apply h.others i _ harmed
      intro u hu he
      rcases List.mem_cons.mp hu with rfl | hu
      · exact hit he.symm
      · exact hi u hu he

/-- The induction is on the pending timers: the loop unlinks the first one as long as it is due. -/
theorem fireLoop_spec {q : Queue} (now : Nat) {P : List Timer} (h : Pending q P) {n : Nat}
    (hn : P.length < n) (progressed : Bool) :
    ∃ q', fireLoop now n progressed q =
        (some (progressed || !(P.takeWhile (·.deadline ≤ now)).isEmpty), q') ∧
      Pending q' (P.dropWhile (·.deadline ≤ now)) ∧
      Fired (P.takeWhile (·.deadline ≤ now)) q q' ∧
      ∀ x, x ∉ none :: nodes P → q'.links x = q.links x := by
  induction P generalizing q n progressed with
  | nil =>
      obtain ⟨n, rfl⟩ : ∃ k, n = k + 1 := ⟨n - 1, by omega⟩
      refine ⟨q, ?_, h, ⟨by simp, by simp, nofun⟩, fun _ _ => rfl⟩
      simp only [fireLoop, Eff.bind_run, isIdle, Eff.move, h.isIdle]
      simp
      rfl
  | cons t P ih =>
      obtain ⟨n, rfl⟩ : ∃ k, n = k + 1 := ⟨n - 1, by omega⟩
      have hbox := h.boxes t List.mem_cons_self
      have hnext := h.next_none
      rw [List.head?_cons, Option.map_some] at hnext
      simp only [fireLoop, Eff.bind_run, isIdle, Eff.move, h.isIdle, List.isEmpty_cons,
        Bool.false_eq_true, if_false, next, hnext, timerOf, fields, hbox]
      by_cases ht : t.deadline > now
      · -- the first timer is not due, and the loop stops
        rw [if_pos ht, List.takeWhile_cons_of_neg (by simpa using ht),
          List.dropWhile_cons_of_neg (by simpa using ht)]
        refine ⟨q, ?_, h, ⟨by simp, by simp, nofun⟩, fun _ _ => rfl⟩
        simp
        rfl
      · obtain ⟨links, hdel, hnull, hframe, h₁⟩ := fire_first h
        obtain ⟨q', hrun, hpend, hfired, hframe'⟩ := ih h₁ (Nat.lt_of_succ_lt_succ hn) true
        have hnotin : some t.id ∉ none :: nodes P := by
          have hnodup := (List.nodup_cons.mp h.ring.nodup).2
          rw [List.mem_cons, not_or]
          exact ⟨nofun, (List.nodup_cons.mp hnodup).1⟩
        rw [if_neg ht, List.takeWhile_cons_of_pos (by simpa using ht),
          List.dropWhile_cons_of_pos (by simpa using ht)]
        refine ⟨q', ?_, hpend, ⟨?_, ?_, ?_⟩, ?_⟩
        · simp only [Eff.bind_run, relink, hdel, write, Eff.modify, callWaker]
          rw [hrun]
          simp
        · rw [hfired.calls]
          simp
        · intro i
          rw [hfired.boxes i]
          by_cases hit : i = t.id
          · simp [hit]
          · simp [Function.update_of_ne hit, Ne.symm hit]
        · intro u hu
          rcases List.mem_cons.mp hu with rfl | hu
          · exact (hframe' _ hnotin).trans hnull
          · exact hfired.links u hu
        · intro x hx
          have hx' : x ∉ none :: nodes P := by
            intro hmem
            apply hx
            simp only [nodes, List.map_cons, List.mem_cons] at hmem ⊢
            tauto
          exact (hframe' x hx').trans (hframe x hx)

/-- `cexec_reactor_fire_due`. -/
theorem fireDue_spec {q : Queue} (now : Nat) {P : List Timer} (h : Pending q P) {n : Nat}
    (hn : P.length < n) :
    ∃ q', fireDue n now q = (some (!(Exec.fireDue now P).1.isEmpty), q') ∧
      Pending q' (Exec.fireDue now P).2 ∧ Fired (Exec.fireDue now P).1 q q' := by
  rw [fireDue_eq]
  obtain ⟨q', hrun, hpend, hfired, -⟩ := fireLoop_spec now h hn false
  exact ⟨q', hrun, hpend, hfired⟩

/-! ## Sequences of calls

Arm, drop and fire in any order. The specification keeps the timers in the order of their insertions,
unsorted; the list is its stable sort by deadlines (`CustLib.Lib.StableSort`).
-/

/-- The calls on the list: the first poll of a sleep whose deadline is ahead, the drop of a sleep, and
    `cexec_reactor_fire_due`. -/
inductive Act where
  | arm (box deadline : Nat) (w : TaskId)
  | drop (box : Nat)
  | fireDue (now : Nat)
  deriving DecidableEq, Repr

def ran {α : Type} (x : Eff Queue α) (q : Queue) : Option Queue :=
  match x q with
  | (some _, q') => some q'
  | (none, _)    => none

/-- One call; its loop is cut off after `n` rounds. `sleep_poll` does not insert the timer of a box
    that is armed. -/
def exec (n : Nat) (q : Queue) : Act → Option Queue
  | .arm t deadline w => if (q.box t).armed then some q else ran (arm n t deadline w) q
  | .drop t           => ran (sleepDrop t) q
  | .fireDue now      => ran (fireDue n now) q

/-- `cexec_reactor_init`, in a memory with any contents. No box is armed yet. -/
def Queue.init (links : Heap Node) (box : Nat → Box) : Queue where
  links := ListHead.init links none
  box i := { box i with armed := false }
  calls := []

structure Spec where
  live  : List Timer
  armed : Nat → Bool

def Spec.step (s : Spec) : Act → Spec
  | .arm t deadline w =>
    if s.armed t then s
    else ⟨s.live ++ [⟨t, deadline, w⟩], Function.update s.armed t true⟩
  | .drop t           => ⟨s.live.filter (·.id ≠ t), Function.update s.armed t false⟩
  | .fireDue now      => ⟨s.live.filter (now < ·.deadline), s.armed⟩

/-- What is pending after a sequence of calls. -/
def Spec.after (acts : List Act) : Spec := acts.foldl Spec.step ⟨[], fun _ => false⟩

theorem Spec.after_concat (acts : List Act) (a : Act) :
    Spec.after (acts ++ [a]) = (Spec.after acts).step a := by
  rw [Spec.after, List.foldl_concat]
  rfl

structure Models (acts : List Act) (q : Queue) (P : List Timer) : Prop where
  pending : Pending q P
  sorted  : StableSort Timer.deadline (Spec.after acts).live P
  armed   : ∀ i, (q.box i).armed = (Spec.after acts).armed i
  length  : P.length ≤ acts.length

theorem models_init (links : Heap Node) (box : Nat → Box) : Models [] (Queue.init links box) [] := by
  refine ⟨⟨(ListHead.init_spec links none).1, nofun, ?_⟩, StableSort.nil, fun _ => rfl,
    Nat.le_refl _⟩
  intro i _ harmed
  cases harmed

/-- **Step lemma.** -/
theorem exec_models {acts : List Act} {q : Queue} {P : List Timer} (h : Models acts q P) {n : Nat}
    (hn : acts.length < n) (a : Act) :
    ∃ q' P', exec n q a = some q' ∧ Models (acts ++ [a]) q' P' := by
  have hfuel : P.length < n := Nat.lt_of_le_of_lt h.length hn
  cases a with
  | arm t deadline w =>
      by_cases ht : (q.box t).armed = true
      · -- a box that is armed is not armed again
        have hspec : Spec.after (acts ++ [.arm t deadline w]) = Spec.after acts := by
          rw [Spec.after_concat, Spec.step, if_pos (h.armed t ▸ ht)]
        refine ⟨q, P, if_pos ht, h.pending, ?_, ?_, ?_⟩
        · rw [hspec]
          exact h.sorted
        · rw [hspec]
          exact h.armed
        · rw [List.length_append]
          exact Nat.le_add_right_of_le h.length
      · obtain ⟨q', hrun, hpend, harmed⟩ :=
          arm_spec h.pending (Bool.eq_false_iff.mpr ht) deadline w hfuel
        refine ⟨q', _, ?_, hpend, ?_, ?_, ?_⟩
        · rw [exec, if_neg ht, ran, hrun]
        · rw [Spec.after_concat, Spec.step, if_neg (h.armed t ▸ ht), reactorInsert_eq]
          exact h.sorted.insert ⟨t, deadline, w⟩
        · intro i
          rw [Spec.after_concat, Spec.step, if_neg (h.armed t ▸ ht), harmed i, h.armed i]
          exact (Function.update_apply _ _ _ _).symm
        · rw [(Exec.reactorInsert_perm _ P).length_eq, List.length_append]
          exact Nat.succ_le_succ h.length
  | drop t =>
      obtain ⟨q', hrun, hpend, harmed⟩ := sleepDrop_spec h.pending t
      refine ⟨q', _, ?_, hpend, ?_, ?_, ?_⟩
      · rw [exec, ran, hrun]
      · rw [Spec.after_concat]
        exact h.sorted.filter _
      · intro i
        rw [Spec.after_concat, harmed i, h.armed i]
        exact (Function.update_apply _ _ _ _).symm
      · rw [List.length_append]
        exact Nat.le_add_right_of_le ((List.length_filter_le _ P).trans h.length)
  | fireDue now =>
      obtain ⟨q', hrun, hpend, hfired⟩ := fireDue_spec now h.pending hfuel
      rw [fireDue_eq, dropWhile_le h.sorted.ordered] at hpend
      refine ⟨q', _, ?_, hpend, ?_, ?_, ?_⟩
      · rw [exec, ran, hrun]
      · rw [Spec.after_concat]
        exact h.sorted.filter _
      · intro i
        rw [Spec.after_concat, hfired.boxes i]
        split
        · exact h.armed i
        · exact h.armed i
      · rw [List.length_append]
        exact Nat.le_add_right_of_le ((List.length_filter_le _ P).trans h.length)

/-- **Run lemma.** Every sequence of calls returns, and leaves the list sorted. -/
theorem run_models (links : Heap Node) (box : Nat → Box) (acts : List Act) {n : Nat}
    (hn : acts.length < n) :
    ∃ q P, run (exec n) (Queue.init links box) acts = some q ∧ Models acts q P := by
  have hstep : ∀ done a rest q, acts = done ++ a :: rest → (∃ P, Models done q P) →
      ∃ q', exec n q a = some q' ∧ ∃ P, Models (done ++ [a]) q' P := by
    rintro done a rest q rfl ⟨P, h⟩
    have hdone : done.length < n := by
      rw [List.length_append] at hn
      omega
    obtain ⟨q', P', hexec, h'⟩ := exec_models h hdone a
    exact ⟨q', hexec, P', h'⟩
  obtain ⟨q, hrun, P, hmodels⟩ :=
    run_progress (I := fun done q => ∃ P, Models done q P) ⟨[], models_init links box⟩ hstep
  exact ⟨q, P, hrun, hmodels⟩

/-- The first deadline of a sorted list is the least one. -/
theorem earliest_least {P : List Timer} (h : P.Pairwise (·.deadline ≤ ·.deadline)) :
    (Exec.earliest P = none ↔ P = []) ∧
      ∀ d, Exec.earliest P = some d → (∃ t ∈ P, t.deadline = d) ∧ ∀ t ∈ P, d ≤ t.deadline := by
  cases P with
  | nil => exact ⟨by simp [Exec.earliest], nofun⟩
  | cons t P =>
      refine ⟨by simp [Exec.earliest], ?_⟩
      intro d hd
      cases hd
      refine ⟨⟨t, List.mem_cons_self, rfl⟩, ?_⟩
      intro u hu
      rcases List.mem_cons.mp hu with rfl | hu
      · exact Nat.le_refl _
      · exact (List.pairwise_cons.mp h).1 u hu

/-- **The timer queue is a stable priority queue.** After every sequence of calls the list holds what is
    pending, in the order of the deadlines and for one deadline in the order of the insertions.
    `cexec_reactor_earliest` returns the least deadline. `cexec_reactor_fire_due` wakes the tasks of the
    timers that are due in this order, each once, marks and unlinks exactly those, keeps the rest, and
    returns whether there was one. -/
theorem timer_queue_stable (links : Heap Node) (box : Nat → Box) (acts : List Act) {n : Nat}
    (hn : acts.length < n) :
    ∃ q P, run (exec n) (Queue.init links box) acts = some q ∧
      IsRing q.links none (nodes P) ∧
      StableSort Timer.deadline (Spec.after acts).live P ∧
      (∃ r, reactorEarliest q = (some r, q) ∧ (r = none ↔ P = []) ∧
        ∀ d, r = some d → (∃ t ∈ P, t.deadline = d) ∧ ∀ t ∈ P, d ≤ t.deadline) ∧
      ∀ now, ∃ q', fireDue n now q = (some (decide (∃ t ∈ P, t.deadline ≤ now)), q') ∧
        q'.calls = q.calls ++ (P.filter (·.deadline ≤ now)).map (fun t => .wake t.waker) ∧
        (∀ i, q'.box i = if ∃ t ∈ P, t.id = i ∧ t.deadline ≤ now
          then { q.box i with fired := true } else q.box i) ∧
        (∀ t ∈ P, t.deadline ≤ now → q'.links (some t.id) = ⟨none, none⟩) ∧
        IsRing q'.links none (nodes (P.filter (now < ·.deadline))) := by
  obtain ⟨q, P, hrun, h⟩ := run_models links box acts hn
  obtain ⟨hnone, hleast⟩ := earliest_least h.sorted.ordered
  refine ⟨q, P, hrun, h.pending.ring, h.sorted,
    ⟨_, reactorEarliest_spec h.pending, hnone, hleast⟩, ?_⟩
  intro now
  -- in a sorted list the timers that are due come first
  obtain ⟨q', hfire, hpend, hfired⟩ := fireDue_spec now h.pending (n := n)
    (Nat.lt_of_le_of_lt h.length hn)
  rw [fireDue_eq, takeWhile_le h.sorted.ordered] at hfire hfired
  rw [fireDue_eq, dropWhile_le h.sorted.ordered] at hpend
  have hdue : (!(P.filter (·.deadline ≤ now)).isEmpty) =
      decide (∃ t ∈ P, t.deadline ≤ now) := by
    rw [Bool.eq_iff_iff]
    simp
  refine ⟨q', hdue ▸ hfire, hfired.calls, ?_, ?_, hpend.ring⟩
  · intro i
    rw [hfired.boxes i]
    apply if_congr _ rfl rfl
    simp only [List.mem_filter, decide_eq_true_eq, and_assoc]
    grind
  · intro t ht hdue
    exact hfired.links t (List.mem_filter.mpr ⟨ht, decide_eq_true hdue⟩)

/-- Two timers with one deadline, one that fires, one that is dropped, and one that overtakes. -/
def tieCalls : List Act :=
  [.arm 1 10 5, .arm 2 7 6, .arm 3 10 4, .fireDue 8, .arm 5 9 1, .drop 5, .arm 4 3 0]

theorem timer_queue_stable_ties :
    (Spec.after tieCalls).live = [⟨1, 10, 5⟩, ⟨3, 10, 4⟩, ⟨4, 3, 0⟩] ∧
      ∃ q P, run (exec 8) (Queue.init (fun _ => ⟨none, none⟩) fun _ => ⟨0, 0, false, false⟩)
          tieCalls = some q ∧ IsRing q.links none (nodes P) ∧
        StableSort Timer.deadline (Spec.after tieCalls).live P := by
  obtain ⟨q, P, hrun, hring, hsort, -⟩ := timer_queue_stable (fun _ => ⟨none, none⟩)
    (fun _ => ⟨0, 0, false, false⟩) tieCalls (show tieCalls.length < 8 by decide)
  exact ⟨rfl, q, P, hrun, hring, hsort⟩

end CustLib.TimerQueue
