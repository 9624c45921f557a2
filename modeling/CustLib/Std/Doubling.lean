import CustLib.Std.Str
import CustLib.Std.Vec

/-!
# What it costs that buffers grow

`std_vec` and `cstd_string` have their block moved by `reallocate` when it gets too small. Because
`next_cap` doubles, the bytes that are moved in a whole run are less than the block has room for at the
end, and the block has room for less than twice of what was asked for at some moment. That is shown once
for every machine whose steps grow a buffer the way these two do (`run_thrift`).
-/

namespace CustLib

open CustLib.Machine

/-! ## The capacities

The loop of `next_cap` does not overshoot: the capacity that it returns is at most 8, or less than twice
what was asked for.
-/

/-- The loop does not stop below twice the capacity, and not beyond twice of what is needed. -/
theorem nextCapLoop_tight {fuel newCap need c : Nat} (hneed : need < 2 ^ 64)
    (h : nextCapLoop fuel newCap need = some c) :
    (c = newCap ∨ c < 2 * need) ∧ newCap ≤ c ∧ (newCap < need → c ≤ 2 ^ 63 → 2 * newCap ≤ c) := by
  induction fuel generalizing newCap with
  | zero => cases h
  | succ fuel ih =>
      unfold nextCapLoop at h
      split at h
      next hlt =>
        split at h
        next hlast =>
          cases h
          exact ⟨.inr (by omega), hlt.le, fun _ hc => by omega⟩
        next hdouble =>
          rw [wmul_eq (by omega)] at h
          obtain ⟨htight, hle, -⟩ := ih h
          refine ⟨.inr ?_, by omega, fun _ _ => by omega⟩
          rcases htight with rfl | hless <;> omega
      next hge =>
        cases h
        exact ⟨.inl rfl, Nat.le_refl _, fun hlt => absurd hlt hge⟩

/-- **`next_cap`** doubles, and does not go beyond twice of what is needed. -/
theorem nextCap_tight {current need c : Nat} (hlt : current < need) (hneed : need < 2 ^ 64)
    (h : nextCap current need = some c) :
    8 ≤ c ∧ (c = 8 ∨ c < 2 * need) ∧ (8 ≤ current → c ≤ 2 ^ 63 → 2 * current ≤ c) := by
  obtain ⟨htight, hle, hdouble⟩ := nextCapLoop_tight hneed h
  by_cases hsmall : current < 8
  · rw [if_pos hsmall] at htight hle
    exact ⟨hle, htight, fun hge => absurd hge (Nat.not_le.mpr hsmall)⟩
  · rw [if_neg hsmall] at htight hle hdouble
    refine ⟨by omega, .inr ?_, fun _ => hdouble hlt⟩
    rcases htight with rfl | hless <;> omega

/-! ## What is moved

Only `reallocate` moves bytes, and it moves as many as the old block has. `Grows` is the one fact about
a call that the bounds need: either the capacity stays and nothing is moved, or `next_cap` chose a
larger one and the elements are moved once.
-/

/-- The bytes that a call of the allocator moves to another block. -/
def AllocCall.moves : AllocCall → Nat
  | .reallocated _ _ oldSize newSize _ => min oldSize newSize
  | _                                  => 0

def movedBytes (log : List AllocCall) : Nat := (log.map AllocCall.moves).sum

def moveCount (log : List AllocCall) : Nat := log.countP fun call => 0 < call.moves

/-- What a call does to a buffer of `cap` elements, of `unit` bytes each, when it needs room for `need`:
    the capacity stays, or `next_cap` gives a larger one and the elements are moved. -/
inductive Grows (unit need : Nat) : Nat → List AllocCall → Nat → List AllocCall → Prop
  | stays {cap log log'} : movedBytes log' = movedBytes log → moveCount log' = moveCount log →
      Grows unit need cap log cap log'
  | grows {cap log c log'} : cap < need → need < 2 ^ 64 → nextCap cap need = some c →
      movedBytes log' ≤ movedBytes log + cap * unit →
      moveCount log' ≤ moveCount log + (if cap = 0 then 0 else 1) → Grows unit need cap log c log'

theorem Grows.refl (unit need cap : Nat) (log : List AllocCall) :
    Grows unit need cap log cap log := .stays rfl rfl

theorem movedBytes_concat (log : List AllocCall) (call : AllocCall) :
    movedBytes (log ++ [call]) = movedBytes log + call.moves := by
  simp [movedBytes]

theorem moveCount_concat (log : List AllocCall) (call : AllocCall) :
    moveCount (log ++ [call]) = moveCount log + if 0 < call.moves then 1 else 0 := by
  simp [moveCount, List.countP_append, List.countP_singleton]

/-- A buffer that gets a larger block has its old bytes moved. -/
theorem growBlock_moves {data : Option Block} {bytes : List UInt8} {cap unit newBytes align : Nat}
    {a a' : Alloc} {p : Option (Block × List UInt8)}
    (h : growBlock data bytes (cap * unit) newBytes align a = (p, a')) :
    movedBytes a'.log ≤ movedBytes a.log + cap * unit ∧
      moveCount a'.log ≤ moveCount a.log + if cap = 0 then 0 else 1 := by
  have hmoves : ∀ p, (growCall data (cap * unit) newBytes align p).moves ≤ cap * unit := by
    intro p
    cases p <;> cases data <;> simp [growCall, AllocCall.moves]
  have hlog := growBlock_log data bytes (cap * unit) newBytes align a
  rw [h] at hlog
  rw [hlog, movedBytes_concat, moveCount_concat]
  have hle := hmoves ((p, a').1.map Prod.fst)
  refine ⟨Nat.add_le_add_left hle _, Nat.add_le_add_left ?_ _⟩
  split
  next hpos =>
    rw [if_neg]
    rintro rfl
    rw [Nat.zero_mul] at hle hpos
    omega
  next => exact Nat.zero_le _

/-- A refusal moves nothing. -/
theorem growBlock_refused {data : Option Block} {bytes : List UInt8} {oldBytes newBytes align : Nat}
    {a a' : Alloc} (h : growBlock data bytes oldBytes newBytes align a = (none, a')) :
    movedBytes a'.log = movedBytes a.log ∧ moveCount a'.log = moveCount a.log := by
  have hlog := growBlock_log data bytes oldBytes newBytes align a
  rw [h] at hlog
  rw [hlog, movedBytes_concat, moveCount_concat]
  cases data <;> exact ⟨rfl, rfl⟩

/-! ## Whole runs

The potential argument of table doubling, for any machine whose steps grow a buffer: every move pays for
itself with the room that it creates, so what was moved so far has room in the last block. `run_thrift`
is the induction, and the two containers only have to show `Grows` of their calls.
-/

section Runs

variable {σ α : Type*} {step : σ → α → Option σ} {cap : σ → Nat} {log : σ → List AllocCall}
  {demand : σ → α → Nat} {I : σ → Prop} {unit : Nat}

/-- Some call of the run needed room for `n`. -/
def Asked (step : σ → α → Option σ) (demand : σ → α → Nat) (s₀ : σ) (as : List α) (n : Nat) : Prop :=
  ∃ pre a post s, as = pre ++ a :: post ∧ run step s₀ pre = some s ∧ demand s a = n

theorem Asked.mono {s₀ : σ} {as : List α} {n : Nat} (h : Asked step demand s₀ as n) (bs : List α) :
    Asked step demand s₀ (as ++ bs) n := by
  obtain ⟨pre, a, post, s, rfl, hrun, hn⟩ := h
  exact ⟨pre, a, post ++ bs, s, by simp, hrun, hn⟩

/-- What the growth of a buffer of capacity `cap` has cost: `moved` bytes, `count` times. `asked` is
    what it was asked for. -/
structure Thrift (unit cap moved count : Nat) (asked : Nat → Prop) : Prop where
  least : cap = 0 ∨ 8 ≤ cap
  /-- The bytes that were moved have room in the last block, with eight elements left. -/
  moved : cap ≤ 2 ^ 63 → moved + min 8 cap * unit ≤ cap * unit
  /-- Every move has doubled the capacity. -/
  count : cap ≤ 2 ^ 63 → min 8 cap * 2 ^ count ≤ cap ∧ (cap = 0 → count = 0)
  /-- The capacity is less than twice of what was asked for. -/
  asked : cap ≤ 8 ∨ ∃ n, asked n ∧ cap < 2 * n

theorem Thrift.mono {cap moved count : Nat} {asked asked' : Nat → Prop}
    (h : Thrift unit cap moved count asked) (hasked : ∀ n, asked n → asked' n) :
    Thrift unit cap moved count asked' :=
  { h with asked := h.asked.imp_right fun ⟨n, hn, hlt⟩ => ⟨n, hasked n hn, hlt⟩ }

/-- **Step rule.** Growth pays for itself. -/
theorem Thrift.grow {cap cap' need base baseCount : Nat} {log log' : List AllocCall}
    {asked : Nat → Prop}
    (h : Thrift unit cap (movedBytes log - base) (moveCount log - baseCount) asked)
    (hneed : asked need) (hgrows : Grows unit need cap log cap' log') :
    Thrift unit cap' (movedBytes log' - base) (moveCount log' - baseCount) asked := by
  cases hgrows with
  | stays hmoved hcount => rwa [hmoved, hcount]
  | grows hlt hsize hnext hmoved hcount =>
      obtain ⟨hmin, htight, hdouble⟩ := nextCap_tight hlt hsize hnext
      have height : min 8 cap' = 8 := Nat.min_eq_left hmin
      refine ⟨.inr hmin, fun hcap => ?_, fun hcap => ?_, ?_⟩
      · rw [height]
        rcases h.least with hzero | hge
        · -- the first block
          have hnone := h.moved (by omega)
          have hroom : 8 * unit ≤ cap' * unit := Nat.mul_le_mul_right _ hmin
          rw [hzero, Nat.zero_mul, Nat.add_zero] at hmoved
          rw [hzero, Nat.zero_mul] at hnone
          omega
        · have htwice := hdouble hge hcap
          have hbefore := h.moved (by omega)
          have hroom : 2 * cap * unit ≤ cap' * unit := Nat.mul_le_mul_right _ htwice
          rw [Nat.min_eq_left hge] at hbefore
          rw [Nat.mul_assoc] at hroom
          omega
      · rw [height]
        refine ⟨?_, fun hzero => by omega⟩
        rcases h.least with hzero | hge
        · have hnone := (h.count (by omega)).2 hzero
          rw [if_pos hzero, Nat.add_zero] at hcount
          have hstill : moveCount log' - baseCount = 0 := by omega
          rw [hstill]
          omega
        · have htwice := hdouble hge hcap
          have hbefore := (h.count (by omega)).1
          rw [if_neg (by omega)] at hcount
          rw [Nat.min_eq_left hge] at hbefore
          calc 8 * 2 ^ (moveCount log' - baseCount)
              ≤ 8 * 2 ^ (moveCount log - baseCount + 1) :=
                Nat.mul_le_mul_left _ (Nat.pow_le_pow_right (by decide) (by omega))
            _ = 2 * (8 * 2 ^ (moveCount log - baseCount)) := by rw [Nat.pow_succ]; omega
            _ ≤ 2 * cap := Nat.mul_le_mul_left _ hbefore
            _ ≤ cap' := htwice
      · rcases htight with hfirst | htight
        · exact .inl (Nat.le_of_eq hfirst)
        · exact .inr ⟨need, hneed, htight⟩

/-- **Run rule.** A machine whose steps grow a buffer is thrifty in every run from the empty one. -/
theorem run_thrift
    (hstep : ∀ s a s', I s → step s a = some s' →
      I s' ∧ Grows unit (demand s a) (cap s) (log s) (cap s') (log s'))
    {s t : σ} {as : List α} (hs : I s) (hcap : cap s = 0) (h : run step s as = some t) :
    Thrift unit (cap t) (movedBytes (log t) - movedBytes (log s))
      (moveCount (log t) - moveCount (log s)) (Asked step demand s as) := by
  suffices hall : I t ∧ Thrift unit (cap t) (movedBytes (log t) - movedBytes (log s))
      (moveCount (log t) - moveCount (log s)) (Asked step demand s as) from hall.2
  induction as using List.reverseRecOn generalizing t with
  | nil =>
      cases h
      refine ⟨hs, ?_⟩
      rw [hcap, Nat.sub_self, Nat.sub_self]
      exact ⟨.inl rfl, fun _ => Nat.zero_add _ |>.le, fun _ => ⟨Nat.zero_mul _ |>.le, fun _ => rfl⟩,
        .inl (Nat.zero_le 8)⟩
  | append_singleton as a ih =>
      obtain ⟨u, hu, hstep'⟩ := run_concat_iff.mp h
      obtain ⟨hI, hthrift⟩ := ih hu
      obtain ⟨hI', hgrows⟩ := hstep u a t hI hstep'
      exact ⟨hI', (hthrift.mono fun _ hn => hn.mono [a]).grow ⟨as, a, [], u, rfl, hu, rfl⟩ hgrows⟩

end Runs

/-! ## `std_vec`

Every call of a vec grows its buffer in the sense of `Grows`, with the number of elements that it pushes
or reserves. The bounds stop at a capacity of `2 ^ 63`, from which on `next_cap` does not double any
more.
-/

namespace Vec

variable {es : Nat} {v v' : StdVec es} {l : List (Bytes es)} {a a' : Alloc}

def Op.extra : Op es → Nat
  | .reserve n => n
  | .push _    => 1
  | _          => 0

/-- `reserve` grows the buffer. -/
theorem reserve_grows (h : Models v l) {extra : Nat} {ok : Bool}
    (hr : reserve v extra a = some (ok, v', a')) :
    v'.len = v.len ∧ Grows es (v.len + extra) v.cap a.log v'.cap a'.log := by
  by_cases hroom : v.len + extra ≤ v.cap
  · cases hr.symm.trans (reserve_room h hroom a)
    exact ⟨rfl, .refl ..⟩
  rw [Nat.not_le] at hroom
  obtain ⟨_, _, _, hr', hres⟩ := reserve_spec h extra a
  cases hr.symm.trans hr'
  refine ⟨(hres.models h).2.1, ?_⟩
  cases hres with
  | enough => exact .refl ..
  | tooMany => exact .refl ..
  | tooLarge => exact .refl ..
  | units hunits hc hd =>
      refine .grows hroom (hd.fits.trans_lt hd.lt) hc ?_ (Nat.le_add_right _ _)
      exact Nat.le_add_right _ _
  | refused hc hfits hgrow =>
      obtain ⟨hmoved, hcount⟩ := growBlock_refused hgrow
      exact .stays hmoved hcount
  | grown hunits hc hd hfits hgrow =>
      obtain ⟨hmoved, hcount⟩ := growBlock_moves hgrow
      exact .grows hroom (hd.fits.trans_lt hd.lt) hc hmoved hcount

/-- **Step lemma.** Every call grows the vec, if at all, for the elements it needs room for. -/
theorem exec_grows (h : Models v l) {op : Op es} {r : Ret es} (hr : exec v a op = some (r, v', a')) :
    Grows es (v.len + op.extra) v.cap a.log v'.cap a'.log := by
  cases op with
  | reserve n =>
      obtain ⟨⟨ok, v₁, a₁⟩, hreserve, hr⟩ := Option.bind_eq_some_iff.mp hr
      cases hr
      exact (reserve_grows h hreserve).2
  | push x =>
      obtain ⟨⟨ok, v₁, a₁⟩, hpush, hr⟩ := Option.bind_eq_some_iff.mp hr
      cases hr
      obtain ⟨⟨ok', v₂, a₂⟩, hreserve, hpush⟩ := Option.bind_eq_some_iff.mp hpush
      have hgrows := (reserve_grows h hreserve).2
      cases ok' with
      | true =>
          obtain ⟨bytes, -, hpush⟩ := Option.bind_eq_some_iff.mp hpush
          cases hpush
          exact hgrows
      | false =>
          cases hpush
          exact hgrows
  | pop out =>
      obtain ⟨⟨ok, out', v₁⟩, hpop, hr⟩ := Option.bind_eq_some_iff.mp hr
      cases hr
      rcases pop_spec h out with ⟨rfl, hp⟩ | ⟨l', x, rfl, hp, -⟩
      · cases hpop.symm.trans hp
        exact .refl ..
      · cases hpop.symm.trans hp
        exact .refl ..
  | get i =>
      obtain ⟨x, -, hr⟩ := Option.bind_eq_some_iff.mp hr
      cases hr
      exact .refl ..
  | getConst i =>
      obtain ⟨x, -, hr⟩ := Option.bind_eq_some_iff.mp hr
      cases hr
      exact .refl ..
  | clear =>
      cases hr
      exact .refl ..

/-- **Growing a vec is linear.** In every run on a new vec, the bytes that were moved to another block
    have room in the last one, every move has doubled the capacity, and the capacity is less than twice
    the number of elements that some call needed room for. -/
theorem growth_linear (elemAlign : Nat) (a : Alloc) (ops : List (Op es)) :
    ∃ s, run step ⟨newIn elemAlign, a, []⟩ ops = some s ∧
      Thrift es s.vec.cap (movedBytes s.alloc.log - movedBytes a.log)
        (moveCount s.alloc.log - moveCount a.log)
        (Asked step (fun s op => s.vec.len + op.extra) ⟨newIn elemAlign, a, []⟩ ops) := by
  have hnew : Models (newIn elemAlign : StdVec es) [] := models_newIn elemAlign
  obtain ⟨s, l, hrun, -, -⟩ := run_refines (s := ⟨newIn elemAlign, a, []⟩) step_refines hnew rfl ops
  refine ⟨s, hrun, ?_⟩
  have hstep : ∀ (s : State es) op s', (∃ l, Models s.vec l) → step s op = some s' →
      (∃ l, Models s'.vec l) ∧
        Grows es (s.vec.len + op.extra) s.vec.cap s.alloc.log s'.vec.cap s'.alloc.log := by
    rintro s op s' ⟨l, hs⟩ h
    obtain ⟨_, _, l', h', -, -, hs'⟩ := step_refines s l op hs
    cases h.symm.trans h'
    obtain ⟨⟨r, v', a'⟩, hexec, h⟩ := Option.bind_eq_some_iff.mp h
    cases h
    exact ⟨⟨l', hs'⟩, exec_grows hs hexec⟩
  exact run_thrift hstep ⟨[], hnew⟩ rfl hrun

end Vec

/-! ## `cstd_string`

The same for strings. `as_cstr` counts one byte more than the string has, for the NUL that it writes.
-/

namespace Str

variable {s s' : StdString} {l : List UInt8} {a a' : Alloc}

def Op.extra : Op → Nat
  | .reserve n    => n
  | .pushByte _   => 1
  | .pushStr x    => x.length
  | .pushCstr cs  => (cs.elim [] fun c => beforeNul c.mem).length
  | .asCstr       => 1
  | .clear        => 0

/-- `reserve` grows the buffer. -/
theorem reserve_grows (h : Models s l) {extra : Nat} {ok : Bool}
    (hr : reserve s extra a = some (ok, s', a')) :
    Grows 1 (s.len + extra) s.cap a.log s'.cap a'.log := by
  by_cases hroom : s.len + extra ≤ s.cap
  · cases hr.symm.trans (reserve_room h hroom a)
    exact .refl ..
  rw [Nat.not_le] at hroom
  obtain ⟨_, _, _, hr', hres⟩ := reserve_spec h extra a
  cases hr.symm.trans hr'
  cases hres with
  | enough => exact .refl ..
  | tooMany => exact .refl ..
  | refused hc hgrow =>
      obtain ⟨hmoved, hcount⟩ := growBlock_refused hgrow
      exact .stays hmoved hcount
  | grown hc hd hgrow =>
      rw [← Nat.mul_one s.cap] at hgrow
      obtain ⟨hmoved, hcount⟩ := growBlock_moves hgrow
      exact .grows hroom (hd.fits.trans_lt hd.lt) hc hmoved hcount

/-- So does a push. -/
theorem pushStr_grows (h : Models s l) {x : List UInt8} {ok : Bool}
    (hr : pushStr s x a = some (ok, s', a')) :
    Grows 1 (s.len + x.length) s.cap a.log s'.cap a'.log := by
  unfold pushStr at hr
  split at hr
  · cases hr
    exact .refl ..
  · obtain ⟨⟨ok', s₁, a₁⟩, hreserve, hr⟩ := Option.bind_eq_some_iff.mp hr
    have hgrows := reserve_grows h hreserve
    cases ok' with
    | true =>
        obtain ⟨bytes, -, hr⟩ := Option.bind_eq_some_iff.mp hr
        cases hr
        exact hgrows
    | false =>
        cases hr
        exact hgrows

/-- **Step lemma.** Every call grows the string, if at all, for the bytes it needs room for. -/
theorem exec_grows (h : Models s l) {op : Op} {r : Ret} (hr : exec s a op = some (r, s', a')) :
    Grows 1 (s.len + op.extra) s.cap a.log s'.cap a'.log := by
  cases op with
  | reserve n =>
      obtain ⟨⟨ok, s₁, a₁⟩, hreserve, hr⟩ := Option.bind_eq_some_iff.mp hr
      cases hr
      exact reserve_grows h hreserve
  | pushByte b =>
      obtain ⟨⟨ok, s₁, a₁⟩, hpush, hr⟩ := Option.bind_eq_some_iff.mp hr
      cases hr
      rw [pushByte_eq] at hpush
      exact pushStr_grows h hpush
  | pushStr x =>
      obtain ⟨⟨ok, s₁, a₁⟩, hpush, hr⟩ := Option.bind_eq_some_iff.mp hr
      cases hr
      exact pushStr_grows h hpush
  | pushCstr cs =>
      obtain ⟨⟨ok, s₁, a₁⟩, hpush, hr⟩ := Option.bind_eq_some_iff.mp hr
      cases hr
      rw [pushCstr_eq] at hpush
      exact pushStr_grows h hpush
  | asCstr =>
      obtain ⟨⟨ptr, s₁, a₁⟩, hcstr, hr⟩ := Option.bind_eq_some_iff.mp hr
      cases hr
      obtain ⟨⟨ok, s₂, a₂⟩, hreserve, hcstr⟩ := Option.bind_eq_some_iff.mp hcstr
      have hgrows := reserve_grows h hreserve
      cases ok with
      | true =>
          obtain ⟨bytes, -, hcstr⟩ := Option.bind_eq_some_iff.mp hcstr
          cases hcstr
          exact hgrows
      | false =>
          cases hcstr
          exact hgrows
  | clear =>
      cases hr
      exact .refl ..

/-- **Growing a string is linear**, in the same way. -/
theorem growth_linear_bytes (a : Alloc) (ops : List Op) :
    ∃ s, run step ⟨newIn, a, []⟩ ops = some s ∧
      Thrift 1 s.str.cap (movedBytes s.alloc.log - movedBytes a.log)
        (moveCount s.alloc.log - moveCount a.log)
        (Asked step (fun s op => s.str.len + op.extra) ⟨newIn, a, []⟩ ops) := by
  obtain ⟨s, l, hrun, -, -⟩ :=
    run_refines (s := ⟨newIn, a, []⟩) step_refines models_newIn rfl ops
  refine ⟨s, hrun, ?_⟩
  have hstep : ∀ s op s', (∃ l, Models s.str l) → step s op = some s' → (∃ l, Models s'.str l) ∧
      Grows 1 (s.str.len + op.extra) s.str.cap s.alloc.log s'.str.cap s'.alloc.log := by
    rintro s op s' ⟨l, hs⟩ h
    obtain ⟨_, _, l', h', -, -, hs'⟩ := step_refines s l op hs
    cases h.symm.trans h'
    obtain ⟨⟨r, s₁, a'⟩, hexec, h⟩ := Option.bind_eq_some_iff.mp h
    cases h
    exact ⟨⟨l', hs'⟩, exec_grows hs hexec⟩
  exact run_thrift hstep ⟨[], models_newIn⟩ rfl hrun

end Str

end CustLib
