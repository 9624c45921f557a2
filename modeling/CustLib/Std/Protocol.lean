import CustLib.Std.Ledger
import CustLib.Std.Vec
import CustLib.Std.Str
import CustLib.Std.HashmapInv

/-!
# The containers follow the allocator's protocol

A container owns the blocks that its pointers refer to, with the sizes that follow from its capacity
(`owned`). Between two calls exactly these are live, whatever the allocator refuses, every call of the
allocator was fair, and it was passed products of the capacities in question, as numbers without a
bound. After `free` nothing is live.
-/

namespace CustLib

open CustLib.Ledger

def freshAlloc (refuses : Nat → Bool) (junk : Block → Nat → UInt8) : Alloc := ⟨refuses, junk, 0, []⟩

/-! ## `std_vec`

A vec owns its block, if it has one, with the size `cap * es` as an exact product. Each call turns the
blocks of the vec before it into those after it; the interesting one is `reserve`, whose exits are those
of `Reserved`.
-/

namespace Vec

variable {es : Nat}

def owned (v : StdVec es) : Multiset Entry := entry v.data (v.cap * es) v.elemAlign

/-- The byte counts that a call computes, when it reserves `extra` elements. -/
def ByteCount (v : StdVec es) (extra n : Nat) : Prop :=
  n = v.cap * es ∨ ∃ c, nextCap v.cap (v.len + extra) = some c ∧ n = c * es

def Op.reserves : Op es → Nat
  | .reserve extra => extra
  | .push _        => 1
  | _              => 0

def Ctor.reserves : Ctor → Nat
  | .newIn              => 0
  | .withCapacityIn cap => cap

section

variable {v v' : StdVec es} {l : List (Bytes es)} {a a' : Alloc} {extra : Nat}

theorem Reserved.turns {ok : Bool} (hres : Reserved v extra a ok v' a') :
    Turns (ByteCount v extra) (owned v) a (owned v') a' := by
  cases hres with
  | enough | tooMany | tooLarge => exact .refl _ _ _
  | @units c hunits _ _ =>
      subst hunits
      exact .refl _ _ _
  | @refused c a' hc _ hgrow => exact .growBlock hgrow (.inl rfl) (.inr ⟨c, hc, rfl⟩)
  | @grown c p bytes a' _ hc _ _ hgrow => exact .growBlock hgrow (.inl rfl) (.inr ⟨c, hc, rfl⟩)

/-- **What a call does to the block**: it is reserved, or the allocator is left alone; then the call
    works within it. -/
theorem exec_block (h : Models v l) {op : Op es} {r : Ret es}
    (hexec : exec v a op = some (r, v', a')) :
    ∃ v₁, ((∃ ok, Reserved v op.reserves a ok v₁ a') ∨ v₁ = v ∧ a' = a) ∧
      v'.data = v₁.data ∧ v'.cap = v₁.cap ∧ v'.elemAlign = v₁.elemAlign := by
  cases op with
  | reserve extra =>
      obtain ⟨ok, v₁, a₁, hreserve, hres⟩ := reserve_spec h extra a
      simp only [exec, hreserve] at hexec
      cases hexec
      exact ⟨v₁, .inl ⟨ok, hres⟩, rfl, rfl, rfl⟩
  | push x =>
      obtain ⟨ok, v₁, v₂, a₁, hres, hpush, hdone, hsame⟩ := push_spec h x a
      simp only [exec, hpush] at hexec
      cases hexec
      refine ⟨v₁, .inl ⟨ok, hres⟩, ?_⟩
      cases ok with
      | true => exact (hdone rfl).2
      | false =>
          -- without room nothing is written
          obtain rfl := hsame rfl
          rw [(hres.models h).2.2.2 rfl]
          exact ⟨rfl, rfl, rfl⟩
  | pop out =>
      rcases pop_spec h out with ⟨-, hpop⟩ | ⟨l', x, -, hpop, -⟩
      · simp only [exec, hpop] at hexec
        cases hexec
        exact ⟨v, .inr ⟨rfl, rfl⟩, rfl, rfl, rfl⟩
      · simp only [exec, hpop] at hexec
        cases hexec
        exact ⟨v, .inr ⟨rfl, rfl⟩, rfl, rfl, rfl⟩
  | get i =>
      simp only [exec, get_spec h] at hexec
      cases hexec
      exact ⟨v, .inr ⟨rfl, rfl⟩, rfl, rfl, rfl⟩
  | getConst i =>
      have hget : deref v (getConst v i) = _ := get_spec h i
      simp only [exec, hget] at hexec
      cases hexec
      exact ⟨v, .inr ⟨rfl, rfl⟩, rfl, rfl, rfl⟩
  | clear =>
      cases hexec
      exact ⟨v, .inr ⟨rfl, rfl⟩, rfl, rfl, rfl⟩

/-- **Every call of the vec** keeps the ledger. -/
theorem exec_turns (h : Models v l) (a : Alloc) (op : Op es) {r : Ret es}
    (hexec : exec v a op = some (r, v', a')) :
    Turns (ByteCount v op.reserves) (owned v) a (owned v') a' := by
  obtain ⟨v₁, hcall, hdata, hcap, halign⟩ := exec_block h hexec
  have howned : owned v' = owned v₁ := by rw [owned, owned, hdata, hcap, halign]
  rw [howned]
  rcases hcall with ⟨ok, hres⟩ | ⟨rfl, rfl⟩
  · exact hres.turns
  · exact .refl _ _ _

/-- `free` gives the block back, with the size it has. -/
theorem free_turns (h : Models v l) (a : Alloc) :
    Turns (· = v.cap * es) (owned v) a 0 (free v a).2 := by
  have hbytes : (checkedMul v.cap es).getD 0 = v.cap * es := by
    rw [checkedMul_eq, if_pos h.fits]
    rfl
  unfold owned free
  rw [hbytes]
  cases v.data with
  | none => exact .refl _ _ _
  | some p => exact .deallocate rfl

theorem construct_turns (elemAlign : Nat) (ctor : Ctor) (a : Alloc) {ok : Bool}
    (hconstruct : construct elemAlign a ctor = some (ok, (v : StdVec es), a')) :
    Turns (ByteCount (newIn elemAlign : StdVec es) ctor.reserves) 0 a (owned v) a' := by
  cases ctor with
  | newIn =>
      cases hconstruct
      exact .refl _ _ _
  | withCapacityIn cap =>
      by_cases hzero : cap = 0
      · simp only [construct, withCapacityIn, if_pos hzero] at hconstruct
        cases hconstruct
        exact .refl _ _ _
      · simp only [construct, withCapacityIn, if_neg hzero] at hconstruct
        obtain ⟨ok', v', a₁, hreserve, hres⟩ := reserve_spec (models_newIn elemAlign) cap a
        cases hreserve.symm.trans hconstruct
        exact hres.turns

end

theorem step_turns (s : State es) (op : Op es) (s' : State es) (h : ∃ l, Models s.vec l)
    (hstep : step s op = some s') :
    (∃ l, Models s'.vec l) ∧ ∃ P, Turns P (owned s.vec) s.alloc (owned s'.vec) s'.alloc := by
  obtain ⟨l, hl⟩ := h
  obtain ⟨s₁, r, l', hstep', -, -, hl'⟩ := step_refines s l op hl
  cases hstep.symm.trans hstep'
  obtain ⟨⟨r, v', a'⟩, hexec, hs'⟩ := Option.bind_eq_some_iff.mp hstep
  cases hs'
  exact ⟨⟨l', hl'⟩, _, exec_turns hl s.alloc op hexec⟩

abbrev Follows (s : State es) : Prop :=
  Ledger.Follows exec free owned (fun v op => ByteCount v op.reserves) (fun v n => n = v.cap * es)
    s.vec s.alloc

/-- Every run follows the protocol. -/
theorem run_follows {v : StdVec es} {a : Alloc} (hv : Models v []) (ha : Holds a.log (owned v))
    (ops : List (Op es)) : ∃ s, Machine.run step ⟨v, a, []⟩ ops = some s ∧ Follows s := by
  obtain ⟨s, l, hrun, -, hs⟩ := Machine.run_refines (s := ⟨v, a, []⟩) step_refines hv rfl ops
  obtain ⟨-, hholds⟩ := run_holds (fun s => owned s.vec) step_turns ⟨[], hv⟩ ha hrun
  have hfree := free_turns hs s.alloc
  exact ⟨s, hrun, hholds, fun op _ _ _ => exec_turns hs s.alloc op, hfree, hfree.apply hholds⟩

end Vec

/-! ## `cstd_string`

A string is a vec of bytes as far as its block goes.
-/

namespace Str

def owned (s : StdString) : Multiset Entry := entry s.data s.cap 1

/-- The byte counts that a call computes, when it reserves `extra` bytes. -/
def ByteCount (s : StdString) (extra n : Nat) : Prop :=
  n = s.cap ∨ nextCap s.cap (s.len + extra) = some n

def Ctor.reserves : Ctor → Nat
  | .newIn              => 0
  | .withCapacityIn cap => cap

section

variable {s s' : StdString} {l : List UInt8} {a a' : Alloc} {extra : Nat}

theorem Reserved.turns {ok : Bool} (hres : Reserved s extra a ok s' a') :
    Turns (ByteCount s extra) (owned s) a (owned s') a' := by
  cases hres with
  | enough | tooMany => exact .refl _ _ _
  | refused hc hgrow => exact .growBlock hgrow (.inl rfl) (.inr hc)
  | grown hc _ hgrow => exact .growBlock hgrow (.inl rfl) (.inr hc)

/-- **Every call of the string** keeps the ledger. -/
theorem exec_turns (h : Models s l) (a : Alloc) (op : Op) {r : Ret}
    (hexec : exec s a op = some (r, s', a')) :
    Turns (ByteCount s op.reserves) (owned s) a (owned s') a' := by
  have hpushes : ∀ x, op.pushes = some x → op.reserves = x.length →
      Turns (ByteCount s op.reserves) (owned s) a (owned s') a' := by
    intro x hop hreserves
    obtain ⟨ok, s₁, s₂, a₁, hres, hpush, hdone, hsame⟩ := pushStr_spec h x a
    rw [exec_push hop, hpush] at hexec
    cases hexec
    have howned : owned s' = owned s₁ := by
      cases ok with
      | true =>
          obtain ⟨-, hdata, hcap⟩ := hdone rfl
          rw [owned, owned, hdata, hcap]
      | false => rw [hsame rfl, (hres.models h).2.2.2 rfl]
    rw [hreserves, howned]
    exact hres.turns
  cases op with
  | reserve extra =>
      obtain ⟨ok, s₁, a₁, hreserve, hres⟩ := reserve_spec h extra a
      simp only [exec, hreserve] at hexec
      cases hexec
      exact hres.turns
  | pushByte b => exact hpushes _ rfl rfl
  | pushStr x => exact hpushes _ rfl rfl
  | pushCstr cs => exact hpushes _ rfl rfl
  | asCstr =>
      obtain ⟨ok, s₁, s₂, a₁, hres, hcstr, hdone, hsame⟩ := asCstr_spec h a
      simp only [exec, hcstr] at hexec
      cases hexec
      have howned : owned s₂ = owned s₁ := by
        cases ok with
        | true =>
            obtain ⟨-, -, -, hdata, hcap⟩ := hdone rfl
            rw [owned, owned, hdata, hcap]
        | false => rw [hsame rfl, (hres.models h).2.2.2 rfl]
      exact howned ▸ hres.turns
  | clear =>
      cases hexec
      exact .refl _ _ _

/-- `free` gives the block back, with the size it has. -/
theorem free_turns (s : StdString) (a : Alloc) : Turns (· = s.cap) (owned s) a 0 (free s a).2 := by
  unfold owned free
  cases s.data with
  | none => exact .refl _ _ _
  | some p => exact .deallocate rfl

theorem construct_turns (ctor : Ctor) (a : Alloc) {ok : Bool}
    (hconstruct : construct a ctor = some (ok, s, a')) :
    Turns (ByteCount newIn ctor.reserves) 0 a (owned s) a' := by
  cases ctor with
  | newIn =>
      cases hconstruct
      exact .refl _ _ _
  | withCapacityIn cap =>
      by_cases hzero : cap = 0
      · simp only [construct, withCapacityIn, if_pos hzero] at hconstruct
        cases hconstruct
        exact .refl _ _ _
      · simp only [construct, withCapacityIn, if_neg hzero] at hconstruct
        obtain ⟨ok', s', a₁, hreserve, hres⟩ := reserve_spec models_newIn cap a
        cases hreserve.symm.trans hconstruct
        exact hres.turns

end

theorem step_turns (s : State) (op : Op) (s' : State) (h : ∃ l, Models s.str l)
    (hstep : step s op = some s') :
    (∃ l, Models s'.str l) ∧ ∃ P, Turns P (owned s.str) s.alloc (owned s'.str) s'.alloc := by
  obtain ⟨l, hl⟩ := h
  obtain ⟨s₁, r, l', hstep', -, -, hl'⟩ := step_refines s l op hl
  cases hstep.symm.trans hstep'
  obtain ⟨⟨r, t, a'⟩, hexec, hs'⟩ := Option.bind_eq_some_iff.mp hstep
  cases hs'
  exact ⟨⟨l', hl'⟩, _, exec_turns hl s.alloc op hexec⟩

abbrev Follows (s : State) : Prop :=
  Ledger.Follows exec free owned (fun s op => ByteCount s op.reserves) (fun s n => n = s.cap)
    s.str s.alloc

/-- Every run follows the protocol. -/
theorem run_follows {s₀ : StdString} {a : Alloc} (hs₀ : Models s₀ []) (ha : Holds a.log (owned s₀))
    (ops : List Op) : ∃ s, Machine.run step ⟨s₀, a, []⟩ ops = some s ∧ Follows s := by
  obtain ⟨s, l, hrun, -, hs⟩ := Machine.run_refines (s := ⟨s₀, a, []⟩) step_refines hs₀ rfl ops
  obtain ⟨-, hholds⟩ := run_holds (fun s => owned s.str) step_turns ⟨[], hs₀⟩ ha hrun
  have hfree := free_turns s.str s.alloc
  exact ⟨s, hrun, hholds, fun op _ _ _ => exec_turns hs s.alloc op, hfree, hfree.apply hholds⟩

end Str

/-! ## `std_hashmap`

A map owns three blocks, less those of size zero. `rehash` asks for the new ones first and frees the old
ones last, and a refusal in the middle gives back what it has got: that is the rule
`allocateArrays_turns`. `Sound` keeps the products of sizes that were checked when the table was built.
-/

namespace Hashmap

variable {ks vs : Nat}

def blocks (arr : Arrays ks vs) (cap keyAlign valueAlign : Nat) : Multiset Entry :=
  entry arr.ctrlPtr cap 1 + entry arr.keysPtr (cap * ks) keyAlign +
    entry arr.valuesPtr (cap * vs) valueAlign

def owned (m : Map ks vs) : Multiset Entry := blocks m.arrays m.cap m.keyAlign m.valueAlign

/-- The byte counts that a call computes: for the old capacity, and for the new one. -/
def ByteCount (m : Map ks vs) (n : Nat) : Prop :=
  ∃ c, (c = m.cap ∨ c = 8 ∨ c = 2 * m.cap) ∧ (n = c ∨ n = c * ks ∨ n = c * vs)

/-- **Invariant.** The sizes of the arrays were checked, and an empty table has none. -/
structure Sound (m : Map ks vs) : Prop where
  keys   : m.cap * ks < 2 ^ 64
  values : m.cap * vs < 2 ^ 64
  null   : m.cap = 0 → owned m = 0

section

variable {m m' : Map ks vs} {a a' : Alloc} {P : Nat → Prop} {size align : Nat}

theorem allocateOpt_turns {res : Option (Option Block)}
    (hcall : allocateOpt a size align = (res, a')) (hsize : P size) :
    Turns P 0 a (match res with
      | none     => 0
      | some ptr => entry ptr size align) a' := by
  unfold allocateOpt at hcall
  split at hcall
  · cases hcall
    exact .refl _ _ _
  · split at hcall
    next a₁ h =>
      cases hcall
      exact .allocate h hsize
    next b a₁ h =>
      cases hcall
      exact .allocate h hsize

theorem deallocateOpt_turns (ptr : Option Block) (align : Nat) (a : Alloc) (hsize : P size) :
    Turns P (entry ptr size align) a 0 (deallocateOpt a ptr size align) := by
  cases ptr with
  | none => exact .refl _ _ _
  | some b => exact .deallocate hsize

/-- The three allocations of `rehash`, of which the third, or the second, may be refused. -/
theorem allocateArrays_turns {newCap : Nat} {res : Option (Arrays ks vs)}
    (hcall : allocateArrays m newCap (newCap * ks) (newCap * vs) a = (res, a')) (hctrl : P newCap)
    (hkeys : P (newCap * ks)) (hvalues : P (newCap * vs)) :
    Turns P 0 a (match res with
      | none     => 0
      | some arr => blocks arr newCap m.keyAlign m.valueAlign) a' := by
  unfold allocateArrays at hcall
  split at hcall
  next a₁ h₁ =>
    cases hcall
    exact .allocate h₁ hctrl
  next ctrl a₁ h₁ =>
    have hc : Turns P 0 a {(ctrl, newCap, 1)} a₁ := .allocate h₁ hctrl
    split at hcall
    next a₂ h₂ =>
      cases hcall
      have hk := (allocateOpt_turns h₂ hkeys).beside {(ctrl, newCap, 1)}
      rw [Multiset.add_zero] at hk
      exact (hc.trans hk).trans (.deallocate hctrl)
    next keys a₂ h₂ =>
      have hk := (allocateOpt_turns h₂ hkeys).beside {(ctrl, newCap, 1)}
      split at hcall
      next a₃ h₃ =>
        cases hcall
        have hv := (allocateOpt_turns h₃ hvalues).beside
          ({(ctrl, newCap, 1)} + entry keys (newCap * ks) m.keyAlign)
        rw [Multiset.add_zero] at hv
        -- the two blocks before the refused one go back
        have hback := (deallocateOpt_turns keys m.keyAlign a₃ hkeys).release
          {(ctrl, newCap, 1)}
        exact ((hc.trans hk).trans hv).trans (hback.trans (.deallocate hctrl))
      next values a₃ h₃ =>
        cases hcall
        have hv := (allocateOpt_turns h₃ hvalues).beside
          ({(ctrl, newCap, 1)} + entry keys (newCap * ks) m.keyAlign)
        exact (hc.trans hk).trans hv

theorem freeArrays_turns (hs : Sound m) (a : Alloc) (hctrl : P m.cap) (hkeys : P (m.cap * ks))
    (hvalues : P (m.cap * vs)) : Turns P (owned m) a 0 (freeArrays m a) := by
  have hk : (checkedMul m.cap ks).getD 0 = m.cap * ks := by
    rw [checkedMul_eq, if_pos hs.keys]
    rfl
  have hv : (checkedMul m.cap vs).getD 0 = m.cap * vs := by
    rw [checkedMul_eq, if_pos hs.values]
    rfl
  unfold owned blocks freeArrays
  rw [hk, hv, Multiset.add_assoc]
  have hrest := (deallocateOpt_turns m.arrays.ctrlPtr 1 a hctrl).frame
    (entry m.arrays.keysPtr (m.cap * ks) m.keyAlign +
      entry m.arrays.valuesPtr (m.cap * vs) m.valueAlign)
  rw [Multiset.zero_add] at hrest
  apply hrest.trans
  have hlast := (deallocateOpt_turns m.arrays.keysPtr m.keyAlign
    (deallocateOpt a m.arrays.ctrlPtr m.cap 1) hkeys).frame
      (entry m.arrays.valuesPtr (m.cap * vs) m.valueAlign)
  rw [Multiset.zero_add] at hlast
  exact hlast.trans (deallocateOpt_turns _ _ _ hvalues)

/-- The copy loop writes into the arrays it was given. -/
theorem copySlot_blocks {newCap i : Nat} {new new' : Arrays ks vs}
    (h : copySlot m newCap new i = some new') (cap keyAlign valueAlign : Nat) :
    blocks new' cap keyAlign valueAlign = blocks new cap keyAlign valueAlign := by
  unfold copySlot at h
  obtain ⟨c, -, h⟩ := Option.bind_eq_some_iff.mp h
  split at h
  · cases h
    rfl
  · obtain ⟨key, -, h⟩ := Option.bind_eq_some_iff.mp h
    obtain ⟨j, -, h⟩ := Option.bind_eq_some_iff.mp h
    obtain ⟨ctrl, -, h⟩ := Option.bind_eq_some_iff.mp h
    obtain ⟨keys, -, h⟩ := Option.bind_eq_some_iff.mp h
    obtain ⟨value, -, h⟩ := Option.bind_eq_some_iff.mp h
    obtain ⟨values, -, h⟩ := Option.bind_eq_some_iff.mp h
    cases h
    rfl

/-- **`rehash`** replaces the three blocks, or keeps them. -/
theorem rehash_turns (hs : Sound m) {newCap : Nat} (hnew : newCap ≠ 0) {ok : Bool}
    (h : rehash m newCap a = some (ok, m', a')) (hctrl : P m.cap) (hkeys : P (m.cap * ks))
    (hvalues : P (m.cap * vs)) (hctrl' : P newCap) (hkeys' : P (newCap * ks))
    (hvalues' : P (newCap * vs)) : Turns P (owned m) a (owned m') a' ∧ Sound m' := by
  unfold rehash at h
  rw [checkedMul_eq, checkedMul_eq] at h
  by_cases hk : newCap * ks < 2 ^ 64
  · by_cases hv : newCap * vs < 2 ^ 64
    · rw [if_pos hk, if_pos hv] at h
      dsimp only at h
      split at h
      next a₁ halloc =>
        cases h
        have hturns := (allocateArrays_turns halloc hctrl' hkeys' hvalues').beside (owned m)
        rw [Multiset.add_zero] at hturns
        exact ⟨hturns, hs⟩
      next fresh a₁ halloc =>
        obtain ⟨new, hcopy, h⟩ := Option.bind_eq_some_iff.mp h
        cases h
        -- the copy loop allocates nothing
        have hblocks : ∀ cap keyAlign valueAlign,
            blocks new cap keyAlign valueAlign = blocks fresh cap keyAlign valueAlign := by
          intro cap keyAlign valueAlign
          rw [Machine.foldlM_eq_run] at hcopy
          exact Machine.run_invariant
            (I := fun new => blocks new cap keyAlign valueAlign = blocks fresh cap keyAlign valueAlign)
            (fun _ _ _ hI hstep => (copySlot_blocks hstep _ _ _).trans hI) rfl hcopy
        have hturns := (allocateArrays_turns halloc hctrl' hkeys' hvalues').beside (owned m)
        have hfree := (freeArrays_turns hs a₁ hctrl hkeys hvalues).frame
          (blocks fresh newCap m.keyAlign m.valueAlign)
        rw [Multiset.zero_add] at hfree
        refine ⟨?_, hk, hv, fun hzero => absurd hzero hnew⟩
        have howned : owned { m with arrays := new, cap := newCap, tombstones := 0 } =
            blocks fresh newCap m.keyAlign m.valueAlign := hblocks _ _ _
        rw [howned]
        exact hturns.trans hfree
    · rw [if_pos hk, if_neg hv] at h
      cases h
      exact ⟨.refl _ _ _, hs⟩
  · rw [if_neg hk] at h
    cases h
    exact ⟨.refl _ _ _, hs⟩

theorem ensureOne_turns (hw : Wf m) (hs : Sound m) {ok : Bool}
    (h : ensureOne m a = some (ok, m', a')) :
    Turns (ByteCount m) (owned m) a (owned m') a' ∧ Sound m' := by
  have hrehash : ∀ c, c = m.cap ∨ c = 8 ∨ c = 2 * m.cap → c ≠ 0 →
      rehash m c a = some (ok, m', a') →
      Turns (ByteCount m) (owned m) a (owned m') a' ∧ Sound m' := by
    intro c hc hpos hrehash
    exact rehash_turns hs hpos hrehash ⟨m.cap, .inl rfl, .inl rfl⟩
      ⟨m.cap, .inl rfl, .inr (.inl rfl)⟩ ⟨m.cap, .inl rfl, .inr (.inr rfl)⟩ ⟨c, hc, .inl rfl⟩
      ⟨c, hc, .inr (.inl rfl)⟩ ⟨c, hc, .inr (.inr rfl)⟩
  unfold ensureOne at h
  by_cases hcap : m.cap = 0
  · rw [if_pos hcap] at h
    exact hrehash 8 (.inr (.inl rfl)) (by decide) h
  · rw [if_neg hcap] at h
    split at h
    · -- a doubling that wraps is smaller than the old capacity
      have hdouble : ¬ wmul m.cap 2 < m.cap → wmul m.cap 2 = 2 * m.cap := by
        intro hge
        have hbound := (hw.capOk hcap).bounds
        unfold wmul at hge ⊢
        omega
      split at h
      · by_cases hlt : wmul m.cap 2 < m.cap
        · rw [if_pos hlt] at h
          cases h
          exact ⟨.refl _ _ _, hs⟩
        · rw [if_neg hlt, hdouble hlt] at h
          exact hrehash _ (.inr (.inr rfl)) (by omega) h
      · rw [if_neg (Nat.lt_irrefl _)] at h
        exact hrehash _ (.inl rfl) hcap h
    · cases h
      exact ⟨.refl _ _ _, hs⟩

/-- Two maps with the same blocks. -/
theorem Sound.same (hs : Sound m) (hcap : m'.cap = m.cap) (howned : owned m' = owned m) : Sound m' :=
  ⟨hcap ▸ hs.keys, hcap ▸ hs.values, fun hzero => howned ▸ hs.null (hcap ▸ hzero)⟩

/-- An insertion turns the three blocks into three others, or keeps them. -/
theorem insertMove_turns (hw : Wf m) (hs : Sound m) {key : Bytes ks} {value : Bytes vs}
    {oldValue : Option (Bytes vs)} {replaced : Option Bool} {r : Inserted vs}
    (h : insertMove m key value oldValue replaced a = some (r, m', a')) :
    Turns (ByteCount m) (owned m) a (owned m') a' ∧ Sound m' := by
  rcases insertMove_cases h with ⟨values, rfl, rfl⟩ | ⟨ok, m₁, hensure, hdone⟩
  · exact ⟨.refl _ _ _, hs.same rfl rfl⟩
  obtain ⟨hturns, hs₁⟩ := ensureOne_turns hw hs hensure
  rcases hdone with ⟨-, hinsert⟩ | ⟨-, rfl⟩
  · -- the new entry goes into the blocks that are there
    obtain ⟨ctrl, keys, values, tombstones, rfl⟩ := insertAbsent_cases hinsert
    exact ⟨hturns, hs₁.same rfl rfl⟩
  · exact ⟨hturns, hs₁⟩

theorem free_turns (hs : Sound m) (a : Alloc) :
    Turns (ByteCount m) (owned m) a 0 (free m a).2 ∧ Sound (free m a).1 ∧ owned (free m a).1 = 0 := by
  unfold free
  by_cases hzero : m.cap = 0
  · rw [if_pos hzero, hs.null hzero]
    exact ⟨.refl _ _ _, hs, rfl⟩
  · rw [if_neg hzero]
    refine ⟨freeArrays_turns hs a ?_ ?_ ?_, ⟨by simp, by simp, fun _ => rfl⟩, rfl⟩
    · exact ⟨m.cap, .inl rfl, .inl rfl⟩
    · exact ⟨m.cap, .inl rfl, .inr (.inl rfl)⟩
    · exact ⟨m.cap, .inl rfl, .inr (.inr rfl)⟩

/-- **Every call of the map** keeps the ledger. -/
theorem exec_turns (hw : Wf m) (hs : Sound m) (a : Alloc) (op : Op ks vs) {r : Ret vs}
    (h : exec m a op = some (r, m', a')) :
    Turns (ByteCount m) (owned m) a (owned m') a' ∧ Sound m' := by
  rcases exec_cases h with ⟨-, key, value, oldValue, replaced, r', hinsert⟩ |
    ⟨-, rfl, ⟨key, b, hremove⟩ | rfl | rfl⟩ | ⟨-, hfree⟩
  · exact insertMove_turns hw hs hinsert
  · rcases remove_cases hremove with rfl | ⟨ctrl, rfl⟩
    · exact ⟨.refl _ _ _, hs⟩
    · exact ⟨.refl _ _ _, hs.same rfl rfl⟩
  · unfold clear
    split
    · exact ⟨.refl _ _ _, hs⟩
    · exact ⟨.refl _ _ _, hs.same rfl rfl⟩
  · exact ⟨.refl _ _ _, hs⟩
  · obtain ⟨hturns, hs', howned⟩ := free_turns hs a
    rw [hfree] at hturns hs' howned
    exact ⟨howned ▸ hturns, hs'⟩

end

theorem step_turns (s : State ks vs) (op : Op ks vs) (s' : State ks vs)
    (h : Wf s.map ∧ Sound s.map) (hstep : step s op = some s') :
    (Wf s'.map ∧ Sound s'.map) ∧ ∃ P, Turns P (owned s.map) s.alloc (owned s'.map) s'.alloc := by
  obtain ⟨⟨r, m', a'⟩, hexec, hs'⟩ := Option.bind_eq_some_iff.mp hstep
  cases hs'
  obtain ⟨r₁, m₁, a₁, hexec₁, hw', -⟩ := exec_wf h.1 s.alloc op
  cases hexec.symm.trans hexec₁
  obtain ⟨hturns, hsound⟩ := exec_turns h.1 h.2 s.alloc op hexec
  exact ⟨⟨hw', hsound⟩, _, hturns⟩

theorem sound_newIn (keyAlign valueAlign : Nat) (hash : Option (Bytes ks → UInt64))
    (keyEq : Option (Bytes ks → Bytes ks → Bool)) :
    Sound (newIn keyAlign valueAlign hash keyEq : Map ks vs) :=
  ⟨by simp [newIn], by simp [newIn], fun _ => rfl⟩

abbrev Follows (s : State ks vs) : Prop :=
  Ledger.Follows exec free owned (fun m _ => ByteCount m) ByteCount s.map s.alloc

/-- Every run follows the protocol. -/
theorem run_follows (keyAlign valueAlign : Nat) (hash : Option (Bytes ks → UInt64))
    (keyEq : Option (Bytes ks → Bytes ks → Bool)) {a : Alloc} (ha : Holds a.log 0)
    (ops : List (Op ks vs)) :
    ∃ s, Machine.run step (start keyAlign valueAlign hash keyEq a) ops = some s ∧ Follows s := by
  have hnew : Wf (newIn keyAlign valueAlign hash keyEq : Map ks vs) :=
    wf_newIn keyAlign valueAlign hash keyEq
  have hsound : Sound (newIn keyAlign valueAlign hash keyEq : Map ks vs) :=
    sound_newIn keyAlign valueAlign hash keyEq
  obtain ⟨s, hrun, -⟩ := run_wf (s := start keyAlign valueAlign hash keyEq a) hnew ops
  obtain ⟨⟨hw, hs⟩, hholds⟩ := run_holds (fun s => owned s.map) step_turns ⟨hnew, hsound⟩ ha hrun
  have hfree := (free_turns hs s.alloc).1
  exact ⟨s, hrun, hholds, fun op _ _ _ h => (exec_turns hw hs s.alloc op h).1, hfree,
    hfree.apply hholds⟩

end Hashmap

/-- **The allocator protocol of the containers**, for every size and alignment, every sequence of calls
    between the constructor and `free`, and whatever the allocator refuses. -/
theorem allocator_protocol (refuses : Nat → Bool) (junk : Block → Nat → UInt8) :
    (∀ (es elemAlign : Nat) (ctor : Vec.Ctor),
      ∃ ok v₀ a₀, Vec.construct elemAlign (freshAlloc refuses junk) ctor =
          some (ok, (v₀ : Vec.StdVec es), a₀) ∧
        Turns (Vec.ByteCount (Vec.newIn elemAlign : Vec.StdVec es) ctor.reserves) 0
          (freshAlloc refuses junk) (Vec.owned v₀) a₀ ∧
        ∀ ops, ∃ s, Machine.run Vec.step ⟨v₀, a₀, []⟩ ops = some s ∧ Vec.Follows s) ∧
    (∀ ctor : Str.Ctor,
      ∃ ok s₀ a₀, Str.construct (freshAlloc refuses junk) ctor = some (ok, s₀, a₀) ∧
        Turns (Str.ByteCount Str.newIn ctor.reserves) 0 (freshAlloc refuses junk) (Str.owned s₀) a₀ ∧
        ∀ ops, ∃ s, Machine.run Str.step ⟨s₀, a₀, []⟩ ops = some s ∧ Str.Follows s) ∧
    ∀ (ks vs keyAlign valueAlign : Nat) (hash : Option (Bytes ks → UInt64))
      (keyEq : Option (Bytes ks → Bytes ks → Bool)) (ops : List (Hashmap.Op ks vs)),
      ∃ s, Machine.run Hashmap.step
          (Hashmap.start keyAlign valueAlign hash keyEq (freshAlloc refuses junk)) ops = some s ∧
        Hashmap.Follows s := by
  refine ⟨fun es elemAlign ctor => ?_, fun ctor => ?_, fun ks vs keyAlign valueAlign hash keyEq => ?_⟩
  · obtain ⟨ok, v₀, a₀, hconstruct, hv₀, -⟩ :=
      Vec.construct_spec es elemAlign ctor (freshAlloc refuses junk)
    have hturns := Vec.construct_turns elemAlign ctor _ hconstruct
    exact ⟨ok, v₀, a₀, hconstruct, hturns, Vec.run_follows hv₀ (hturns.apply holds_nil)⟩
  · obtain ⟨ok, s₀, a₀, hconstruct, hs₀, -⟩ := Str.construct_spec ctor (freshAlloc refuses junk)
    have hturns := Str.construct_turns ctor _ hconstruct
    exact ⟨ok, s₀, a₀, hconstruct, hturns, Str.run_follows hs₀ (hturns.apply holds_nil)⟩
  · exact Hashmap.run_follows keyAlign valueAlign hash keyEq holds_nil

end CustLib
