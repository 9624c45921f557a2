import CustLib.Lib.Potential
import CustLib.Std.HashmapChurn
import CustLib.Std.HashmapRefine

/-!
# What the table of `std::hashmap` costs

`rehash` goes through the old table and the new one, so a single insertion can take a time that is
linear in the size of the map. Over a whole run the rebuilds for a larger capacity take at most eight
rounds for each insertion, and those that only clean up tombstones are not more than the removals
(`rebuilds_amortized`). The second bound is reached: `ensure_one` cleans up as soon as there is one
tombstone and no room, and in a table at its threshold every entry that is replaced by another one has
the whole table rebuilt (`threshold_rebuilds`).
-/

namespace CustLib.Hashmap

open CustLib.Machine

variable {ks vs : Nat}

/-! ## Rebuilds

When a call runs `rehash`, and for which capacity. `growthRounds` counts the rounds of both loops of a
rebuild for a larger table, `cleanups` the rebuilds at the same size. `Effect` says what a call does to
capacity and counters, which is all that the potential needs.
-/

/-- The capacity for which `ensure_one` calls `rehash`. -/
def ensureOneCap (m : Map ks vs) : Option Nat :=
  if m.cap = 0 then some 8
  else if wmul (wadd (wadd m.len m.tombstones) 1) 4 > wmul m.cap 3 then
    let newCap := if wmul (wadd m.len 1) 4 > wmul m.cap 3 then wmul m.cap 2 else m.cap
    if newCap < m.cap then none else some newCap
  else none

/-- The capacity of the table that an insertion builds, when it builds one. -/
def rebuildFor (m : Map ks vs) (a : Alloc) (key : Bytes ks) : Option Nat := do
  if (← findIndex m key).isSome then none
  else
    let newCap ← ensureOneCap m
    let (ok, _, _) ← rehash m newCap a
    if ok then return newCap else none

def rebuild (s : State ks vs) (op : Op ks vs) : Option Nat :=
  op.inserts.bind (rebuildFor s.map s.alloc)

/-- The rounds of the loops over the new table and the old one, for a larger capacity. -/
def growthRounds (s : State ks vs) (op : Op ks vs) : Nat :=
  match rebuild s op with
  | some newCap => if s.map.cap < newCap then newCap + s.map.cap else 0
  | none        => 0

def cleanups (s : State ks vs) (op : Op ks vs) : Nat :=
  if rebuild s op = some s.map.cap then 1 else 0

def Op.removes : Op ks vs → Bool
  | .remove _ => true
  | _         => false

section Calls

variable {m m' : Map ks vs} {a a' : Alloc}

theorem Wf.cap_le (hw : Wf m) : m.cap ≤ 2 ^ 63 := by
  rcases hw.cap with hzero | hok
  · omega
  · exact hok.bounds.2

/-- **`ensure_one`** calls `rehash`, or leaves the map as it is. -/
theorem ensureOne_eq (m : Map ks vs) (a : Alloc) :
    (∃ newCap, ensureOneCap m = some newCap ∧ ensureOne m a = rehash m newCap a) ∨
      ensureOneCap m = none ∧ ∃ ok, ensureOne m a = some (ok, m, a) := by
  unfold ensureOneCap ensureOne
  split
  · exact .inl ⟨8, rfl, rfl⟩
  · split
    · dsimp only
      generalize (if wmul (wadd m.len 1) 4 > wmul m.cap 3 then wmul m.cap 2 else m.cap) = newCap
      split
      · exact .inr ⟨rfl, false, rfl⟩
      · exact .inl ⟨newCap, rfl, rfl⟩
    · exact .inr ⟨rfl, true, rfl⟩

theorem rehash_tombstones {newCap : Nat} (h : rehash m newCap a = some (true, m', a')) :
    m'.tombstones = 0 := by
  unfold rehash at h
  split at h
  · split at h
    · simp at h
    · obtain ⟨new, -, h⟩ := Option.bind_eq_some_iff.mp h
      cases h
      rfl
  · simp at h

/-- A table is rebuilt when it is the first one, when the entries fill three quarters of it, or when the
    tombstones do together with them. -/
theorem ensureOneCap_cases (hw : Wf m) {newCap : Nat} (h : ensureOneCap m = some newCap) :
    (m.cap = 0 ∧ newCap = 8) ∨ (m.cap ≠ 0 ∧ 4 * m.len = 3 * m.cap ∧ newCap = 2 * m.cap) ∨
      (m.cap ≠ 0 ∧ 0 < m.tombstones ∧ newCap = m.cap) := by
  have hload := hw.load
  unfold ensureOneCap at h
  split at h
  next hzero =>
    cases h
    exact .inl ⟨hzero, rfl⟩
  next hzero =>
    have hcap := hw.capOk hzero
    split at h
    next hused =>
      by_cases htest : wmul (wadd m.len 1) 4 > wmul m.cap 3
      · simp only [if_pos htest] at h
        obtain ⟨hguard, h⟩ := Option.ite_none_left_eq_some.mp h
        cases h
        have hdouble := double_le hcap (by omega) htest hguard
        have hbound := hcap.bounds.2
        have hexact : wmul m.cap 2 = 2 * m.cap := by
          rw [wmul] at hguard ⊢
          omega
        -- the capacity is a multiple of four
        obtain ⟨k, hk₃, -, hk⟩ := hcap
        obtain ⟨n, hn⟩ : 4 ∣ m.cap := hk ▸ Nat.pow_dvd_pow 2 (by omega : 2 ≤ k)
        exact .inr (.inl ⟨hzero, by omega, hexact⟩)
      · simp only [if_neg htest, if_neg (Nat.lt_irrefl _)] at h
        cases h
        refine .inr (.inr ⟨hzero, Nat.pos_of_ne_zero fun hnone => htest ?_, rfl⟩)
        have hsum : wadd m.len 0 = m.len := by
          have hbound := hcap.bounds.2
          exact wadd_eq (by omega)
        rwa [hnone, hsum] at hused
    next => cases h

/-- What a call does to the capacity and the counters, when it adds at most `more` entries and `dead`
    tombstones; the last argument is the capacity of the table that it builds. -/
inductive Effect (m : Map ks vs) (more dead : Nat) (m' : Map ks vs) : Option Nat → Prop
  | keeps : m'.cap = m.cap → m'.len ≤ m.len → m'.tombstones ≤ m.tombstones + dead →
      Effect m more dead m' none
  | adds : 4 * (m.len + m.tombstones + 1) ≤ 3 * m.cap → m'.cap = m.cap → m'.len = m.len + 1 →
      m'.tombstones ≤ m.tombstones → 1 ≤ more → Effect m more dead m' none
  | empties : m'.len = 0 → m'.tombstones = 0 → Effect m more dead m' none
  | builds {newCap} : ensureOneCap m = some newCap → m'.cap = newCap → m'.len = m.len + 1 →
      m'.tombstones = 0 → 1 ≤ more → Effect m more dead m' (some newCap)

theorem Effect.len_le {more dead : Nat} {built : Option Nat} (h : Effect m more dead m' built) :
    m'.len ≤ m.len + more := by
  cases h <;> omega

theorem insertAbsent_counters (hw : Wf m) (hw' : Wf m') {key : Bytes ks} {value : Bytes vs}
    (h : insertAbsent m key value = some m') :
    m'.cap = m.cap ∧ m'.len = m.len + 1 ∧ m'.tombstones ≤ m.tombstones := by
  obtain ⟨⟨j, firstTomb⟩, -, h⟩ := Option.bind_eq_some_iff.mp h
  obtain ⟨ctrl, -, h⟩ := Option.bind_eq_some_iff.mp h
  obtain ⟨keys, -, h⟩ := Option.bind_eq_some_iff.mp h
  obtain ⟨values, -, h⟩ := Option.bind_eq_some_iff.mp h
  cases h
  have hcap : m.cap ≤ 2 ^ 63 := hw.cap_le
  have hload := hw.load
  have hload' : 4 * (wadd m.len 1 + _) ≤ 3 * m.cap := hw'.load
  have hlen : wadd m.len 1 = m.len + 1 := wadd_eq (by omega)
  refine ⟨rfl, hlen, ?_⟩
  dsimp only at hload' ⊢
  split
  next htomb =>
    -- a tombstone is reused, so there is one
    rw [if_pos htomb, wsub] at hload'
    rw [wsub]
    omega
  next => exact Nat.le_refl _

/-- An insertion, by what it builds. -/
theorem insertMove_effect (hw : Wf m) {key : Bytes ks} {value : Bytes vs}
    {oldValue : Option (Bytes vs)} {replaced : Option Bool} {r : Inserted vs} (hw' : Wf m')
    (h : insertMove m key value oldValue replaced a = some (r, m', a')) :
    Effect m 1 0 m' (rebuildFor m a key) := by
  obtain ⟨idx, hfind, h⟩ := Option.bind_eq_some_iff.mp h
  cases idx with
  | some j =>
      obtain ⟨old, -, h⟩ := Option.bind_eq_some_iff.mp h
      obtain ⟨values, -, h⟩ := Option.bind_eq_some_iff.mp h
      cases h
      have hnone : rebuildFor m a key = none := by simp [rebuildFor, hfind]
      exact hnone ▸ .keeps rfl (Nat.le_refl _) (Nat.le_refl _)
  | none =>
      obtain ⟨⟨ok, m₁, a₁⟩, hensure, h⟩ := Option.bind_eq_some_iff.mp h
      obtain ⟨_, _, _, hensure', hfail, hgrown⟩ := ensureOne_spec hw a
      cases hensure.symm.trans hensure'
      cases ok with
      | true =>
          obtain ⟨m₂, hinsert, h⟩ := Option.bind_eq_some_iff.mp h
          cases h
          obtain ⟨hcap, hlen, htomb⟩ := insertAbsent_counters (hgrown rfl).wf hw' hinsert
          rcases ensureOne_eq m a with ⟨newCap, hcap', heq⟩ | ⟨hcap', _, heq⟩
          · rw [heq] at hensure
            have hbuilt : rebuildFor m a key = some newCap := by
              simp [rebuildFor, hfind, hcap', hensure]
            obtain ⟨hlen₁, hcap₁⟩ := rehash_len hensure
            have htomb₁ := rehash_tombstones hensure
            rw [hbuilt]
            exact .builds hcap' (hcap.trans hcap₁) (by omega) (by omega) (Nat.le_refl _)
          · cases hensure.symm.trans heq
            have hnone : rebuildFor m a key = none := by simp [rebuildFor, hfind, hcap']
            exact hnone ▸ .adds (hgrown rfl).room hcap hlen htomb (Nat.le_refl _)
      | false =>
          cases h
          obtain rfl := hfail rfl
          have hnone : rebuildFor m' a key = none := by
            rcases ensureOne_eq m' a with ⟨newCap, hcap', heq⟩ | ⟨hcap', _, heq⟩
            · rw [heq] at hensure
              simp [rebuildFor, hfind, hcap', hensure]
            · simp [rebuildFor, hfind, hcap']
          exact hnone ▸ .keeps rfl (Nat.le_refl _) (Nat.le_refl _)

/-- `remove` takes an entry out and leaves a tombstone, if it finds the key. -/
theorem remove_counters (hw : Wf m) (hw' : Wf m') {key : Bytes ks} {b : Bool}
    (h : remove m key = some (b, m')) :
    m'.cap = m.cap ∧ m'.len + b.toNat = m.len ∧ m'.tombstones = m.tombstones + b.toNat := by
  obtain ⟨idx, -, h⟩ := Option.bind_eq_some_iff.mp h
  cases idx with
  | none =>
      cases h
      exact ⟨rfl, rfl, rfl⟩
  | some j =>
      obtain ⟨ctrl, -, h⟩ := Option.bind_eq_some_iff.mp h
      cases h
      have hcap := hw.cap_le
      have hload := hw.load
      have hload' : 4 * (wsub m.len 1 + wadd m.tombstones 1) ≤ 3 * m.cap := hw'.load
      have htomb : wadd m.tombstones 1 = m.tombstones + 1 := wadd_eq (by omega)
      have hlen : wsub m.len 1 + 1 = m.len := by
        rw [wsub] at hload' ⊢
        omega
      exact ⟨rfl, hlen, htomb⟩

theorem remove_effect (hw : Wf m) (hw' : Wf m') {key : Bytes ks} {b : Bool}
    (h : remove m key = some (b, m')) : Effect m 0 1 m' none := by
  obtain ⟨hcap, hlen, htomb⟩ := remove_counters hw hw' h
  have hone : b.toNat ≤ 1 := Bool.toNat_le b
  exact .keeps hcap (by omega) (by omega)

theorem clear_tombstones (hw : Wf m) : (clear m).tombstones = 0 := by
  have hload := hw.load
  unfold clear
  split
  · omega
  · rfl

theorem free_tombstones (hw : Wf m) (a : Alloc) : (free m a).1.tombstones = 0 := by
  have hload := hw.load
  unfold free
  split
  · show m.tombstones = 0
    omega
  · rfl

theorem emptied_effect {more dead : Nat} (hw' : Wf m') (hempty : m'.arrays.entries = [])
    (htomb : m'.tombstones = 0) : Effect m more dead m' none :=
  .empties (by rw [hw'.len_eq, hempty, List.length_nil]) htomb

/-- **Step lemma.** What every call does to the capacity and the counters. -/
theorem exec_effect {s : State ks vs} (hw : Wf s.map) (hw' : Wf m') {op : Op ks vs} {r : Ret vs}
    (h : exec s.map s.alloc op = some (r, m', a')) :
    Effect s.map (if op.inserts.isSome then 1 else 0) (if op.removes then 1 else 0) m'
      (rebuild s op) := by
  have hsame : Effect s.map 0 0 s.map none := .keeps rfl (Nat.le_refl _) (Nat.le_refl _)
  cases op with
  | insertMove key value oldValue replaced =>
      obtain ⟨⟨r', m₁, a₁⟩, hinsert, h⟩ := Option.bind_eq_some_iff.mp h
      cases h
      exact insertMove_effect hw hw' hinsert
  | insert key value =>
      obtain ⟨⟨ok, m₁, a₁⟩, hinsert, h⟩ := Option.bind_eq_some_iff.mp h
      cases h
      obtain ⟨⟨r', m₁, a₁⟩, hinsert, h⟩ := Option.bind_eq_some_iff.mp hinsert
      cases h
      exact insertMove_effect hw hw' hinsert
  | get key =>
      obtain ⟨idx, -, h⟩ := Option.bind_eq_some_iff.mp h
      cases idx with
      | none =>
          cases h
          exact hsame
      | some j =>
          obtain ⟨v, -, h⟩ := Option.bind_eq_some_iff.mp h
          cases h
          exact hsame
  | contains key =>
      obtain ⟨b, -, h⟩ := Option.bind_eq_some_iff.mp h
      cases h
      exact hsame
  | remove key =>
      obtain ⟨⟨b, m₁⟩, hremove, h⟩ := Option.bind_eq_some_iff.mp h
      cases h
      exact remove_effect hw hw' hremove
  | clear =>
      cases h
      exact emptied_effect hw' (clear_spec hw).2.1 (clear_tombstones hw)
  | len =>
      cases h
      exact hsame
  | free =>
      cases h
      exact emptied_effect hw' (free_spec hw _).2.1 (free_tombstones hw _)

theorem step_effect {s s' : State ks vs} (hw : Wf s.map) {op : Op ks vs} (h : step s op = some s') :
    Wf s'.map ∧ Effect s.map (if op.inserts.isSome then 1 else 0) (if op.removes then 1 else 0)
      s'.map (rebuild s op) := by
  obtain ⟨⟨r, m', a'⟩, hexec, hs⟩ := Option.bind_eq_some_iff.mp h
  cases hs
  obtain ⟨_, _, _, hexec', hw', -⟩ := exec_wf hw s.alloc op
  cases hexec.symm.trans hexec'
  exact ⟨hw', exec_effect hw hw' hexec⟩

end Calls

/-! ## Whole runs

The potential of a table is eight rounds for each entry beyond three eighths of the capacity. A rebuild
for a larger table uses it up, and an insertion adds eight. Clean-ups are paid for by the removals that
left the tombstones.
-/

/-- What the next tables will have to be paid for: eight for each entry beyond three eighths of the
    capacity. -/
def credit (s : State ks vs) : Nat := 8 * s.map.len - 3 * s.map.cap

/-- What a larger table costs is paid for. -/
theorem growthRounds_le (s : State ks vs) (op : Op ks vs) (s' : State ks vs) (hw : Wf s.map)
    (h : step s op = some s') :
    growthRounds s op + credit s' ≤ credit s + if op.inserts.isSome then 8 else 0 := by
  obtain ⟨hw', heffect⟩ := step_effect hw h
  have hpay : (if op.inserts.isSome then 8 else 0) = 8 * if op.inserts.isSome then 1 else 0 := by
    split <;> rfl
  have hload := hw.load
  rw [hpay]
  unfold growthRounds credit
  generalize (if op.inserts.isSome then 1 else 0) = more at heffect ⊢
  generalize rebuild s op = built at heffect ⊢
  cases heffect with
  | keeps hcap hlen _ =>
      rw [hcap]
      dsimp only
      omega
  | adds _ hcap hlen _ hmore =>
      rw [hcap, hlen]
      dsimp only
      omega
  | empties hlen _ =>
      rw [hlen]
      dsimp only
      omega
  | @builds newCap hcap hcap' hlen _ hmore =>
      rw [hcap', hlen]
      dsimp only
      rcases ensureOneCap_cases hw hcap with ⟨hzero, rfl⟩ | ⟨hzero, hfull, rfl⟩ | ⟨-, -, rfl⟩
      · -- the first table
        rw [if_pos (by omega)]
        omega
      · -- the entries beyond three eighths pay for the table of twice the size
        rw [if_pos (by omega)]
        omega
      · rw [if_neg (Nat.lt_irrefl _)]
        omega

/-- A clean-up has a removal to pay for it. -/
theorem cleanups_le (s : State ks vs) (op : Op ks vs) (s' : State ks vs) (hw : Wf s.map)
    (h : step s op = some s') :
    cleanups s op + s'.map.tombstones ≤ s.map.tombstones + if op.removes then 1 else 0 := by
  obtain ⟨-, heffect⟩ := step_effect hw h
  unfold cleanups
  generalize rebuild s op = built at heffect
  cases heffect with
  | keeps _ _ htomb => simpa using htomb
  | adds _ _ _ htomb _ => exact (Nat.zero_add _).trans_le (htomb.trans (Nat.le_add_right _ _))
  | empties _ htomb => simp [htomb]
  | builds hcap _ _ htomb _ =>
      rw [htomb]
      rcases ensureOneCap_cases hw hcap with ⟨hzero, rfl⟩ | ⟨hzero, -, rfl⟩ | ⟨-, hpos, rfl⟩
      · simp [hzero]
      · rw [if_neg (by simp; omega)]
        omega
      · rw [if_pos rfl]
        omega

/-- **Rebuilds are paid for.** In every run on a new map, the rebuilds for a larger capacity go through
    at most eight slots for each insertion, and there is at most one rebuild at the same capacity for
    each removal. -/
theorem rebuilds_amortized (keyAlign valueAlign : Nat) (hash : Option (Bytes ks → UInt64))
    (keyEq : Option (Bytes ks → Bytes ks → Bool)) (a : Alloc) (ops : List (Op ks vs)) :
    ∃ s, run step (start keyAlign valueAlign hash keyEq a) ops = some s ∧
      spent step growthRounds (start keyAlign valueAlign hash keyEq a) ops ≤
        8 * ops.countP (fun op => op.inserts.isSome) ∧
      spent step cleanups (start keyAlign valueAlign hash keyEq a) ops ≤ ops.countP Op.removes := by
  have hw : Wf (newIn keyAlign valueAlign hash keyEq : Map ks vs) :=
    wf_newIn keyAlign valueAlign hash keyEq
  obtain ⟨s, hrun, -⟩ := run_wf (s := start keyAlign valueAlign hash keyEq a) hw ops
  have hinv : ∀ (s : State ks vs) op s', Wf s.map → step s op = some s' → Wf s'.map :=
    fun _ _ _ hs h => (step_effect hs h).1
  refine ⟨s, hrun, ?_, ?_⟩
  · have hspent : _ + credit s ≤ 0 + _ := spent_le hinv growthRounds_le hw hrun
    rw [sum_pay] at hspent
    omega
  · have hspent : _ + s.map.tombstones ≤ 0 + _ := spent_le hinv cleanups_le hw hrun
    rw [sum_pay] at hspent
    omega

/-! ## A table at its threshold

The bound on clean-ups is reached: where the entries fill exactly three quarters of the table, one
removal leaves a tombstone and the next insertion has no room, so `ensure_one` rebuilds the whole table
at the size it has. The program does this for as long as it swaps one key for another.
-/

def swaps (l : List (Bytes ks × Bytes ks × Bytes vs)) : List (Op ks vs) :=
  l.flatMap fun (old, key, value) => [.remove old, .insert key value]

/-- An entry has been removed. -/
theorem step_remove {s s' : State ks vs} (hw : Wf s.map) {key : Bytes ks}
    (h : step s (.remove key) = some s') (hfound : s'.rets = s.rets ++ [.bool true]) :
    s'.map.cap = s.map.cap ∧ s'.map.len + 1 = s.map.len ∧
      s'.map.tombstones = s.map.tombstones + 1 := by
  obtain ⟨hw', -⟩ := step_effect hw h
  obtain ⟨⟨r, m', a'⟩, hexec, hs⟩ := Option.bind_eq_some_iff.mp h
  cases hs
  obtain ⟨⟨b, m₁⟩, hremove, hexec⟩ := Option.bind_eq_some_iff.mp hexec
  cases hexec
  obtain rfl : b = true := by simpa using hfound
  exact remove_counters hw hw' hremove

/-- After a removal there is one tombstone and no room, so an insertion cleans up. -/
theorem swap_step {s s₁ s₂ : State ks vs} (hw : Wf s.map) (hcap : s.map.cap ≠ 0)
    (hfull : 4 * s.map.len = 3 * s.map.cap) {old key : Bytes ks} {value : Bytes vs}
    (h₁ : step s (.remove old) = some s₁) (hfound : s₁.rets = s.rets ++ [.bool true])
    (h₂ : step s₁ (.insert key value) = some s₂) :
    s₂.map.len < s.map.len ∨ s₂.map.len = s.map.len ∧ s₂.map.cap = s.map.cap ∧
      cleanups s₁ (.insert key value) = 1 := by
  obtain ⟨hcap₁, hlen₁, htomb₁⟩ := step_remove hw h₁ hfound
  obtain ⟨hw₁, -⟩ := step_effect hw h₁
  obtain ⟨-, heffect⟩ := step_effect hw₁ h₂
  have hload := hw.load
  unfold cleanups
  generalize rebuild s₁ (.insert key value) = built at heffect ⊢
  cases heffect with
  | keeps _ hlen₂ _ => exact .inl (by omega)
  | adds hroom _ _ _ _ => omega
  | empties hlen₂ _ => exact .inl (by omega)
  | builds hnew hcap₂ hlen₂ _ _ =>
      rcases ensureOneCap_cases hw₁ hnew with ⟨hzero, -⟩ | ⟨-, hgrown, -⟩ | ⟨-, -, rfl⟩
      · exact absurd (hcap₁.symm.trans hzero) hcap
      · omega
      · exact .inr ⟨by omega, hcap₂.trans hcap₁, if_pos rfl⟩

theorem step_rets {s s' : State ks vs} {op : Op ks vs} (h : step s op = some s') :
    ∃ r, s'.rets = s.rets ++ [r] := by
  obtain ⟨⟨r, m', a'⟩, -, hs⟩ := Option.bind_eq_some_iff.mp h
  cases hs
  exact ⟨r, rfl⟩

theorem run_rets {s t : State ks vs} {ops : List (Op ks vs)} (h : run step s ops = some t) :
    ∃ rs, t.rets = s.rets ++ rs ∧ rs.length = ops.length := by
  induction ops generalizing s with
  | nil =>
      cases h
      exact ⟨[], by simp, rfl⟩
  | cons op ops ih =>
      obtain ⟨s₁, h₁, h⟩ := Option.bind_eq_some_iff.mp h
      obtain ⟨r, hr⟩ := step_rets h₁
      obtain ⟨rs, hrs, hlen⟩ := ih h
      exact ⟨r :: rs, by rw [hrs, hr, List.append_assoc]; rfl, by simp [hlen]⟩

/-- All calls of a swap and of those after it have returned true. -/
theorem swap_rets {s s₁ s₂ t : State ks vs} {op₁ op₂ : Op ks vs} {ops : List (Op ks vs)} {n : Nat}
    (h₁ : step s op₁ = some s₁) (h₂ : step s₁ op₂ = some s₂) (h : run step s₂ ops = some t)
    (hrets : t.rets = s.rets ++ List.replicate (2 * (n + 1)) (.bool true)) :
    s₁.rets = s.rets ++ [.bool true] ∧ t.rets = s₂.rets ++ List.replicate (2 * n) (.bool true) := by
  obtain ⟨r₁, hr₁⟩ := step_rets h₁
  obtain ⟨r₂, hr₂⟩ := step_rets h₂
  obtain ⟨rs, hrs, -⟩ := run_rets h
  have hsplit : List.replicate (2 * (n + 1)) (Ret.bool true : Ret vs) =
      .bool true :: .bool true :: List.replicate (2 * n) (.bool true) := by
    rw [Nat.mul_add, Nat.mul_one, List.replicate_succ, List.replicate_succ]
  rw [hrs, hr₂, hr₁, hsplit, List.append_assoc, List.append_assoc, List.append_cancel_left_eq] at hrets
  obtain ⟨rfl, rfl, rfl⟩ : r₁ = .bool true ∧ r₂ = .bool true ∧ rs = List.replicate (2 * n) (.bool true) := by
    simpa using hrets
  exact ⟨hr₁, hrs⟩

/-- **Swaps** never add to the entries. If in a table at its threshold they keep their number, each has
    had it rebuilt. -/
theorem swaps_rebuild {l : List (Bytes ks × Bytes ks × Bytes vs)} {s t : State ks vs} (hw : Wf s.map)
    (h : run step s (swaps l) = some t)
    (hrets : t.rets = s.rets ++ List.replicate (2 * l.length) (.bool true)) :
    t.map.len ≤ s.map.len ∧ (s.map.cap ≠ 0 → 4 * s.map.len = 3 * s.map.cap →
      t.map.len = s.map.len → t.map.cap = s.map.cap ∧ spent step cleanups s (swaps l) = l.length) := by
  induction l generalizing s with
  | nil =>
      cases h
      exact ⟨Nat.le_refl _, fun _ _ _ => ⟨rfl, rfl⟩⟩
  | cons e l ih =>
      obtain ⟨old, key, value⟩ := e
      have hcons : swaps ((old, key, value) :: l) = .remove old :: .insert key value :: swaps l := rfl
      rw [hcons] at h ⊢
      obtain ⟨s₁, h₁, h⟩ := Option.bind_eq_some_iff.mp h
      obtain ⟨s₂, h₂, h⟩ := Option.bind_eq_some_iff.mp h
      obtain ⟨hfound, hrest⟩ := swap_rets h₁ h₂ h hrets
      obtain ⟨-, hlen₁, -⟩ := step_remove hw h₁ hfound
      obtain ⟨hw₁, -⟩ := step_effect hw h₁
      obtain ⟨hw₂, heffect⟩ := step_effect hw₁ h₂
      have hlen₂ : s₂.map.len ≤ s₁.map.len + 1 := heffect.len_le
      obtain ⟨hle, hsame⟩ := ih hw₂ h hrest
      refine ⟨by omega, fun hcap hfull hlen => ?_⟩
      rcases swap_step hw hcap hfull h₁ hfound h₂ with hless | ⟨hlen', hcap', hclean⟩
      · omega
      · obtain ⟨hcap'', hspent⟩ := hsame (by omega) (by omega) (by omega)
        have hnone : cleanups s (.remove old) = 0 := rfl
        refine ⟨hcap''.trans hcap', ?_⟩
        rw [spent_cons h₁, spent_cons h₂, hnone, hclean, hspent, List.length_cons]
        omega

/-- **A table at its threshold is rebuilt for every entry that is replaced**: when three quarters of the
    slots hold entries, and entries are removed and others inserted, one at a time, then every one of
    these insertions moves all entries, to a table of the same size. -/
theorem threshold_rebuilds {keyAlign valueAlign : Nat} {hash : Option (Bytes ks → UInt64)}
    {keyEq : Option (Bytes ks → Bytes ks → Bool)} {a : Alloc} {ops : List (Op ks vs)}
    {s t : State ks vs} (hs : run step (start keyAlign valueAlign hash keyEq a) ops = some s)
    (hcap : s.map.cap ≠ 0) (hfull : 4 * s.map.len = 3 * s.map.cap)
    {l : List (Bytes ks × Bytes ks × Bytes vs)} (h : run step s (swaps l) = some t)
    (hrets : t.rets = s.rets ++ List.replicate (2 * l.length) (.bool true))
    (hlen : t.map.len = s.map.len) :
    spent step cleanups s (swaps l) = l.length ∧ t.map.cap = s.map.cap := by
  obtain ⟨_, hs', hw⟩ := run_wf (s := start keyAlign valueAlign hash keyEq a)
    (wf_newIn keyAlign valueAlign hash keyEq) ops
  cases hs.symm.trans hs'
  obtain ⟨hcap', hspent⟩ := (swaps_rebuild hw h hrets).2 hcap hfull hlen
  exact ⟨hspent, hcap'⟩

/-- A map with the entries 0 to 5, one byte each. -/
def sixEntries : List (Op 1 1) := (List.range 6).map fun i => .insert #v[i.toUInt8] #v[0]

def twoSwaps : List (Bytes 1 × Bytes 1 × Bytes 1) := [(#v[0], #v[6], #v[0]), (#v[3], #v[7], #v[0])]

/-- The map before the swaps is at its threshold, they all return true, and keep the number of the
    entries. -/
def atThreshold (s t : State 1 1) : Bool :=
  s.map.cap ≠ 0 ∧ 4 * s.map.len = 3 * s.map.cap ∧
    t.rets = s.rets ++ List.replicate (2 * twoSwaps.length) (.bool true) ∧ t.map.len = s.map.len

theorem threshold_rebuilds_twice :
    ∃ s t, run step (start 1 1 none none ⟨fun _ => false, fun _ _ => 0, 0, []⟩) sixEntries = some s ∧
      run step s (swaps twoSwaps) = some t ∧ spent step cleanups s (swaps twoSwaps) = 2 := by
  have hruns : ((run step (start 1 1 none none ⟨fun _ => false, fun _ _ => 0, 0, []⟩) sixEntries).bind
      fun s => (run step s (swaps twoSwaps)).map (atThreshold s)) = some true := by decide +kernel
  obtain ⟨s, hs, hruns⟩ := Option.bind_eq_some_iff.mp hruns
  obtain ⟨t, ht, hcheck⟩ := Option.map_eq_some_iff.mp hruns
  obtain ⟨hcap, hfull, hrets, hlen⟩ := of_decide_eq_true hcheck
  exact ⟨s, t, hs, ht, (threshold_rebuilds hs hcap hfull ht hrets hlen).1⟩

end CustLib.Hashmap
