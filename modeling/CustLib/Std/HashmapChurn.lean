import CustLib.Std.HashmapInv
import Mathlib.Order.Bounds.Basic

/-!
# `std::hashmap` under churn

The table doubles only when its entries alone, without the tombstones, pass three quarters of it, and is
otherwise cleaned at the size it has. So its capacity is bounded by the largest number of entries it has
held since it was made or last freed, however many have come and gone (`churn_bounded`).
-/

namespace CustLib.Hashmap

variable {ks vs : Nat}

/-! ## One call

The capacity changes in `ensure_one`, `clear` never touches it, and `free` sets it to zero. It doubles
only when the live entries, with the one to come, pass three quarters of it: then they fill three
eighths of the new one.
-/

theorem rehash_len {m m' : Map ks vs} {newCap : Nat} {a a' : Alloc}
    (h : rehash m newCap a = some (true, m', a')) : m'.len = m.len ∧ m'.cap = newCap := by
  unfold rehash at h
  split at h
  · split at h
    · simp at h
    · simp only [Option.bind_eq_bind, Option.bind_eq_some_iff, Option.pure_def, Option.some.injEq,
        Prod.mk.injEq, true_and] at h
      obtain ⟨new, -, rfl, -⟩ := h
      exact ⟨rfl, rfl⟩
  · simp at h

/-- The doubling: it comes when the entries and one more pass three quarters of the table. -/
theorem double_le {len cap : Nat} (hcap : CapOk cap) (hload : 4 * len ≤ 3 * cap)
    (htest : wmul (wadd len 1) 4 > wmul cap 3) (hguard : ¬ wmul cap 2 < cap) :
    3 * wmul cap 2 < 8 * (len + 1) := by
  have hbound := hcap.bounds
  rw [wadd_eq (by omega)] at htest
  obtain ⟨k, hk₃, hk, rfl⟩ := hcap
  rcases Nat.lt_or_ge k 63 with hlt | hge
  · have hsmall : 2 ^ k ≤ 2 ^ 62 := Nat.pow_le_pow_right (by decide) (by omega)
    rw [wmul_eq (by omega), wmul_eq (by omega)] at htest
    rw [wmul_eq (by omega)]
    omega
  · -- the doubling of the largest table wraps to zero
    obtain rfl : k = 63 := by omega
    exact absurd (by decide) hguard

/-- **`ensure_one`** leaves the capacity, makes it the smallest one, or doubles it for a table that is
    full of entries. -/
theorem ensureOne_cap {m m' : Map ks vs} (hw : Wf m) {a a' : Alloc}
    (h : ensureOne m a = some (true, m', a')) :
    m'.len = m.len ∧ (m'.cap = m.cap ∨ m'.cap ≤ 8 ∨ 3 * m'.cap < 8 * (m.len + 1)) := by
  have hload := hw.load
  unfold ensureOne at h
  split at h
  · obtain ⟨hlen, hcap⟩ := rehash_len h
    exact ⟨hlen, .inr (.inl (Nat.le_of_eq hcap))⟩
  · next hzero =>
    split at h
    · -- the tombstones have filled the table, or the entries alone have
      by_cases htest : wmul (wadd m.len 1) 4 > wmul m.cap 3
      · rw [if_pos htest] at h
        by_cases hguard : wmul m.cap 2 < m.cap
        · rw [if_pos hguard] at h
          simp at h
        · rw [if_neg hguard] at h
          obtain ⟨hlen, hcap⟩ := rehash_len h
          have hdouble := double_le (hw.capOk hzero) (by omega) htest hguard
          exact ⟨hlen, .inr (.inr (hcap ▸ hdouble))⟩
      · rw [if_neg htest, if_neg (Nat.lt_irrefl _)] at h
        obtain ⟨hlen, hcap⟩ := rehash_len h
        exact ⟨hlen, .inl hcap⟩
    · simp only [Option.some.injEq, Prod.mk.injEq, true_and] at h
      obtain ⟨rfl, -⟩ := h
      exact ⟨rfl, .inl rfl⟩

/-- What a call can do to the capacity: it stays, becomes no more than the smallest one, or the entries
    fill three eighths of it. -/
def CapStep (m m' : Map ks vs) : Prop := m'.cap = m.cap ∨ m'.cap ≤ 8 ∨ 3 * m'.cap < 8 * m'.len

/-- What an insertion does to the capacity. -/
theorem insertMove_cap {m m' : Map ks vs} (hw : Wf m) {key : Bytes ks} {value : Bytes vs}
    {oldValue : Option (Bytes vs)} {replaced : Option Bool} {a a' : Alloc} {r : Inserted vs}
    (h : insertMove m key value oldValue replaced a = some (r, m', a')) : CapStep m m' := by
  rcases insertMove_cases h with ⟨values, rfl, -⟩ | ⟨ok, m₁, hensure, hdone⟩
  · exact .inl rfl
  obtain ⟨_, _, _, hensure', hfail, hgrown⟩ := ensureOne_spec hw a
  cases hensure.symm.trans hensure'
  rcases hdone with ⟨rfl, hinsert⟩ | ⟨rfl, rfl⟩
  · obtain ⟨ctrl, keys, values, tombstones, rfl⟩ := insertAbsent_cases hinsert
    obtain ⟨hlen, hcap⟩ := ensureOne_cap hw hensure
    have hg := hgrown rfl
    have hroom := hg.room
    have hbound := (hg.wf.capOk (Nat.pos_iff_ne_zero.mp hg.pos)).bounds.2
    have hone : wadd m₁.len 1 = m.len + 1 := by rw [wadd_eq (by omega), hlen]
    show m₁.cap = m.cap ∨ m₁.cap ≤ 8 ∨ 3 * m₁.cap < 8 * wadd m₁.len 1
    rw [hone]
    exact hcap
  · exact .inl (congrArg Map.cap (hfail rfl))

theorem free_cap (m : Map ks vs) (a : Alloc) : (free m a).1.cap = 0 := by
  unfold free
  split
  · assumption
  · rfl

/-- **Step lemma.** Every call changes the capacity as `CapStep` says, and `free` takes it to zero. -/
theorem exec_cap {m m' : Map ks vs} (hw : Wf m) {a a' : Alloc} {op : Op ks vs} {r : Ret vs}
    (h : exec m a op = some (r, m', a')) : CapStep m m' ∧ (op = .free → m'.cap = 0) := by
  rcases exec_cases h with ⟨hop, key, value, oldValue, replaced, r', hinsert⟩ |
    ⟨hop, -, ⟨key, b, hremove⟩ | rfl | rfl⟩ | ⟨-, hfree⟩
  · exact ⟨insertMove_cap hw hinsert, fun he => absurd he hop⟩
  · refine ⟨?_, fun he => absurd he hop⟩
    rcases remove_cases hremove with rfl | ⟨ctrl, rfl⟩ <;> exact .inl rfl
  · refine ⟨.inl ?_, fun he => absurd he hop⟩
    unfold clear
    split <;> rfl
  · exact ⟨.inl rfl, fun he => absurd he hop⟩
  · have hzero := free_cap m a
    rw [hfree] at hzero
    exact ⟨.inr (.inl (Nat.le_trans (Nat.le_of_eq hzero) (Nat.zero_le 8))), fun _ => hzero⟩

/-! ## Whole runs

`Held` looks back to the last `free` or to the start of the run. The greatest number of entries held
since then is the `P` of the bound.
-/

/-- Since it was made or last freed the map has held `n` entries at some moment. -/
def Held (s₀ : State ks vs) (ops : List (Op ks vs)) (n : Nat) : Prop :=
  ∃ pre post s, ops = pre ++ post ∧ .free ∉ post ∧ Machine.run step s₀ pre = some s ∧
    s.map.arrays.entries.length = n

/-- One more call adds the moment after it, and `free` forgets those before it. -/
theorem held_concat {s₀ s : State ks vs} {ops : List (Op ks vs)} {op : Op ks vs}
    (hrun : Machine.run step s₀ (ops ++ [op]) = some s) (n : Nat) :
    Held s₀ (ops ++ [op]) n ↔
      n = s.map.arrays.entries.length ∨ op ≠ .free ∧ Held s₀ ops n := by
  constructor
  · rintro ⟨pre, post, u, hsplit, hpost, hu, hn⟩
    rcases List.eq_nil_or_concat post with rfl | ⟨post', last, rfl⟩
    · rw [List.append_nil] at hsplit
      rw [← hsplit, hrun] at hu
      obtain rfl := Option.some.inj hu
      exact .inl hn.symm
    · rw [List.concat_eq_append, ← List.append_assoc] at hsplit
      obtain ⟨rfl, hlast⟩ := List.append_inj' hsplit rfl
      obtain rfl : op = last := by simpa using hlast
      simp only [List.concat_eq_append, List.mem_append, List.mem_singleton, not_or] at hpost
      exact .inr ⟨Ne.symm hpost.2, pre, post', u, rfl, hpost.1, hu, hn⟩
  · rintro (rfl | ⟨hop, pre, post, u, rfl, hpost, hu, hn⟩)
    · exact ⟨ops ++ [op], [], s, by simp, by simp, hrun, rfl⟩
    · refine ⟨pre, post ++ [op], u, by simp, ?_, hu, hn⟩
      simp [hpost, Ne.symm hop]

theorem greatest_held_nil (s₀ : State ks vs) :
    IsGreatest {n | Held s₀ [] n} s₀.map.arrays.entries.length := by
  refine ⟨⟨[], [], _, rfl, by simp, rfl, rfl⟩, ?_⟩
  rintro n ⟨pre, post, u, hsplit, -, hu, rfl⟩
  obtain ⟨rfl, rfl⟩ : pre = [] ∧ post = [] := by simpa using hsplit.symm
  obtain rfl := Option.some.inj hu
  exact Nat.le_refl _

/-- `free` starts the count again. -/
theorem greatest_held_free {s₀ s : State ks vs} {ops : List (Op ks vs)}
    (hrun : Machine.run step s₀ (ops ++ [.free]) = some s) :
    IsGreatest {n | Held s₀ (ops ++ [.free]) n} s.map.arrays.entries.length := by
  have hset : {n | Held s₀ (ops ++ [.free]) n} = {s.map.arrays.entries.length} := by
    ext n
    rw [Set.mem_ofPred_eq, held_concat hrun]
    simp
  rw [hset]
  exact isGreatest_singleton

/-- The new moment joins the old ones. -/
theorem greatest_held_concat {s₀ s : State ks vs} {ops : List (Op ks vs)} {op : Op ks vs} {P : Nat}
    (hrun : Machine.run step s₀ (ops ++ [op]) = some s) (hop : op ≠ .free)
    (hP : IsGreatest {n | Held s₀ ops n} P) :
    IsGreatest {n | Held s₀ (ops ++ [op]) n} (max s.map.arrays.entries.length P) := by
  have hset : {n | Held s₀ (ops ++ [op]) n} =
      Insert.insert s.map.arrays.entries.length {n | Held s₀ ops n} := by
    ext n
    rw [Set.mem_ofPred_eq, held_concat hrun]
    simp [hop]
  rw [hset]
  exact hP.insert _

/-- **Churn does not grow the table.** For every hash function, equality and allocator, every sequence
    of calls on a new map returns, and if `P` is the largest number of entries the map has held since
    it was made or last freed, its capacity is at most 8 or less than `8 * P / 3`. -/
theorem churn_bounded (keyAlign valueAlign : Nat) (hash : Option (Bytes ks → UInt64))
    (keyEq : Option (Bytes ks → Bytes ks → Bool)) (a : Alloc) (ops : List (Op ks vs)) :
    ∃ s P, Machine.run step (start keyAlign valueAlign hash keyEq a) ops = some s ∧
      IsGreatest {n | Held (start keyAlign valueAlign hash keyEq a) ops n} P ∧
      (s.map.cap ≤ 8 ∨ 3 * s.map.cap < 8 * P) := by
  suffices h : ∃ s, Machine.run step (start keyAlign valueAlign hash keyEq a) ops = some s ∧
      Wf s.map ∧ ∃ P, IsGreatest {n | Held (start keyAlign valueAlign hash keyEq a) ops n} P ∧
        (s.map.cap ≤ 8 ∨ 3 * s.map.cap < 8 * P) by
    obtain ⟨s, hrun, -, P, hP⟩ := h
    exact ⟨s, P, hrun, hP⟩
  induction ops using List.reverseRecOn with
  | nil =>
      exact ⟨_, rfl, wf_newIn keyAlign valueAlign hash keyEq, _, greatest_held_nil _,
        .inl (Nat.zero_le 8)⟩
  | append_singleton ops op ih =>
      obtain ⟨s, hrun, hw, P, hP, hcap⟩ := ih
      obtain ⟨r, m', a', hexec, hw', -⟩ := exec_wf hw s.alloc op
      obtain ⟨hstep, hfree⟩ := exec_cap hw hexec
      have hrun' : Machine.run step (start keyAlign valueAlign hash keyEq a) (ops ++ [op]) =
          some ⟨m', a', s.rets ++ [r]⟩ :=
        Machine.run_concat_iff.mpr ⟨s, hrun, by simp [step, hexec]⟩
      refine ⟨_, hrun', hw', ?_⟩
      by_cases hop : op = .free
      · subst hop
        exact ⟨_, greatest_held_free hrun', .inl (by simp [hfree rfl])⟩
      · refine ⟨_, greatest_held_concat hrun' hop hP, ?_⟩
        have hlen := hw'.len_eq
        show m'.cap ≤ 8 ∨ 3 * m'.cap < 8 * max m'.arrays.entries.length P
        -- the capacity is kept, or small, or needed for what the table holds now
        rcases hstep with hsame | hsmall | hfull
        · rw [hsame]
          omega
        · exact .inl hsmall
        · omega

end CustLib.Hashmap
