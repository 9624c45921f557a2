import CustLib.Lib.Assoc
import CustLib.Std.HashmapInv

/-!
# `std::hashmap` refines a finite map

The specification of a hash map is a finite map up to the caller's equality (`Spec`), whose one
freedom is that the insertion of a new key may fail. For an equality that is an equivalence relation
and implies equal hashes, every call returns what the specification returns
(`hashmap_refines_finite_map`).
-/

namespace CustLib.Hashmap

open CustLib.Assoc

variable {ks vs : Nat}

/-! ## The specification

`Spec` has one constructor for each way in which a call can end. An insertion of a key that is there
overwrites its value and cannot fail; one of a new key adds an entry or fails. `find`, `overwrite` and
`erase` are those of `CustLib.Lib.Assoc`, for the equality that the caller gave.
-/

inductive Spec (eq : Bytes ks → Bytes ks → Bool) :
    List (Bytes ks × Bytes vs) → Op ks vs → Ret vs → List (Bytes ks × Bytes vs) → Prop
  | insertMove_old {l k v old replaced e} : find eq l k = some e →
      Spec eq l (.insertMove k v old replaced)
        (.inserted ⟨true, old.map fun _ => e.2, replaced.map fun _ => true⟩) (overwrite eq l k v)
  | insertMove_new {l k v old replaced} : find eq l k = none →
      Spec eq l (.insertMove k v old replaced)
        (.inserted ⟨true, old, replaced.map fun _ => false⟩) ((k, v) :: l)
  | insertMove_fails {l k v old replaced} : find eq l k = none →
      Spec eq l (.insertMove k v old replaced) (.inserted ⟨false, old, replaced⟩) l
  | insert_old {l k v e} : find eq l k = some e →
      Spec eq l (.insert k v) (.bool true) (overwrite eq l k v)
  | insert_new {l k v} : find eq l k = none → Spec eq l (.insert k v) (.bool true) ((k, v) :: l)
  | insert_fails {l k v} : find eq l k = none → Spec eq l (.insert k v) (.bool false) l
  | get {l k} : Spec eq l (.get k) (.value (if vs = 0 then none else (find eq l k).map Prod.snd)) l
  | contains {l k} : Spec eq l (.contains k) (.bool (find eq l k).isSome) l
  | remove {l k} : Spec eq l (.remove k) (.bool (find eq l k).isSome) (erase eq l k)
  | clear {l} : Spec eq l .clear .unit []
  | len {l} : Spec eq l .len (.len l.length) l
  | free {l} : Spec eq l .free .unit []

inductive SpecRun (eq : Bytes ks → Bytes ks → Bool) :
    List (Bytes ks × Bytes vs) → List (Op ks vs) → List (Ret vs) → List (Bytes ks × Bytes vs) → Prop
  | nil {l} : SpecRun eq l [] [] l
  | concat {l l' l'' ops rets op r} : SpecRun eq l ops rets l' → Spec eq l' op r l'' →
      SpecRun eq l (ops ++ [op]) (rets ++ [r]) l''

/-! ## Why an insertion fails

Only `rehash` can fail, and only where the allocator refuses one of its three requests, or where an array
of twice the capacity has a size that is not a `usize`.
-/

/-- The allocator has refused a request in the meantime. -/
def Refused (a a' : Alloc) : Prop :=
  ∃ calls, a'.log = a.log ++ calls ∧ ∃ call ∈ calls, call.isRefusal = true

/-- What makes an insertion fail. -/
def Excused (m : Map ks vs) (a a' : Alloc) : Prop :=
  Refused a a' ∨ 2 ^ 64 - 1 < max 8 (2 * m.cap) * max 1 (max ks vs)

section Failures

variable {a a' a'' : Alloc}

theorem Refused.before (h : Refused a' a'') (hlog : a.log <+: a'.log) : Refused a a'' := by
  obtain ⟨calls, hcalls, call, hmem, hrefusal⟩ := h
  obtain ⟨rest, hrest⟩ := hlog
  refine ⟨rest ++ calls, ?_, call, List.mem_append_right _ hmem, hrefusal⟩
  rw [hcalls, ← hrest, List.append_assoc]

theorem Refused.after (h : Refused a a') (hlog : a'.log <+: a''.log) : Refused a a'' := by
  obtain ⟨calls, hcalls, call, hmem, hrefusal⟩ := h
  obtain ⟨rest, hrest⟩ := hlog
  refine ⟨calls ++ rest, ?_, call, List.mem_append_left _ hmem, hrefusal⟩
  rw [← hrest, hcalls, List.append_assoc]

/-- One request is granted, or refused. -/
theorem allocate_refused {size align : Nat} {r : Option Block}
    (h : a.allocate size align = (r, a')) : a.log <+: a'.log ∧ (r = none → Refused a a') := by
  unfold Alloc.allocate at h
  split at h
  · cases h
    exact ⟨List.prefix_append _ _, fun _ => ⟨_, rfl, _, List.mem_singleton_self _, rfl⟩⟩
  · cases h
    exact ⟨List.prefix_append _ _, nofun⟩

theorem allocateOpt_refused {size align : Nat} {r : Option (Option Block)}
    (h : allocateOpt a size align = (r, a')) : a.log <+: a'.log ∧ (r = none → Refused a a') := by
  unfold allocateOpt at h
  split at h
  · cases h
    exact ⟨List.prefix_rfl, nofun⟩
  · split at h
    next hcall =>
      cases h
      exact ⟨(allocate_refused hcall).1, fun _ => (allocate_refused hcall).2 rfl⟩
    next hcall =>
      cases h
      exact ⟨(allocate_refused hcall).1, nofun⟩

theorem deallocateOpt_log (a : Alloc) (ptr : Option Block) (size align : Nat) :
    a.log <+: (deallocateOpt a ptr size align).log := by
  cases ptr with
  | none => exact List.prefix_rfl
  | some b => exact List.prefix_append _ _

/-- One of the three allocations of `rehash` was refused. -/
theorem allocateArrays_refused {m : Map ks vs} {newCap keyBytes valBytes : Nat}
    (h : allocateArrays m newCap keyBytes valBytes a = (none, a')) : Refused a a' := by
  unfold allocateArrays at h
  split at h
  next hctrl =>
    cases h
    exact (allocate_refused hctrl).2 rfl
  next hctrl =>
    obtain ⟨hlog, -⟩ := allocate_refused hctrl
    split at h
    next hkeys =>
      cases h
      exact (((allocateOpt_refused hkeys).2 rfl).before hlog).after (List.prefix_append _ _)
    next hkeys =>
      have hlog := hlog.trans (allocateOpt_refused hkeys).1
      split at h
      next hvalues =>
        cases h
        refine (((allocateOpt_refused hvalues).2 rfl).before hlog).after ?_
        exact (deallocateOpt_log _ _ _ _).trans (List.prefix_append _ _)
      next => cases h

/-- `rehash` fails at a refusal, or at a size that is not a `usize`. -/
theorem rehash_excused {m m' : Map ks vs} {newCap : Nat}
    (h : rehash m newCap a = some (false, m', a')) :
    Refused a a' ∨ 2 ^ 64 - 1 < newCap * max 1 (max ks vs) := by
  have hsize : ∀ n, n ≤ max 1 (max ks vs) → checkedMul newCap n = none →
      2 ^ 64 - 1 < newCap * max 1 (max ks vs) := by
    intro n hn hnone
    rw [checkedMul_eq, ite_eq_right_iff] at hnone
    have hle : newCap * n ≤ newCap * max 1 (max ks vs) := Nat.mul_le_mul_left _ hn
    have hlarge : ¬ newCap * n < 2 ^ 64 := fun hlt => Option.some_ne_none _ (hnone hlt)
    omega
  unfold rehash at h
  split at h
  · split at h
    next hrefused =>
      cases h
      exact .inl (allocateArrays_refused hrefused)
    next =>
      obtain ⟨new, -, hnew⟩ := Option.bind_eq_some_iff.mp h
      cases hnew
  next hnot =>
    right
    cases hkeys : checkedMul newCap ks with
    | none => exact hsize ks (by omega) hkeys
    | some keyBytes =>
        cases hvalues : checkedMul newCap vs with
        | none => exact hsize vs (by omega) hvalues
        | some valBytes => exact absurd hvalues (hnot keyBytes valBytes hkeys)

/-- A failed `ensure_one` is excused. -/
theorem ensureOne_excused {m m' : Map ks vs} (h : ensureOne m a = some (false, m', a')) :
    Excused m a a' := by
  have hlarge : ∀ c, c ≤ max 8 (2 * m.cap) → 2 ^ 64 - 1 < c * max 1 (max ks vs) →
      2 ^ 64 - 1 < max 8 (2 * m.cap) * max 1 (max ks vs) := fun c hc hlt =>
    Nat.lt_of_lt_of_le hlt (Nat.mul_le_mul_right _ hc)
  unfold ensureOne at h
  split at h
  · exact (rehash_excused h).imp_right (hlarge 8 (Nat.le_max_left _ _))
  · split at h
    · split at h
      · -- the capacity doubles, and may wrap
        dsimp only at h
        split at h
        next hguard =>
          refine .inr (hlarge (2 * m.cap) (Nat.le_max_right _ _) ?_)
          have hwrap : 2 ^ 64 ≤ m.cap * 2 := by
            by_contra hlt
            rw [wmul_eq (by omega)] at hguard
            omega
          have hone : 2 * m.cap * 1 ≤ 2 * m.cap * max 1 (max ks vs) :=
            Nat.mul_le_mul_left _ (Nat.le_max_left _ _)
          omega
        next =>
          have hdouble : wmul m.cap 2 ≤ m.cap * 2 := Nat.mod_le _ _
          exact (rehash_excused h).imp_right (hlarge _ (by omega))
      · -- a rebuild at the same size
        dsimp only at h
        rw [if_neg (Nat.lt_irrefl _)] at h
        exact (rehash_excused h).imp_right (hlarge _ (by omega))
    · cases h

/-- An insertion that fails is excused. -/
theorem insertMove_excused {m m' : Map ks vs} {key : Bytes ks} {value : Bytes vs}
    {old : Option (Bytes vs)} {replaced : Option Bool} {r : Inserted vs}
    (h : insertMove m key value old replaced a = some (r, m', a')) (hfailed : r.ok = false) :
    Excused m a a' := by
  obtain ⟨idx, -, h⟩ := Option.bind_eq_some_iff.mp h
  cases idx with
  | some j =>
      obtain ⟨_, -, h⟩ := Option.bind_eq_some_iff.mp h
      obtain ⟨_, -, h⟩ := Option.bind_eq_some_iff.mp h
      cases h
      cases hfailed
  | none =>
      obtain ⟨⟨ok, m₁, a₁⟩, hensure, h⟩ := Option.bind_eq_some_iff.mp h
      cases ok with
      | true =>
          obtain ⟨_, -, h⟩ := Option.bind_eq_some_iff.mp h
          cases h
          cases hfailed
      | false =>
          cases h
          exact ensureOne_excused hensure

end Failures

/-! ## The simulation

`Models` ties a map to a finite map: the entries of the table are those of the list, up to order, and
the keys of the list are distinct. Each call is carried over by the spec lemma of the function; that the
equality is an equivalence relation that respects the hash is needed exactly where an entry of the list
has to be found by the probe.
-/

structure Models (hash : Bytes ks → UInt64) (eq : Bytes ks → Bytes ks → Bool) (m : Map ks vs)
    (l : List (Bytes ks × Bytes vs)) : Prop where
  wf       : Wf m
  entries  : m.arrays.entries.Perm l
  distinct : Distinct eq l
  hash     : m.hash = hash
  keyEq    : m.keyEq = eq

section

variable {hash : Bytes ks → UInt64} {eq : Bytes ks → Bytes ks → Bool}
  (heq : Equivalence fun a b => eq a b = true)
  (hhash : ∀ a b, eq a b = true → hash a = hash b)

/-- Another table of the same map. -/
theorem Models.types {m m' : Map ks vs} {l l' : List (Bytes ks × Bytes vs)}
    (h : Models hash eq m l) (hw : Wf m') (ht : SameTypes m m') (he : m'.arrays.entries.Perm l')
    (hd : Distinct eq l') : Models hash eq m' l' :=
  ⟨hw, he, hd, ht.hash.trans h.hash, ht.keyEq.trans h.keyEq⟩

include hhash in
/-- A key that the map does not find is not in the finite map. -/
theorem Models.absent {m : Map ks vs} {l : List (Bytes ks × Bytes vs)} (h : Models hash eq m l)
    {k : Bytes ks} (ha : Absent m k) : ∀ e ∈ l, eq e.1 k = false := by
  intro e he
  rw [Bool.eq_false_iff]
  intro hk
  have hne := ha e (h.entries.mem_iff.mpr he) (by rw [h.hash, hhash _ _ hk])
  rw [h.keyEq, hk] at hne
  exact nomatch hne

include heq in
/-- An entry that the map finds is the one of the finite map. -/
theorem Models.found {m : Map ks vs} {l : List (Bytes ks × Bytes vs)} (h : Models hash eq m l)
    {k : Bytes ks} {j : Nat} {e : Bytes ks × Bytes vs} (he : m.arrays.entry j = some e)
    (hk : m.keyEq e.1 k = true) : find eq l k = some e := by
  rw [h.keyEq] at hk
  have hmem := (Arrays.mem_entries h.wf.sized).mpr ⟨j, he⟩
  exact find_of_mem heq h.distinct (h.entries.mem_iff.mp hmem) hk

def Op.inserts : Op ks vs → Option (Bytes ks)
  | .insertMove k _ _ _ => some k
  | .insert k _         => some k
  | _                   => none

def Ret.failed : Ret vs → Bool
  | .inserted r => !r.ok
  | .bool b     => !b
  | _           => false

/-- What a call of the map does, seen from the finite map. -/
structure Simulates (hash : Bytes ks → UInt64) (eq : Bytes ks → Bytes ks → Bool) (m : Map ks vs)
    (a : Alloc) (l : List (Bytes ks × Bytes vs)) (op : Op ks vs) (r : Ret vs) (m' : Map ks vs)
    (a' : Alloc) : Prop where
  spec     : ∃ l', Spec eq l op r l' ∧ Models hash eq m' l'
  /-- Overwriting an existing key neither allocates nor fails. -/
  existing : ∀ k, op.inserts = some k → (find eq l k).isSome → a' = a ∧ r.failed = false
  /-- An insertion that fails leaves the map as it was. -/
  failed   : op.inserts.isSome → r.failed = true → m' = m
  excused  : op.inserts.isSome → r.failed = true → Excused m a a'

include heq hhash in
/-- `insert_move` simulates an insertion. -/
theorem insertMoved_simulates {m m' : Map ks vs} {a a' : Alloc}
    {l : List (Bytes ks × Bytes vs)} (h : Models hash eq m l) {k : Bytes ks} {v : Bytes vs}
    {old : Option (Bytes vs)} {replaced : Option Bool} {r : Inserted vs} (hw : Wf m')
    (ht : SameTypes m m') (hins : InsertMoved m a k v old replaced r m' a')
    (hexcused : r.ok = false → Excused m a a') :
    Simulates hash eq m a l (.insertMove k v old replaced) (.inserted r) m' a' := by
  cases hins with
  | @replaced e rest m' hk hold hnew =>
      rw [h.keyEq] at hk
      have hp := h.entries.symm.trans hold
      have hfind := find_of_mem heq h.distinct (hp.mem_iff.mpr List.mem_cons_self) hk
      refine ⟨⟨_, .insertMove_old hfind, ?_⟩, fun _ _ _ => ⟨rfl, rfl⟩, nofun, nofun⟩
      exact h.types hw ht (hnew.trans (overwrite_perm heq h.distinct hp hk v).symm)
        (h.distinct.overwrite k v)
  | added ha hnew =>
      have hne := h.absent hhash ha
      have hfind := find_eq_none hne
      refine ⟨⟨_, .insertMove_new hfind, ?_⟩, ?_, nofun, nofun⟩
      · exact h.types hw ht (hnew.trans (h.entries.cons _)) (h.distinct.cons heq hne v)
      · rintro k' ⟨⟩ hsome
        rw [hfind] at hsome
        exact nomatch hsome
  | failed ha =>
      have hfind := find_eq_none (h.absent hhash ha)
      refine ⟨⟨_, .insertMove_fails hfind, h⟩, ?_, fun _ _ => rfl, fun _ _ => hexcused rfl⟩
      rintro k' ⟨⟩ hsome
      rw [hfind] at hsome
      exact nomatch hsome

/-- `insert` is `insert_move` without out parameters. -/
theorem Simulates.insert {m m' : Map ks vs} {a a' : Alloc} {l : List (Bytes ks × Bytes vs)}
    {k : Bytes ks} {v : Bytes vs} {r : Inserted vs}
    (h : Simulates hash eq m a l (.insertMove k v none none) (.inserted r) m' a') :
    Simulates hash eq m a l (.insert k v) (.bool r.ok) m' a' := by
  obtain ⟨⟨l', hspec, hl'⟩, hexisting, hfailed, hexcused⟩ := h
  refine ⟨⟨l', ?_, hl'⟩, hexisting, hfailed, hexcused⟩
  cases hspec with
  | insertMove_old hfind => exact .insert_old hfind
  | insertMove_new hfind => exact .insert_new hfind
  | insertMove_fails hfind => exact .insert_fails hfind

include heq hhash in
/-- **Step lemma.** Every call simulates the finite map. -/
theorem exec_simulates {m : Map ks vs} {l : List (Bytes ks × Bytes vs)} (h : Models hash eq m l)
    (a : Alloc) (op : Op ks vs) :
    ∃ r m' a', exec m a op = some (r, m', a') ∧ Simulates hash eq m a l op r m' a' := by
  cases op with
  | insertMove k v old replaced =>
      obtain ⟨r, m', a', hr, hw, ht, hins⟩ := insertMove_spec h.wf k v old replaced a
      exact ⟨_, m', a', exec_insertMove hr,
        insertMoved_simulates heq hhash h hw ht hins (insertMove_excused hr)⟩
  | insert k v =>
      obtain ⟨r, m', a', hr, hw, ht, hins⟩ := insertMove_spec h.wf k v none none a
      exact ⟨_, m', a', exec_insert hr,
        (insertMoved_simulates heq hhash h hw ht hins (insertMove_excused hr)).insert⟩
  | get k =>
      have hspec : Spec eq l (.get k) _ l := .get
      obtain ⟨r, hr, hsome, hnone⟩ := get_spec h.wf k
      cases r with
      | none =>
          refine ⟨_, m, a, exec_get_none hr, ⟨l, ?_, h⟩, nofun, fun _ _ => rfl, nofun⟩
          -- `get` answers none for values of size 0, too
          rcases hnone rfl with hvs | ha
          · rwa [if_pos hvs] at hspec
          · rwa [find_eq_none (h.absent hhash ha), Option.map_none, ite_self] at hspec
      | some j =>
          obtain ⟨hvs, e, he, hk⟩ := hsome j rfl
          refine ⟨_, m, a, exec_get_some hr (Arrays.entry_eq_some.mp he).2.2, ⟨l, ?_, h⟩, nofun,
            fun _ _ => rfl, nofun⟩
          rwa [if_neg hvs, h.found heq he hk] at hspec
  | contains k =>
      have hspec : Spec eq l (.contains k) _ l := .contains
      obtain ⟨b, hb, htrue, hfalse⟩ := contains_spec h.wf k
      refine ⟨_, m, a, exec_contains hb, ⟨l, ?_, h⟩, nofun, fun _ _ => rfl, nofun⟩
      cases b with
      | true =>
          obtain ⟨j, e, he, hk⟩ := htrue rfl
          rwa [h.found heq he hk] at hspec
      | false => rwa [find_eq_none (h.absent hhash (hfalse rfl))] at hspec
  | remove k =>
      have hspec : Spec eq l (.remove k) _ _ := .remove
      obtain ⟨b, m', hb, hw, ht, hrem⟩ := remove_spec h.wf k
      refine ⟨_, m', a, exec_remove hb, ?_, nofun, nofun, nofun⟩
      cases hrem with
      | @removed e m' hk hp =>
          rw [h.keyEq] at hk
          have hp' := h.entries.symm.trans hp
          -- the key that was found is equal to `k`, and no other is
          rw [find_of_mem heq h.distinct (hp'.mem_iff.mpr List.mem_cons_self) hk] at hspec
          exact ⟨_, hspec, h.types hw ht (erase_perm heq h.distinct hp' hk).symm (h.distinct.erase k)⟩
      | absent ha =>
          have hne := h.absent hhash ha
          rw [find_eq_none hne, erase_eq_self hne] at hspec
          exact ⟨_, hspec, h⟩
  | clear =>
      obtain ⟨hw, he, ht⟩ := clear_spec h.wf
      exact ⟨_, clear m, a, rfl, ⟨[], .clear, h.types hw ht (he ▸ .refl _) .nil⟩, nofun, nofun, nofun⟩
  | len =>
      have hspec : Spec eq l .len _ l := .len
      rw [← h.entries.length_eq, ← h.wf.len_eq] at hspec
      exact ⟨_, m, a, rfl, ⟨l, hspec, h⟩, nofun, fun _ _ => rfl, nofun⟩
  | free =>
      obtain ⟨hw, he, ht⟩ := free_spec h.wf a
      exact ⟨_, (free m a).1, (free m a).2, rfl,
        ⟨[], .free, h.types hw ht (he ▸ .refl _) .nil⟩, nofun, nofun, nofun⟩

include heq hhash in
/-- **Run lemma.** Every sequence of calls simulates the finite map. -/
theorem run_simulates {m : Map ks vs} {l₀ : List (Bytes ks × Bytes vs)} (h : Models hash eq m l₀)
    (a : Alloc) (ops : List (Op ks vs)) :
    ∃ s l, Machine.run step ⟨m, a, []⟩ ops = some s ∧ SpecRun eq l₀ ops s.rets l ∧
      Models hash eq s.map l := by
  have hrun : ∃ s, Machine.run step ⟨m, a, []⟩ ops = some s ∧
      ∃ l, SpecRun eq l₀ ops s.rets l ∧ Models hash eq s.map l := by
    refine Machine.run_progress
      (I := fun done (s : State ks vs) => ∃ l, SpecRun eq l₀ done s.rets l ∧ Models hash eq s.map l)
      ⟨l₀, .nil, h⟩ ?_
    rintro done op rest s - ⟨l, hspec, hl⟩
    obtain ⟨r, m', a', hexec, ⟨l', hl', hm'⟩, -⟩ := exec_simulates heq hhash hl s.alloc op
    exact ⟨⟨m', a', s.rets ++ [r]⟩, by simp [step, hexec], l', hspec.concat hl', hm'⟩
  obtain ⟨s, hs, l, hspec, hl⟩ := hrun
  exact ⟨s, l, hs, hspec, hl⟩

end

/-- **The hash map refines a finite map.** For every hash function and every equality that is an
    equivalence relation and implies equal hashes, and for every allocator: every sequence of calls
    on a new map returns what the finite map returns, and so does every further call; an insertion
    of a stored key neither allocates nor fails, and an insertion that fails is excused and leaves every
    field and every slot of the map as it was. -/
theorem hashmap_refines_finite_map (keyAlign valueAlign : Nat)
    (hash : Option (Bytes ks → UInt64)) (keyEq : Option (Bytes ks → Bytes ks → Bool))
    (heq : Equivalence fun a b => keyEq.getD stdKeyEqBytes a b = true)
    (hhash : ∀ a b, keyEq.getD stdKeyEqBytes a b = true →
      hash.getD stdHashBytes a = hash.getD stdHashBytes b)
    (a : Alloc) (ops : List (Op ks vs)) :
    ∃ s l, Machine.run step (start keyAlign valueAlign hash keyEq a) ops = some s ∧
      SpecRun (keyEq.getD stdKeyEqBytes) [] ops s.rets l ∧ s.map.arrays.entries.Perm l ∧
        ∀ op, ∃ r m' a', exec s.map s.alloc op = some (r, m', a') ∧
          Simulates (hash.getD stdHashBytes) (keyEq.getD stdKeyEqBytes) s.map s.alloc l op r m'
            a' := by
  have hnew : Models (hash.getD stdHashBytes) (keyEq.getD stdKeyEqBytes)
      (newIn keyAlign valueAlign hash keyEq : Map ks vs) [] :=
    ⟨wf_newIn keyAlign valueAlign hash keyEq, .refl _, .nil, rfl, rfl⟩
  obtain ⟨s, l, hrun, hspec, hl⟩ := run_simulates heq hhash hnew a ops
  exact ⟨s, l, hrun, hspec, hl.entries, fun op => exec_simulates heq hhash hl s.alloc op⟩

/-- The default equality is one, and equal keys have equal hashes. -/
theorem stdKeyEqBytes_equivalence : Equivalence fun a b : Bytes ks => stdKeyEqBytes a b = true where
  refl a := by simp [stdKeyEqBytes]
  symm h := by simpa [stdKeyEqBytes] using (by simpa [stdKeyEqBytes] using h : _ = _).symm
  trans h h' := by grind [stdKeyEqBytes]

theorem hash_eq_of_stdKeyEqBytes (hash : Bytes ks → UInt64) (a b : Bytes ks)
    (h : stdKeyEqBytes a b = true) : hash a = hash b := by
  rw [eq_of_beq h]

/-- An allocator that refuses its first request, a displaced value, and a removal. -/
theorem hashmap_refines_finite_map_one_key :
    ∃ (s : State 1 1) (l : List (Bytes 1 × Bytes 1)),
      Machine.run step (start 1 1 none none ⟨fun n => n = 0, fun _ _ => 170, 0, []⟩)
        [.insert #v[7] #v[1], .insert #v[7] #v[1], .insertMove #v[7] #v[2] (some #v[0]) (some false),
          .get #v[7], .remove #v[7], .len] = some s ∧
      s.rets = [.bool false, .bool true, .inserted ⟨true, some #v[1], some true⟩,
        .value (some #v[2]), .bool true, .len 0] ∧ s.map.arrays.entries.Perm l := by
  obtain ⟨s, l, hrun, -, hl, -⟩ := hashmap_refines_finite_map 1 1 none none
    stdKeyEqBytes_equivalence (hash_eq_of_stdKeyEqBytes _)
    ⟨fun n => n = 0, fun _ _ => 170, 0, []⟩
    [.insert #v[7] #v[1], .insert #v[7] #v[1], .insertMove #v[7] #v[2] (some #v[0]) (some false),
      .get #v[7], .remove #v[7], (.len : Op 1 1)]
  refine ⟨s, l, hrun, ?_, hl⟩
  have hrets := congrArg (Option.map State.rets) hrun
  rw [Option.map_some] at hrets
  exact Option.some.inj (hrets.symm.trans (by decide +kernel))

end CustLib.Hashmap
