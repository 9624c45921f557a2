import Mathlib.Data.List.Nodup
import CustLib.Lib.Digest
import CustLib.Std.HashmapInv

/-!
# What a lookup costs

The rounds of `find_index`. They are at most as many as there are full slots and tombstones, and for a
key that is not there at least as many as there are entries with its home slot (`lookup_cost`). The
hash function decides how many those are, and `std_hash_bytes` is a digest: in a table of up to 128
slots it does not see the high bits of any byte. So keys whose bytes differ in high bits alone
share a home slot, and every lookup of one more of them walks past all of them (`flooded`).
-/

namespace CustLib.Hashmap

open CustLib.Digest
open CustLib.Probe

variable {ks vs : Nat}

/-! ## Rounds of the probe

`Takes n r` unrolls the loop of `find_index`: it goes on for `n` slots and ends at the next one with
`r`.
-/

/-- The probe for a key goes on for `n` rounds, and ends with `r` in the next. -/
def Takes (m : Map ks vs) (key : Bytes ks) (n : Nat) (r : Option Nat) : Prop :=
  ∀ fuel, findLoop m key (m.cap - 1) fuel (homeSlot m (m.cap - 1) key) =
    if fuel ≤ n then none else some r

/-- Where the probe for a key is in round `i`. -/
def visits (m : Map ks vs) (key : Bytes ks) (i : Nat) : Nat := slot m.cap (m.hash key).toNat i

def Stops (m : Map ks vs) (key : Bytes ks) (j : Nat) : Prop :=
  m.arrays.Empty j ∨ ∃ e, m.arrays.entry j = some e ∧ m.keyEq e.1 key = true

section

variable {m : Map ks vs} {key : Bytes ks}

/-- A round in which the probe goes on. -/
theorem findLoop_skip (hw : Wf m) (hcap : m.cap ≠ 0) {i : Nat} (hstop : ¬ Stops m key (visits m key i))
    (fuel : Nat) : findLoop m key (m.cap - 1) (fuel + 1) (visits m key i) =
      findLoop m key (m.cap - 1) fuel (visits m key (i + 1)) := by
  have hok := hw.capOk hcap
  obtain ⟨hempty, hkey⟩ := not_or.mp hstop
  obtain ⟨c, hc⟩ := hw.sized.slot (slot_lt hok.pos (m.hash key).toNat i)
  change m.arrays.ctrl[visits m key i]? = some c at hc
  have hnext : nextSlot (m.cap - 1) (visits m key i) = visits m key (i + 1) := nextSlot_eq hok _ _
  cases c with
  | empty => exact absurd hc hempty
  | tombstone => simp [findLoop, hc, hnext]
  | full =>
      obtain ⟨e, he⟩ := hw.sized.entry hc
      have hne : m.keyEq e.1 key = false := Bool.eq_false_iff.mpr fun heq => hkey ⟨e, he, heq⟩
      simp [findLoop, hc, (Arrays.entry_eq_some.mp he).2.1, hne, hnext]

/-- The round in which it ends. -/
theorem findLoop_stop {j : Nat} (hstop : Stops m key j) :
    ∃ r, (∀ fuel, findLoop m key (m.cap - 1) (fuel + 1) j = some r) ∧
      (r = none → m.arrays.Empty j) := by
  rcases hstop with hempty | ⟨e, he, heq⟩
  · have hc : m.arrays.ctrl[j]? = some .empty := hempty
    exact ⟨none, fun fuel => by simp [findLoop, hc], fun _ => hempty⟩
  · obtain ⟨hc, hk, -⟩ := Arrays.entry_eq_some.mp he
    exact ⟨some j, fun fuel => by simp [findLoop, hc, hk, heq], fun h => by cases h⟩

/-- The probe ends in the first slot in which it can. -/
theorem takes_first (hw : Wf m) (hcap : m.cap ≠ 0) (key : Bytes ks) :
    ∃ n < m.cap, ∃ r, Takes m key n r ∧ (∀ i < n, ¬ Stops m key (visits m key i)) ∧
      (r = none → m.arrays.Empty (visits m key n)) := by
  have hok := hw.capOk hcap
  obtain ⟨j, hj, hempty⟩ := hw.exists_empty hok.pos
  obtain ⟨n, hn, hstop, hskip⟩ :=
    exists_first (p := Stops m key) (m.hash key).toNat ⟨j, hj, .inl hempty⟩
  obtain ⟨r, hr, hnone⟩ := findLoop_stop hstop
  refine ⟨n, hn, r, fun fuel => ?_, hskip, hnone⟩
  have hjump : ∀ i < n, ∀ fuel, findLoop m key (m.cap - 1) (fuel + 1) (visits m key i) =
      findLoop m key (m.cap - 1) fuel (visits m key (i + 1)) :=
    fun i hi => findLoop_skip hw hcap (hskip i hi)
  rw [homeSlot_eq hok]
  split
  next hle =>
    have hiter := iterate_skip (findLoop m key (m.cap - 1)) (visits m key)
      (fun i hi => hjump i (Nat.lt_of_lt_of_le hi hle)) 0
    rw [Nat.zero_add] at hiter
    exact hiter
  next hgt =>
    obtain ⟨rest, rfl⟩ : ∃ rest, fuel = rest + 1 + n := ⟨fuel - 1 - n, by omega⟩
    exact (iterate_skip (findLoop m key (m.cap - 1)) (visits m key) hjump (rest + 1)).trans (hr rest)

/-! ## Counting the slots of a probe

A probe visits different slots until it stops, and goes on only over full slots and tombstones; that
bounds it from above. Towards the other side, every entry with the home slot of the key lies on its
probe path, in front of the empty slot that ends an unsuccessful probe.
-/

/-- In its first `cap` rounds a probe visits no slot twice. -/
theorem nodup_visits (m : Map ks vs) (key : Bytes ks) {n : Nat} (hn : n ≤ m.cap) :
    ((List.range n).map (visits m key)).Nodup := by
  refine List.Nodup.map_on ?_ List.nodup_range
  intro i hi j hj heq
  rw [List.mem_range] at hi hj
  have hmod : i ≡ j [MOD m.cap] := Nat.ModEq.add_left_cancel' (m.hash key).toNat heq
  rwa [Nat.ModEq, Nat.mod_eq_of_lt (by omega), Nat.mod_eq_of_lt (by omega)] at hmod

/-- The slots that are not empty. -/
theorem count_used (hw : Wf m) :
    (List.range m.cap).countP (fun j => m.arrays.ctrl[j]? ≠ some .empty) = m.len + m.tombstones := by
  have hcount := count_slots m.arrays.ctrl
  rw [← hw.len, ← hw.tombstones, count_eq_countP_range, hw.sized.ctrl] at hcount
  have hsplit := List.length_eq_countP_add_countP (l := List.range m.cap)
    (fun j => decide (m.arrays.ctrl[j]? = some .empty))
  rw [List.length_range] at hsplit
  have hneg : (List.range m.cap).countP (fun j => m.arrays.ctrl[j]? ≠ some .empty) =
      (List.range m.cap).countP fun j => ¬ decide (m.arrays.ctrl[j]? = some .empty) := by
    congr 1
    funext j
    simp
  omega

/-- A probe goes on for no more rounds than there are full slots and tombstones. -/
theorem rounds_le (hw : Wf m) {n : Nat} (hn : n < m.cap)
    (hskip : ∀ i < n, ¬ Stops m key (visits m key i)) : n ≤ m.len + m.tombstones := by
  have hsub : ((List.range n).map (visits m key)) ⊆
      (List.range m.cap).filter fun j => m.arrays.ctrl[j]? ≠ some .empty := by
    intro j hj
    obtain ⟨i, hi, rfl⟩ := List.mem_map.mp hj
    have hlt : visits m key i < m.cap := Nat.mod_lt _ (Nat.zero_lt_of_lt hn)
    have hused := (not_or.mp (hskip i (List.mem_range.mp hi))).1
    exact List.mem_filter.mpr ⟨List.mem_range.mpr hlt, decide_eq_true hused⟩
  have hle := (List.subperm_of_subset (nodup_visits m key (Nat.le_of_lt hn)) hsub).length_le
  rwa [List.length_map, List.length_range, ← List.countP_eq_length_filter, count_used hw] at hle

/-- Until it meets an empty slot, a probe walks past all entries that have its home slot. -/
theorem le_rounds (hw : Wf m) {n : Nat} (hend : m.arrays.Empty (visits m key n)) :
    m.arrays.entries.countP (fun e => (m.hash e.1).toNat % m.cap = (m.hash key).toNat % m.cap) ≤
      n := by
  have hsub : (List.range m.arrays.ctrl.length).filter (fun j => ((m.arrays.entry j).map fun e =>
      decide ((m.hash e.1).toNat % m.cap = (m.hash key).toNat % m.cap)).getD false) ⊆
        (List.range n).map (visits m key) := by
    intro j hj
    obtain ⟨-, hj⟩ := List.mem_filter.mp hj
    obtain ⟨e, he⟩ : ∃ e, m.arrays.entry j = some e := by
      cases hentry : m.arrays.entry j with
      | none => simp [hentry] at hj
      | some e => exact ⟨e, rfl⟩
    have hhome : (m.hash e.1).toNat % m.cap = (m.hash key).toNat % m.cap := by simpa [he] using hj
    have hused : ¬ m.arrays.Empty j := by
      rw [Arrays.Empty, (Arrays.entry_eq_some.mp he).1]
      simp
    -- the probes of the two keys are the same
    have hslot : ∀ i, slot m.cap (m.hash e.1).toNat i = visits m key i := fun i =>
      Nat.ModEq.add_right i hhome
    obtain ⟨i, hi, rfl⟩ := (hw.chained j e he).before hused ((hslot n).symm ▸ hend)
    exact List.mem_map.mpr ⟨i, List.mem_range.mpr hi, (hslot i).symm⟩
  have hle := (List.subperm_of_subset (List.nodup_range.filter _) hsub).length_le
  rwa [List.length_map, List.length_range, ← List.countP_eq_length_filter,
    ← List.countP_filterMap] at hle

end

/-- The hash function and the invariant, in every reachable state. -/
theorem run_hash {s : State ks vs} (hw : Wf s.map) (ops : List (Op ks vs)) :
    ∃ s', Machine.run step s ops = some s' ∧ Wf s'.map ∧ s'.map.hash = s.map.hash := by
  refine Machine.run_progress (I := fun _ (s' : State ks vs) => Wf s'.map ∧ s'.map.hash = s.map.hash)
    ⟨hw, rfl⟩ fun pre op post s₁ _ ⟨hw₁, hhash⟩ => ?_
  obtain ⟨r, m', a', hr, hw', htypes⟩ := exec_wf hw₁ s₁.alloc op
  exact ⟨⟨m', a', s₁.rets ++ [r]⟩, by simp [step, hr], hw', htypes.hash.trans hhash⟩

theorem homeSlot_mod {m : Map ks vs} (hok : CapOk m.cap) (key : Bytes ks) :
    homeSlot m (m.cap - 1) key = (m.hash key).toNat % m.cap := homeSlot_eq hok m key

/-- **What a lookup costs.** In every reachable map, whatever its hash function, the probe for any key
    ends; it goes on for no more rounds than there are entries and tombstones, and if it finds nothing
    for at least as many as there are entries with the home slot of the key. -/
theorem lookup_cost (keyAlign valueAlign : Nat) (hash : Option (Bytes ks → UInt64))
    (keyEq : Option (Bytes ks → Bytes ks → Bool)) (a : Alloc) (ops : List (Op ks vs)) :
    ∃ s, Machine.run step (start keyAlign valueAlign hash keyEq a) ops = some s ∧
      (s.map.cap ≠ 0 → ∀ key, ∃ n r, Takes s.map key n r ∧ findIndex s.map key = some r ∧
        n ≤ s.map.len + s.map.tombstones ∧
        (r = none → s.map.arrays.entries.countP (fun e =>
          homeSlot s.map (s.map.cap - 1) e.1 = homeSlot s.map (s.map.cap - 1) key) ≤ n)) := by
  obtain ⟨s, hrun, hw⟩ := run_wf (s := start keyAlign valueAlign hash keyEq a)
    (wf_newIn keyAlign valueAlign hash keyEq) ops
  refine ⟨s, hrun, fun hcap key => ?_⟩
  obtain ⟨n, hn, r, htakes, hskip, hend⟩ := takes_first hw hcap key
  refine ⟨n, r, htakes, ?_, rounds_le hw hn hskip, fun hr => ?_⟩
  · rw [findIndex, if_neg hcap]
    exact (htakes s.map.cap).trans (if_neg (Nat.not_le.mpr hn))
  · simp only [homeSlot_mod (hw.capOk hcap)]
    exact le_rounds hw (hend hr)

/-! ## The default hash

The rounds of `std_hash_bytes` are those of `CustLib.Lib.Digest`: exclusive or, then a product with an
odd prime. So its low bits depend on the low bits of the bytes only, and different start values never
lead to the same digest.
-/

def hashPrime : UInt64 := 1099511628211

theorem hashPrime_odd : hashPrime.toNat % 2 = 1 := by decide

theorem stdHashBytes_eq (key : Bytes ks) :
    stdHashBytes key = digest hashPrime 1469598103934665603 key.toList := rfl

/-- Two keys that differ in one byte. -/
theorem agree_set_iff {k : Nat} (hk : k ≤ 64) (key : Bytes ks) (i : Fin ks) (b : UInt8) :
    Agree k (stdHashBytes (key.set i b)).toNat (stdHashBytes key).toNat ↔
      Agree k b.toNat key[i].toNat := by
  have hset : ∀ c, stdHashBytes (key.set i c) = digest hashPrime 1469598103934665603
      (key.toList.take i ++ c :: key.toList.drop (i + 1)) := by
    intro c
    rw [stdHashBytes_eq, Vector.toList_set, List.set_eq_take_append_cons_drop, if_pos (by simp)]
  have hkey : key.set i key[i] = key := Vector.set_getElem_self i.isLt
  have hbyte := digest_byte_iff hk hashPrime_odd 1469598103934665603 (key.toList.take i) b key[i]
    (key.toList.drop (i + 1))
  rwa [← hset, ← hset, hkey] at hbyte

/-- Two keys whose bytes have the same low bits. -/
theorem agree_of_bytes {k : Nat} (hk : k ≤ 64) {key key' : Bytes ks}
    (hbytes : ∀ i : Fin ks, Agree k key[i].toNat key'[i].toNat) :
    Agree k (stdHashBytes key).toNat (stdHashBytes key').toNat := by
  refine digest_congr hk hashPrime_odd _ (List.forall₂_iff_get.mpr ⟨by simp, fun i hi _ => ?_⟩)
  simpa using hbytes ⟨i, by simpa using hi⟩

/-- **The default hash can be flooded.** In every reachable map with `std_hash_bytes`, a change of one
    byte of a key leaves its home slot where it was iff it leaves the byte where it was modulo the
    capacity. And a lookup that finds nothing walks past every entry whose key has, byte for byte,
    the same residues. -/
theorem flooded (keyAlign valueAlign : Nat) (keyEq : Option (Bytes ks → Bytes ks → Bool)) (a : Alloc)
    (ops : List (Op ks vs)) :
    ∃ s, Machine.run step (start keyAlign valueAlign none keyEq a) ops = some s ∧
      (s.map.cap ≠ 0 →
        (∀ key (i : Fin ks) (b : UInt8),
          homeSlot s.map (s.map.cap - 1) (key.set i b) = homeSlot s.map (s.map.cap - 1) key ↔
            b.toNat % s.map.cap = key[i].toNat % s.map.cap) ∧
        ∀ key, findIndex s.map key = some none → ∃ n, Takes s.map key n none ∧
          s.map.arrays.entries.countP (fun e =>
            ∀ i : Fin ks, e.1[i].toNat % s.map.cap = key[i].toNat % s.map.cap) ≤ n) := by
  obtain ⟨s, hrun, hw, hhash⟩ := run_hash (s := start keyAlign valueAlign none keyEq a)
    (wf_newIn keyAlign valueAlign none keyEq) ops
  have hhash : s.map.hash = stdHashBytes := hhash
  refine ⟨s, hrun, fun hcap => ⟨fun key i b => ?_, fun key hnone => ?_⟩⟩
  · have hok := hw.capOk hcap
    rw [homeSlot_mod hok, homeSlot_mod hok, hhash]
    obtain ⟨k, -, hk, hpow⟩ := hok
    rw [hpow]
    exact agree_set_iff (by omega) key i b
  · obtain ⟨n, hn, r, htakes, -, hend⟩ := takes_first hw hcap key
    have hr : findIndex s.map key = some r := by
      rw [findIndex, if_neg hcap]
      exact (htakes s.map.cap).trans (if_neg (Nat.not_le.mpr hn))
    obtain rfl : r = none := Option.some.inj (hr.symm.trans hnone)
    refine ⟨n, htakes, le_trans ?_ (le_rounds hw (hend rfl))⟩
    refine List.countP_mono_left fun e _ hbytes => ?_
    have hbytes : ∀ i : Fin ks, e.1[i].toNat % s.map.cap = key[i].toNat % s.map.cap :=
      of_decide_eq_true hbytes
    obtain ⟨k, -, hk, hpow⟩ := hw.capOk hcap
    rw [hpow] at hbytes ⊢
    rw [hhash]
    exact decide_eq_true (agree_of_bytes (by omega) hbytes)

/-- FNV-1a on 64 bits, which the comment at `std_hash_bytes` names. -/
def fnv1a (bytes : List UInt8) : UInt64 := digest hashPrime 14695981039346656037 bytes

/-- **The default hash is not FNV-1a.** The offset basis lacks its last digit, and no key makes up for
    that. -/
theorem stdHashBytes_ne_fnv1a (key : Bytes ks) : stdHashBytes key ≠ fnv1a key.toList :=
  digest_start_ne hashPrime_odd (by decide) key.toList

end CustLib.Hashmap
