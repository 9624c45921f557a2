import Mathlib.Algebra.Order.Ring.Nat
import Mathlib.Algebra.Group.Nat.Defs

/-!
# Numbers in memory

The little-endian bytes of a number, and the number that bytes stand for. Reading what was written
gives the number back, if there was room for it (`ofLe_toLe`).
-/

namespace CustLib.LittleEndian

def ofLe : List UInt8 → Nat
  | []      => 0
  | b :: bs => b.toNat + 256 * ofLe bs

/-- The low `n` bytes of a number. -/
def leBytes : Nat → Nat → List UInt8
  | 0, _     => []
  | n + 1, x => UInt8.ofNat x :: leBytes n (x / 256)

theorem length_leBytes (n x : Nat) : (leBytes n x).length = n := by
  induction n generalizing x with
  | zero => rfl
  | succ n ih => rw [leBytes, List.length_cons, ih]

theorem ofLe_leBytes (n x : Nat) : ofLe (leBytes n x) = x % 256 ^ n := by
  induction n generalizing x with
  | zero => rw [Nat.pow_zero, Nat.mod_one, leBytes, ofLe]
  | succ n ih =>
      have hbyte : (UInt8.ofNat x).toNat = x % 256 := by simp
      rw [leBytes, ofLe, ih, hbyte, Nat.pow_succ', Nat.mod_mul]

def toLe (n x : Nat) : Vector UInt8 n := ⟨(leBytes n x).toArray, length_leBytes n x⟩

theorem toList_toLe (n x : Nat) : (toLe n x).toList = leBytes n x := rfl

/-- **Round trip.** -/
theorem ofLe_toLe {n x : Nat} (h : x < 256 ^ n) : ofLe (toLe n x).toList = x := by
  rw [toList_toLe, ofLe_leBytes, Nat.mod_eq_of_lt h]

end CustLib.LittleEndian
