import Mathlib.Data.Nat.Bitwise
import Mathlib.Algebra.Order.Ring.Nat

/-!
# `std::types`: `usize` arithmetic

A `usize` is a number below `2 ^ 64`. The operations are the machine's: sums, differences and
products wrap. Bytes behind a pointer are vectors of `UInt8`.
-/

namespace CustLib

/-! ## The operations

One for each operator that the containers apply to a `usize`: `wadd`, `wsub` and `wmul` are `+`, `-` and
`*`, and `wnot` is `~`. All of them are total; where the source relies on the exact value, a lemma below
or a bound in the context says that nothing wraps.
-/

def wadd (a b : Nat) : Nat := (a + b) % 2 ^ 64

def wsub (a b : Nat) : Nat := (a + 2 ^ 64 - b) % 2 ^ 64

def wmul (a b : Nat) : Nat := (a * b) % 2 ^ 64

def wnot (a : Nat) : Nat := 2 ^ 64 - (a + 1)

/-- `n` bytes of memory. -/
abbrev Bytes (n : Nat) := Vector UInt8 n

/-! ## Where nothing wraps

Inside the range the operations are those of the natural numbers. The masks of `hashmap.c` and `alloc.c`
come last: `x & (c - 1)` is a remainder and `x & ~(c - 1)` rounds down, when `c` is a power of two.
-/

theorem wadd_eq {a b : Nat} (h : a + b < 2 ^ 64) : wadd a b = a + b := Nat.mod_eq_of_lt h

theorem wmul_eq {a b : Nat} (h : a * b < 2 ^ 64) : wmul a b = a * b := Nat.mod_eq_of_lt h

theorem wsub_eq {a b : Nat} (hb : b ≤ a) (ha : a < 2 ^ 64) : wsub a b = a - b := by
  have h : a + 2 ^ 64 - b = (a - b) + 2 ^ 64 := by omega
  rw [wsub, h, Nat.add_mod_right, Nat.mod_eq_of_lt (by omega)]

/-- Masking with a power of two less one is reduction modulo that power. -/
theorem and_mask (x k : Nat) : x &&& (2 ^ k - 1) = x % 2 ^ k := Nat.and_two_pow_sub_one_eq_mod x k

/-- Masking with the complement rounds down to a multiple of the power. -/
theorem and_wnot_mask {x k : Nat} (hx : x < 2 ^ 64) (hk : k ≤ 64) :
    x &&& wnot (2 ^ k - 1) = x / 2 ^ k * 2 ^ k := by
  have hmask : 2 ^ k - 1 < 2 ^ 64 := by
    have := Nat.pow_le_pow_right (n := 2) (by decide) hk
    have := Nat.two_pow_pos k
    omega
  apply Nat.eq_of_testBit_eq
  intro i
  rw [Nat.testBit_and, wnot, Nat.testBit_two_pow_sub_succ hmask, Nat.testBit_two_pow_sub_one,
    Nat.testBit_mul_two_pow, Nat.testBit_div_two_pow]
  by_cases hi : i < 64
  · by_cases hki : k ≤ i
    · simp [hi, hki, Nat.not_lt.mpr hki]
    · simp [hki, Nat.not_le.mp hki]
  · have hpow : 2 ^ 64 ≤ 2 ^ i := Nat.pow_le_pow_right (by decide) (Nat.not_lt.mp hi)
    have hbit : x.testBit i = false := Nat.testBit_lt_two_pow (Nat.lt_of_lt_of_le hx hpow)
    by_cases hki : k ≤ i
    · simp [hbit, hki]
    · simp [hbit, hki]

/-- The wrap of the sum is absorbed by the mask. -/
theorem wadd_and_mask (a b : Nat) {k : Nat} (hk : k ≤ 64) :
    wadd a b &&& (2 ^ k - 1) = (a + b) % 2 ^ k := by
  rw [and_mask, wadd, Nat.mod_mod_of_dvd _ (Nat.pow_dvd_pow 2 hk)]

end CustLib
