import Mathlib.Data.List.Forall2
import Mathlib.Data.Nat.Bitwise
import Mathlib.Data.Nat.ModEq
import Mathlib.Data.Nat.Prime.Basic

/-!
# Digests by exclusive or and a product

A digest of a byte sequence that takes each byte in by an exclusive or and then multiplies by an odd
number, on 64 bits. Neither operation moves anything from a high bit to a low one, and both can be
undone. So the low `k` bits of the digest are determined by the low `k` bits of every byte
(`digest_congr`), and for a single byte or for the start value by nothing less (`digest_byte_iff`,
`digest_start_iff`).
-/

namespace CustLib.Digest

/-! ## Rounds

One round takes a byte in. The digest of a sequence is the fold of its rounds over the start value.
-/

def mix (prime h : UInt64) (b : UInt8) : UInt64 := (h ^^^ b.toUInt64) * prime

def digest (prime start : UInt64) (bytes : List UInt8) : UInt64 := bytes.foldl (mix prime) start

/-- The low `k` bits are the same. -/
def Agree (k m n : Nat) : Prop := m ≡ n [MOD 2 ^ k]

/-! ## Low bits

An exclusive or works bit by bit, and a product modulo a power of two has low bits that depend on low
bits. An odd factor can be divided out again, which gives the converse.
-/

theorem agree_xor {k m m' n n' : Nat} (hm : Agree k m m') (hn : Agree k n n') :
    Agree k (m ^^^ n) (m' ^^^ n') := by
  unfold Agree Nat.ModEq at *
  rw [Nat.xor_mod_two_pow, Nat.xor_mod_two_pow, hm, hn]

theorem agree_xor_right_iff {k m m' : Nat} (n : Nat) :
    Agree k (m ^^^ n) (m' ^^^ n) ↔ Agree k m m' := by
  refine ⟨fun h => ?_, fun h => agree_xor h rfl⟩
  have := agree_xor h (Nat.ModEq.refl n : Agree k n n)
  rwa [Nat.xor_assoc, Nat.xor_assoc, Nat.xor_self, Nat.xor_zero, Nat.xor_zero] at this

theorem agree_xor_left_iff {k n n' : Nat} (m : Nat) :
    Agree k (m ^^^ n) (m ^^^ n') ↔ Agree k n n' := by
  rw [Nat.xor_comm m, Nat.xor_comm m]
  exact agree_xor_right_iff m

/-- A wrapped product by an odd number keeps the low bits apart. -/
theorem agree_mul_iff {k : Nat} (hk : k ≤ 64) {prime : UInt64} (hodd : prime.toNat % 2 = 1)
    (x y : UInt64) :
    Agree k (x * prime).toNat (y * prime).toNat ↔ Agree k x.toNat y.toNat := by
  have hwrap : ∀ z : UInt64, Agree k (z * prime).toNat (z.toNat * prime.toNat) := by
    intro z
    rw [Agree, Nat.ModEq, UInt64.toNat_mul, Nat.mod_mod_of_dvd _ (Nat.pow_dvd_pow 2 hk)]
  have hcoprime : Nat.gcd (2 ^ k) prime.toNat = 1 :=
    Nat.Coprime.pow_left k ((Nat.coprime_two_left).mpr (Nat.odd_iff.mpr hodd))
  constructor
  · intro h
    exact Nat.ModEq.cancel_right_of_coprime hcoprime ((hwrap x).symm.trans (h.trans (hwrap y)))
  · intro h
    exact (hwrap x).trans ((Nat.ModEq.mul_right _ h).trans (hwrap y).symm)

section

variable {k : Nat} {prime : UInt64}

theorem mix_iff (hk : k ≤ 64) (hodd : prime.toNat % 2 = 1) (h h' : UInt64) (b b' : UInt8) :
    Agree k (mix prime h b).toNat (mix prime h' b').toNat ↔
      Agree k (h.toNat ^^^ b.toNat) (h'.toNat ^^^ b'.toNat) := by
  rw [mix, mix, agree_mul_iff hk hodd, UInt64.toNat_xor, UInt64.toNat_xor, UInt8.toNat_toUInt64,
    UInt8.toNat_toUInt64]

/-! ## Digests

By induction over the bytes. What a round takes in cannot be cancelled by later rounds with the same
bytes.
-/

/-- The low bits of the start value are not lost. -/
theorem digest_start_iff (hk : k ≤ 64) (hodd : prime.toNat % 2 = 1) (h h' : UInt64)
    (bytes : List UInt8) :
    Agree k (digest prime h bytes).toNat (digest prime h' bytes).toNat ↔
      Agree k h.toNat h'.toNat := by
  induction bytes generalizing h h' with
  | nil => exact Iff.rfl
  | cons b bytes ih =>
      calc Agree k (digest prime h (b :: bytes)).toNat (digest prime h' (b :: bytes)).toNat
          ↔ Agree k (mix prime h b).toNat (mix prime h' b).toNat := ih _ _
        _ ↔ Agree k (h.toNat ^^^ b.toNat) (h'.toNat ^^^ b.toNat) := mix_iff hk hodd h h' b b
        _ ↔ Agree k h.toNat h'.toNat := agree_xor_right_iff _

/-- Nor are those of any byte. -/
theorem digest_byte_iff (hk : k ≤ 64) (hodd : prime.toNat % 2 = 1) (h : UInt64)
    (front : List UInt8) (b b' : UInt8) (rest : List UInt8) :
    Agree k (digest prime h (front ++ b :: rest)).toNat
        (digest prime h (front ++ b' :: rest)).toNat ↔ Agree k b.toNat b'.toNat := by
  have hsplit : ∀ c, digest prime h (front ++ c :: rest) =
      digest prime (mix prime (digest prime h front) c) rest := by
    intro c
    rw [digest, List.foldl_append]
    rfl
  rw [hsplit, hsplit, digest_start_iff hk hodd, mix_iff hk hodd]
  exact agree_xor_left_iff _

/-- The low bits of a digest depend on nothing but the low bits of the bytes. -/
theorem digest_congr (hk : k ≤ 64) (hodd : prime.toNat % 2 = 1) (h : UInt64)
    {bytes bytes' : List UInt8}
    (hbytes : List.Forall₂ (fun b b' => Agree k b.toNat b'.toNat) bytes bytes') :
    Agree k (digest prime h bytes).toNat (digest prime h bytes').toNat := by
  refine List.rel_foldl (P := fun x y : UInt64 => Agree k x.toNat y.toNat) ?_ rfl hbytes
  intro x y hxy b b' hb
  exact (mix_iff hk hodd x y b b').mpr (agree_xor hxy hb)

/-- Different start values give different digests of everything. -/
theorem digest_start_ne (hodd : prime.toNat % 2 = 1) {h h' : UInt64} (hne : h ≠ h')
    (bytes : List UInt8) : digest prime h bytes ≠ digest prime h' bytes := by
  intro heq
  have hagree := (digest_start_iff (Nat.le_refl 64) hodd h h' bytes).mp (heq ▸ rfl)
  rw [Agree, Nat.ModEq, Nat.mod_eq_of_lt h.toNat_lt, Nat.mod_eq_of_lt h'.toNat_lt] at hagree
  exact hne (UInt64.toNat_inj.mp hagree)

end

end CustLib.Digest
