import Qihse.Bytes.Codec

/-!
# Byte ranges inside a word

A word of `n` bytes is checked for bytes outside a range by one subtraction and one addition: the
lowest byte outside of the range sets its own top bit in one of the two, since nothing is borrowed
or carried from the bytes below it.
-/

namespace Packed

open Bytes

/-- The word all of whose bytes are `k`. -/
def repeated (k : ℕ) : ℕ → ℕ
  | 0 => 0
  | n + 1 => k + 256 * repeated k n

/-- The top bits of the bytes of `x - lo` and `x + (127 - hi)`, in words of `n` bytes. -/
def outside (lo hi n x : ℕ) : ℕ :=
  ((x + (256 ^ n - repeated lo n)) % 256 ^ n ||| (x + repeated (127 - hi) n) % 256 ^ n) &&&
    repeated 128 n

lemma repeated_lt {k : ℕ} (hk : k < 256) (n : ℕ) : repeated k n < 256 ^ n := by
  induction n with
  | zero => exact Nat.one_pos
  | succ =>
    rw [repeated, pow_succ]
    omega

/-- Bytes are combined one by one. -/
lemma lor_land_split {x y z : ℕ} (x' y' z' : ℕ) (hx : x < 2 ^ 8) (hy : y < 2 ^ 8)
    (hz : z < 2 ^ 8) : ((x + 256 * x') ||| (y + 256 * y')) &&& (z + 256 * z') =
      ((x ||| y) &&& z) + 256 * ((x' ||| y') &&& z') := by
  have hlow : ((x ||| y) &&& z) < 2 ^ 8 := Nat.and_lt_two_pow _ hz
  have hword (a a' : ℕ) : a + 256 * a' = 2 ^ 8 * a' + a := by omega
  apply Nat.eq_of_testBit_eq
  intro i
  simp only [hword, Nat.testBit_and, Nat.testBit_or, Nat.testBit_two_pow_mul_add _ hx,
    Nat.testBit_two_pow_mul_add _ hy, Nat.testBit_two_pow_mul_add _ hz,
    Nat.testBit_two_pow_mul_add _ hlow]
  split_ifs <;> rfl

lemma land_128_eq_zero_iff {x : ℕ} (hx : x < 256) : x &&& 128 = 0 ↔ x < 128 := by
  have hall : ∀ x : Fin 256, x.val &&& 128 = 0 ↔ x.val < 128 := by decide +kernel
  exact hall ⟨x, hx⟩

/-- Only words of bytes in the range pass. -/
lemma outside_eq_zero_iff {lo hi : ℕ} (hlo : lo ≤ hi) (hhi : hi < 128) (bs : List UInt8) :
    outside lo hi bs.length (ofLe bs) = 0 ↔ ∀ b ∈ bs, lo ≤ b.toNat ∧ b.toNat ≤ hi := by
  induction bs with
  | nil => simp [outside, repeated, ofLe]
  | cons b bs ih =>
    have hb := b.toNat_lt
    have hr := ofLe_lt bs
    have hlt := repeated_lt (by omega : lo < 256) bs.length
    have hlt' := repeated_lt (by omega : 127 - hi < 256) bs.length
    have hpow : 256 ^ (bs.length + 1) = 256 * 256 ^ bs.length := by rw [pow_succ, mul_comm]
    rw [outside] at ih
    rw [outside, List.length_cons, ofLe, repeated, repeated, repeated, hpow]
    generalize 256 ^ bs.length = w at *
    generalize repeated lo bs.length = low at *
    generalize repeated (127 - hi) bs.length = high at *
    generalize ofLe bs = r at *
    -- each of the two words is a byte and the rest
    have hmod (a : ℕ) : a % 256 < 2 ^ 8 := Nat.mod_lt _ (by decide)
    rw [Nat.mod_mul, Nat.mod_mul, lor_land_split _ _ _ (hmod _) (hmod _)
      (by decide : 128 < 2 ^ 8)]
    have hsub : (b.toNat + 256 * r + (256 * w - (lo + 256 * low))) % 256 =
        (b.toNat + (256 - lo)) % 256 := by omega
    have hadd : (b.toNat + 256 * r + (127 - hi + 256 * high)) % 256 =
        (b.toNat + (127 - hi)) % 256 := by omega
    have hbyte : (((b.toNat + (256 - lo)) % 256 ||| (b.toNat + (127 - hi)) % 256) &&& 128) = 0 ↔
        lo ≤ b.toNat ∧ b.toNat ≤ hi := by
      rw [Nat.and_or_distrib_right, Nat.or_eq_zero_iff, land_128_eq_zero_iff (by omega),
        land_128_eq_zero_iff (by omega)]
      omega
    rw [hsub, hadd, Nat.add_eq_zero_iff, hbyte, List.forall_mem_cons]
    refine and_congr_right fun hin => ?_
    -- a byte in the range borrows and carries nothing
    have hrest : (b.toNat + 256 * r + (256 * w - (lo + 256 * low))) / 256 = r + (w - low) := by
      omega
    have hrest' : (b.toNat + 256 * r + (127 - hi + 256 * high)) / 256 = r + high := by omega
    rw [hrest, hrest', ← ih]
    omega

end Packed
