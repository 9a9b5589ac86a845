import Mathlib.Algebra.BigOperators.Group.Finset.Basic
import Mathlib.Algebra.Order.BigOperators.Group.Finset
import Mathlib.Algebra.Order.Group.Unbundled.Int
import Mathlib.Algebra.Order.Group.Abs
import Mathlib.Algebra.Order.Ring.Abs
import Mathlib.Tactic.Linarith

/-!
# Signed sums over the bits of a number

A number read bit by bit, every bit a step up (1) or down (0), and bit `b`
weighted by `c b`. The weights need not be powers of two for the sum to grow with
the number: it is enough that each weight dominates the lower ones together
(`bitSum_mono`), so that a carry never costs more than it brings.
-/

namespace DcnnFpga.Lib

/-- Bit `b` of a number, as a step. -/
def bitStep (x b : Nat) : Int := if x.testBit b then 1 else -1

/-- The weighted steps of the low `n` bits. -/
def bitSum (c : Nat → Int) (n x : Nat) : Int := ∑ b ∈ Finset.range n, c b * bitStep x b

theorem bitSum_succ (c : Nat → Int) (n x : Nat) :
    bitSum c (n + 1) x = bitSum c n x + c n * bitStep x n := Finset.sum_range_succ _ n

theorem bitStep_abs (x b : Nat) : |bitStep x b| = 1 := by
  unfold bitStep
  split <;> rfl

/-- No sum exceeds the sum of its weights. -/
theorem bitSum_abs_le {c : Nat → Int} {n : Nat} (hc : ∀ b, b < n → 0 ≤ c b) (x : Nat) :
    |bitSum c n x| ≤ ∑ b ∈ Finset.range n, c b := by
  refine (Finset.abs_sum_le_sum_abs _ _).trans (Finset.sum_le_sum fun b hb => ?_)
  rw [abs_mul, bitStep_abs, mul_one, abs_of_nonneg (hc b (Finset.mem_range.mp hb))]

/-- Under dominating weights the sum is monotone in the low bits. -/
theorem bitSum_mono {c : Nat → Int} {n : Nat} (hc : ∀ b, b < n → 0 ≤ c b)
    (hdom : ∀ k, k < n → ∑ b ∈ Finset.range k, c b ≤ c k) {x y : Nat}
    (h : x % 2 ^ n ≤ y % 2 ^ n) : bitSum c n x ≤ bitSum c n y := by
  induction n with
  | zero => exact le_of_eq rfl
  | succ n ih =>
    have hpos := hc n (Nat.lt_succ_self n)
    have ih' := ih (fun b hb => hc b (Nat.lt_succ_of_lt hb))
      fun k hk => hdom k (Nat.lt_succ_of_lt hk)
    rw [Nat.mod_pow_succ, Nat.mod_pow_succ, ← Nat.toNat_testBit, ← Nat.toNat_testBit] at h
    have hxlt := Nat.mod_lt x (Nat.two_pow_pos n)
    have hylt := Nat.mod_lt y (Nat.two_pow_pos n)
    rw [bitSum_succ, bitSum_succ]
    cases hx : x.testBit n <;> cases hy : y.testBit n <;> rw [hx, hy] at h
    · have hlow := ih' (by simpa using h)
      rw [bitStep, bitStep, hx, hy]
      linarith
    · -- the carry: all lower weights together are not more than this one
      have hbx := abs_le.mp (bitSum_abs_le (fun b hb => hc b (Nat.lt_succ_of_lt hb)) x)
      have hby := abs_le.mp (bitSum_abs_le (fun b hb => hc b (Nat.lt_succ_of_lt hb)) y)
      have hd := hdom n (Nat.lt_succ_self n)
      rw [bitStep, bitStep, hx, hy, if_neg Bool.false_ne_true, if_pos rfl]
      linarith
    · simp only [Bool.toNat_true, Bool.toNat_false, Nat.mul_one, Nat.mul_zero] at h
      omega
    · have hlow := ih' (by simpa using h)
      rw [bitStep, bitStep, hx, hy]
      linarith

end DcnnFpga.Lib
