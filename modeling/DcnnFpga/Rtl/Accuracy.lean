import DcnnFpga.Rtl.Pass
import Mathlib.Data.Int.CardIntervalMod
import Mathlib.Algebra.BigOperators.Ring.Finset
import Mathlib.Algebra.Order.BigOperators.Group.Finset
import Mathlib.Algebra.Order.Ring.Abs
import Mathlib.Tactic.Ring
import Mathlib.Tactic.Linarith

/-!
# How far a pass is from the product

A pass of `n` clocks is a signed count of bits of the data byte. Clock `j`
samples the bit that the number of trailing ones of the selector counter points
at, a ruler sequence: bit `7 - k` comes up at the counters `2 ^ k - 1` modulo
`2 ^ (k + 1)`. So in a pass of `n` clocks bit `b` is sampled `hits b n` times
(`count_passSel`), and the count is `∑ b, hits b n * rail x b` up to the sign of
the weight (`streak_eq_sum`), where an exact product would weigh bit `b` by
`n * 2 ^ b / 256`. The eight rounding errors together stay below four units
(`hits_error`), hence `g_accurate`.
-/

namespace DcnnFpga.Rtl

open NumTransformer

/-- Bit `b` of the offset-binary data byte, as the step it makes. -/
def rail (x : BitVec 8) (b : Nat) : Int := if mux4to1 b (oXNumTran x) then 1 else -1

/-- The sign a pass counts with. -/
def wtSign (w : BitVec 8) : Int := if w.msb then -1 else 1

/-- How often bit `b` is sampled in a pass of `n` clocks, `1 ≤ n ≤ 128`. The
clock before the selector runs samples bit 7 once more, and bit 0 would come up
only in clock 128. -/
def hits (b n : Nat) : Nat :=
  if b = 0 then 0
  else (n - 1) / 2 ^ (8 - b) + (if 2 ^ (7 - b) - 1 < (n - 1) % 2 ^ (8 - b) then 1 else 0) +
    if b = 7 then 1 else 0

theorem rail_abs (x : BitVec 8) (b : Nat) : |rail x b| = 1 := by
  unfold rail
  split <;> rfl

theorem wtSign_abs (w : BitVec 8) : |wtSign w| = 1 := by
  unfold wtSign
  split <;> rfl

theorem passSel_lt (j : Nat) : passSel j < 8 := by
  unfold passSel FSM16State.sel
  split_ifs <;> decide

/-- A sample is a rail with the sign of the weight. -/
theorem sample_eq (x w : BitVec 8) (j : Nat) :
    sample x w j = wtSign w * rail x (passSel j) := by
  unfold sample wtSign rail
  cases w.msb <;> cases mux4to1 (passSel j) (oXNumTran x) <;> rfl

/-- The data byte is the sum of its rails, up to the half unit of offset binary. -/
theorem two_mul_toInt (x : BitVec 8) :
    2 * x.toInt + 1 = ∑ b ∈ Finset.range 8, 2 ^ b * rail x b := by
  revert x
  decide

/-- The weight byte is its sign times its magnitude. -/
theorem toInt_eq_wtSign (w : BitVec 8) : w.toInt = wtSign w * mag w := by
  revert w
  decide

/-! ## Counting the samples -/

/-- A pass is the sum of the rails, each as often as its bit is selected. -/
theorem streak_eq_sum (x w : BitVec 8) (n : Nat) :
    streak x w n =
      wtSign w * ∑ b ∈ Finset.range 8, (Nat.count (passSel · = b) n : Int) * rail x b := by
  induction n with
  | zero => simp [streak]
  | succ n ih =>
    -- clock `n` adds the rail of the one bit it selects
    have hone : ∑ b ∈ Finset.range 8, (if passSel n = b then (1 : Int) else 0) * rail x b
        = rail x (passSel n) := by
      rw [Finset.sum_eq_single_of_mem (passSel n) (Finset.mem_range.mpr (passSel_lt n))]
      · rw [if_pos rfl, one_mul]
      · intro b _ hb
        rw [if_neg (Ne.symm hb), zero_mul]
    rw [streak, ih, sample_eq, ← hone, ← mul_add, ← Finset.sum_add_distrib]
    refine congrArg (wtSign w * ·) (Finset.sum_congr rfl fun b _ => ?_)
    rw [Nat.count_succ, Nat.cast_add, add_mul]
    split <;> rfl

/-- The selector is the ruler sequence of its counter; bit 0 would come up only
at 127. -/
theorem sel_eq_iff : ∀ j < 127, ∀ b < 8, FSM16State.sel (BitVec.ofNat 8 j) = b ↔
    b ≠ 0 ∧ j % 2 ^ (8 - b) = 2 ^ (7 - b) - 1 := by
  decide +kernel

/-- The number of samples of each bit. The first clock is apart: it samples bit 7
before the selector has started. -/
theorem count_passSel {n b : Nat} (hn : 1 ≤ n) (hn' : n ≤ 128) (hb : b < 8) :
    Nat.count (passSel · = b) n = hits b n := by
  obtain ⟨m, rfl⟩ := Nat.exists_eq_add_of_le' hn
  have hm : m ≤ 127 := by omega
  have hfirst : (if passSel 0 = b then 1 else 0) = if b = 7 then 1 else 0 := by
    show (if 7 = b then 1 else 0) = _
    simp only [eq_comm]
  rw [Nat.count_succ', hfirst, hits, Nat.add_sub_cancel]
  show Nat.count (fun j => FSM16State.sel (BitVec.ofNat 8 j) = b) m + _ = _
  by_cases h0 : b = 0
  · subst h0
    rw [if_pos rfl]
    simp only [Nat.count_eq_card_filter_range]
    rw [Finset.filter_eq_empty_iff.mpr]
    · rfl
    · intro j hj hsel
      have hj' := Finset.mem_range.mp hj
      exact ((sel_eq_iff j (by omega) 0 hb).mp hsel).1 rfl
  · have hr : 0 < 2 ^ (8 - b) := Nat.two_pow_pos _
    have hv : (2 ^ (7 - b) - 1) % 2 ^ (8 - b) = 2 ^ (7 - b) - 1 := by
      rw [show 8 - b = (7 - b) + 1 by omega, pow_succ]
      exact Nat.mod_eq_of_lt (by have := Nat.two_pow_pos (7 - b); omega)
    -- what is left is a count of one residue class below `m`
    have hruler : Nat.count (fun j => FSM16State.sel (BitVec.ofNat 8 j) = b) m
        = Nat.count (· ≡ 2 ^ (7 - b) - 1 [MOD 2 ^ (8 - b)]) m := by
      simp only [Nat.count_eq_card_filter_range]
      refine congrArg Finset.card (Finset.filter_congr fun j hj => ?_)
      have hj' := Finset.mem_range.mp hj
      rw [sel_eq_iff j (by omega) b hb, and_iff_right h0, Nat.ModEq, hv]
    rw [hruler, Nat.count_modEq_card m hr, hv, if_neg h0]

/-- A pass is the sum of the rails, each as often as its bit comes up. -/
theorem g_eq_hits (x w : BitVec 8) :
    g x w = wtSign w * ∑ b ∈ Finset.range 8, (hits b (passLen w) : Int) * rail x b := by
  rw [g_eq_streak, streak_eq_sum]
  refine congrArg (wtSign w * ·) (Finset.sum_congr rfl fun b hb => ?_)
  rw [count_passSel (passLen_pos w) (passLen_le w) (Finset.mem_range.mp hb)]

/-! ## The error -/

/-- The eight rounding errors, in 256ths of a unit, and the half unit of offset
binary: together at most four units for every weight magnitude. -/
theorem hits_error {n : Nat} (hn : n ≤ 128) :
    ∑ b ∈ Finset.range 8, |256 * (hits b (max 1 n) : Int) - n * 2 ^ b| + n ≤ 1024 := by
  revert n
  decide +kernel

/-- **A pass is within four units of the fixed-point product** `x * w / 128`. -/
theorem g_accurate (x w : BitVec 8) : |128 * g x w - x.toInt * w.toInt| ≤ 128 * 4 := by
  set n : Int := (mag w : Int) with hn
  set c : Nat → Int := fun b => (hits b (passLen w) : Int) with hc
  have hg : g x w = wtSign w * ∑ b ∈ Finset.range 8, c b * rail x b := g_eq_hits x w
  -- twice the error, so that the half unit of offset binary is whole
  have hdiff : 2 * (128 * g x w - x.toInt * w.toInt)
      = wtSign w * (∑ b ∈ Finset.range 8, (256 * c b - n * 2 ^ b) * rail x b + n) := by
    have hx := two_mul_toInt x
    have hsplit : ∑ b ∈ Finset.range 8, (256 * c b - n * 2 ^ b) * rail x b
        = 256 * ∑ b ∈ Finset.range 8, c b * rail x b - n * (2 * x.toInt + 1) := by
      rw [hx, Finset.mul_sum, Finset.mul_sum, ← Finset.sum_sub_distrib]
      exact Finset.sum_congr rfl fun b _ => by ring
    rw [hsplit, hg, toInt_eq_wtSign w]
    ring
  have hsum : |∑ b ∈ Finset.range 8, (256 * c b - n * 2 ^ b) * rail x b|
      ≤ ∑ b ∈ Finset.range 8, |256 * c b - n * 2 ^ b| := by
    refine (Finset.abs_sum_le_sum_abs _ _).trans (Finset.sum_le_sum fun b _ => ?_)
    rw [abs_mul, rail_abs, mul_one]
  have herr : ∑ b ∈ Finset.range 8, |256 * c b - n * 2 ^ b| + n ≤ 1024 :=
    hits_error (mag_le w)
  have htwo : |2 * (128 * g x w - x.toInt * w.toInt)| ≤ 1024 := by
    rw [hdiff, abs_mul, wtSign_abs, one_mul]
    refine (abs_add_le _ _).trans ?_
    rw [abs_of_nonneg (show (0 : Int) ≤ n from Int.natCast_nonneg _)]
    linarith
  rw [abs_mul, abs_two] at htwo
  linarith

end DcnnFpga.Rtl
