import DcnnFpga.Lib.Bits
import DcnnFpga.Rtl.Accuracy

/-!
# A pass grows with its data byte

Every bit of the data byte has a sampling count of its own, which depends on the
length of the pass. Raising the byte across a carry swaps many low bits for one
high bit, so the count of a pass grows with the byte only because each bit is
sampled at least as often as all lower bits together (`hits_dominate`).
-/

namespace DcnnFpga.Rtl

open Lib NumTransformer

/-- Bit by bit, whatever the length of the pass. -/
theorem hits_dominate : ∀ n ≤ 128, ∀ k < 8,
    ∑ b ∈ Finset.range k, (hits b (max 1 n) : Int) ≤ hits k (max 1 n) := by
  decide +kernel

/-- Offset binary keeps the order of the bytes. -/
theorem toNat_oXNumTran (x : BitVec 8) : ((oXNumTran x).toNat : Int) = x.toInt + 128 := by
  revert x
  decide

/-- A pass is a signed sum over the bits of the offset-binary byte. -/
theorem g_eq_bitSum (x w : BitVec 8) :
    g x w = wtSign w * bitSum (fun b => hits b (passLen w)) 8 (oXNumTran x).toNat :=
  g_eq_hits x w

/-- The bits of a larger byte have the larger sum. -/
theorem bitSum_hits_mono {x y : BitVec 8} (w : BitVec 8) (h : x.toInt ≤ y.toInt) :
    bitSum (fun b => hits b (passLen w)) 8 (oXNumTran x).toNat ≤
      bitSum (fun b => hits b (passLen w)) 8 (oXNumTran y).toNat := by
  have hx := toNat_oXNumTran x
  have hy := toNat_oXNumTran y
  have hle : (oXNumTran x).toNat ≤ (oXNumTran y).toNat := by omega
  refine bitSum_mono (fun b _ => Int.natCast_nonneg _)
    (fun k hk => hits_dominate (mag w) (mag_le w) k hk) ?_
  rwa [Nat.mod_eq_of_lt (oXNumTran x).isLt, Nat.mod_eq_of_lt (oXNumTran y).isLt]

/-- With a weight that is not negative a larger byte counts more. -/
theorem g_mono {x y w : BitVec 8} (hw : 0 ≤ w.toInt) (h : x.toInt ≤ y.toInt) :
    g x w ≤ g y w := by
  have hsign : wtSign w = 1 := by
    have hmsb : w.msb = false := by
      rw [BitVec.msb_eq_toInt]
      exact decide_eq_false (by omega)
    rw [wtSign, hmsb, if_neg Bool.false_ne_true]
  rw [g_eq_bitSum, g_eq_bitSum, hsign, one_mul, one_mul]
  exact bitSum_hits_mono w h

/-- With a negative weight it counts less. -/
theorem g_antitone {x y w : BitVec 8} (hw : w.toInt < 0) (h : x.toInt ≤ y.toInt) :
    g y w ≤ g x w := by
  have hsign : wtSign w = -1 := by
    have hmsb : w.msb = true := by
      rw [BitVec.msb_eq_toInt]
      exact decide_eq_true hw
    rw [wtSign, hmsb, if_pos rfl]
  have hsum := bitSum_hits_mono w h
  rw [g_eq_bitSum, g_eq_bitSum, hsign]
  linarith

end DcnnFpga.Rtl
