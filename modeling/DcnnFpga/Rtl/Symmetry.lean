import DcnnFpga.Rtl.Accuracy

/-!
# A pass rounds evenly

The complement of a data byte turns every bit around, and a negated weight the sign
of the count, so the count of a pass is odd in both. Two weights are left out, 0 and
-128: they are their own negatives.
-/

namespace DcnnFpga.Rtl

/-- Complementing a byte turns every rail around. -/
theorem rail_not : ∀ (x : BitVec 8) (b : Nat), b < 8 → rail (~~~x) b = -rail x b := by
  decide +kernel

/-- The complement of the data byte, `-x - 1`, is counted the other way. -/
theorem g_not (x w : BitVec 8) : g (~~~x) w = -g x w := by
  rw [g_eq_hits, g_eq_hits, ← mul_neg, ← Finset.sum_neg_distrib]
  refine congrArg (wtSign w * ·) (Finset.sum_congr rfl fun b hb => ?_)
  rw [rail_not x b (Finset.mem_range.mp hb), mul_neg]

/-- Two weights have no negative of their own, 0 and -128. All others keep their
magnitude under it. -/
theorem wtSign_neg : ∀ w : BitVec 8, w ≠ 0 → w ≠ 0x80 →
    wtSign (-w) = -wtSign w ∧ passLen (-w) = passLen w := by
  decide +kernel

theorem g_neg (x : BitVec 8) {w : BitVec 8} (h0 : w ≠ 0) (h128 : w ≠ 0x80) :
    g x (-w) = -g x w := by
  obtain ⟨hsign, hlen⟩ := wtSign_neg w h0 h128
  rw [g_eq_hits, g_eq_hits, hsign, hlen, neg_mul]

end DcnnFpga.Rtl
