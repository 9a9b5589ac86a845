import DcnnFpga.Nios.MatMulExact
import DcnnFpga.Rtl.Monotone

/-!
# `mat_mul` is monotone in the data

The stochastic product is not linear, but it never gets the order wrong: data
that is larger in the columns with a weight of at least 0 and smaller in those
with a negative one gives the larger result. The results of two calls may be
compared wherever the calls stand, on one slave or on two.
-/

namespace DcnnFpga.Nios

open Lib Rtl

/-- Both matrices have the same weights in row 256. -/
def SameWeights (A B : Bytes) : Prop := ∀ c, c < 128 → A (256 * 128 + c) = B (256 * 128 + c)

/-- Row `r` of `A` is below that of `B`, in the direction of each weight. -/
def RowBelow (A B : Bytes) (r : Nat) : Prop :=
  ∀ c, c < 128 →
    (0 ≤ (A (256 * 128 + c)).toInt → (A (r * 128 + c)).toInt ≤ (B (r * 128 + c)).toInt) ∧
    ((A (256 * 128 + c)).toInt < 0 → (B (r * 128 + c)).toInt ≤ (A (r * 128 + c)).toInt)

theorem dot_le {A B : Bytes} {r : Nat} (hw : SameWeights A B) (h : RowBelow A B r) :
    dot A r ≤ dot B r := by
  refine Finset.sum_le_sum fun c hc => ?_
  have hc' := Finset.mem_range.mp hc
  obtain ⟨hpos, hneg⟩ := h c hc'
  rw [← hw c hc']
  by_cases hsign : 0 ≤ (A (256 * 128 + c)).toInt
  · exact g_mono hsign (hpos hsign)
  · exact g_antitone (by omega) (hneg (by omega))

/-- **`mat_mul` is monotone in the data**: any two calls, each in any sequence of
calls on a slave after `i_rst_ctrl`. -/
theorem matMul_monotone (mvmA mvmB : MVM) (callsA callsB : List MatMulCall) :
    ∃ fuel₀, ∀ fuel, fuel₀ ≤ fuel →
      ∃ sA resultsA sB resultsB,
        matMulCalls fuel (TestSlave.afterReset mvmA) callsA = some (sA, resultsA) ∧
        matMulCalls fuel (TestSlave.afterReset mvmB) callsB = some (sB, resultsB) ∧
        resultsA.length = callsA.length ∧ resultsB.length = callsB.length ∧
        ∀ A resA B resB, (A, resA) ∈ callsA.zip resultsA → (B, resB) ∈ callsB.zip resultsB →
          SameWeights A.matrix B.matrix → ∀ r, r < 256 → RowBelow A.matrix B.matrix r →
            (resA r).toInt ≤ (resB r).toInt := by
  refine ⟨132, fun fuel hfuel => ?_⟩
  obtain ⟨sA, resultsA, hA, hallA⟩ :=
    matMulCalls_spec (follows_afterReset mvmA) (Ledger.ready_start false _) callsA hfuel
  obtain ⟨sB, resultsB, hB, hallB⟩ :=
    matMulCalls_spec (follows_afterReset mvmB) (Ledger.ready_start false _) callsB hfuel
  refine ⟨sA, resultsA, sB, resultsB, hA, hB, hallA.length_eq.symm, hallB.length_eq.symm, ?_⟩
  intro A resA B resB hmemA hmemB hw r hr hbelow
  rw [List.forall₂_zip hallA hmemA r hr, List.forall₂_zip hallB hmemB r hr]
  exact dot_le hw hbelow

end DcnnFpga.Nios
