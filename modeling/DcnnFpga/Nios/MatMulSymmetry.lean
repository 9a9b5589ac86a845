import DcnnFpga.Nios.MatMulExact
import DcnnFpga.Rtl.Symmetry
import Mathlib.Algebra.BigOperators.Fin

/-!
# Symmetries of `mat_mul`

The stochastic product rounds, but it rounds evenly: the complement of a row gives
the negated result, and so do negated weights. And a pass leaves nothing behind for
the next one, so the order of the columns does not matter. As in
`MatMulMonotone.lean` the results of two calls may be compared wherever the calls
stand.
-/

namespace DcnnFpga.Nios

open Lib Rtl

/-- Row `r` of `B` is the complement of that of `A`, under the same weights. -/
def RowComplement (A B : Bytes) (r : Nat) : Prop :=
  ∀ c, c < 128 → B (r * 128 + c) = ~~~A (r * 128 + c) ∧ B (256 * 128 + c) = A (256 * 128 + c)

/-- Row `r` is the same in both, and the weights of `B` are those of `A` negated. -/
def WeightsNegated (A B : Bytes) (r : Nat) : Prop :=
  ∀ c, c < 128 → B (r * 128 + c) = A (r * 128 + c) ∧
    B (256 * 128 + c) = -A (256 * 128 + c) ∧
    A (256 * 128 + c) ≠ 0 ∧ A (256 * 128 + c) ≠ 0x80

/-- Row `r` of `B` and its weights are those of `A`, with the columns in another order. -/
def ColumnsPermuted (e : Equiv.Perm (Fin 128)) (A B : Bytes) (r : Nat) : Prop :=
  ∀ c : Fin 128, B (r * 128 + c) = A (r * 128 + e c) ∧ B (256 * 128 + c) = A (256 * 128 + e c)

theorem dot_complement {A B : Bytes} {r : Nat} (h : RowComplement A B r) :
    dot B r = -dot A r := by
  rw [dot, dot, ← Finset.sum_neg_distrib]
  refine Finset.sum_congr rfl fun c hc => ?_
  obtain ⟨hdata, hweight⟩ := h c (Finset.mem_range.mp hc)
  rw [hdata, hweight, g_not]

theorem dot_negated {A B : Bytes} {r : Nat} (h : WeightsNegated A B r) :
    dot B r = -dot A r := by
  rw [dot, dot, ← Finset.sum_neg_distrib]
  refine Finset.sum_congr rfl fun c hc => ?_
  obtain ⟨hdata, hweight, h0, h128⟩ := h c (Finset.mem_range.mp hc)
  rw [hdata, hweight, g_neg _ h0 h128]

theorem dot_permuted {e : Equiv.Perm (Fin 128)} {A B : Bytes} {r : Nat}
    (h : ColumnsPermuted e A B r) : dot B r = dot A r := by
  rw [dot, dot, Finset.sum_range, Finset.sum_range,
    ← Equiv.sum_comp e fun c => g (A (r * 128 + c)) (A (256 * 128 + c))]
  refine Finset.sum_congr rfl fun c _ => ?_
  rw [(h c).1, (h c).2]

/-- Two sequences of calls, each on a slave after `i_rst_ctrl`: both return, and
every call of either has its exact result. -/
theorem matMulCalls_both (mvmA mvmB : MVM) (callsA callsB : List MatMulCall) :
    ∃ fuel₀, ∀ fuel, fuel₀ ≤ fuel →
      ∃ sA resultsA sB resultsB,
        matMulCalls fuel (TestSlave.afterReset mvmA) callsA = some (sA, resultsA) ∧
        matMulCalls fuel (TestSlave.afterReset mvmB) callsB = some (sB, resultsB) ∧
        ∀ A resA B resB, (A, resA) ∈ callsA.zip resultsA → (B, resB) ∈ callsB.zip resultsB →
          Exact A resA ∧ Exact B resB := by
  refine ⟨132, fun fuel hfuel => ?_⟩
  obtain ⟨sA, resultsA, hA, hallA⟩ :=
    matMulCalls_spec (follows_afterReset mvmA) (Ledger.ready_start false _) callsA hfuel
  obtain ⟨sB, resultsB, hB, hallB⟩ :=
    matMulCalls_spec (follows_afterReset mvmB) (Ledger.ready_start false _) callsB hfuel
  exact ⟨sA, resultsA, sB, resultsB, hA, hB, fun A resA B resB hmemA hmemB =>
    ⟨List.forall₂_zip hallA hmemA, List.forall₂_zip hallB hmemB⟩⟩

/-- **`mat_mul` is odd**, exactly: the complement of a row gives the negated result,
and so do negated weights, when none of them is 0 or -128. -/
theorem matMul_odd (mvmA mvmB : MVM) (callsA callsB : List MatMulCall) :
    ∃ fuel₀, ∀ fuel, fuel₀ ≤ fuel →
      ∃ sA resultsA sB resultsB,
        matMulCalls fuel (TestSlave.afterReset mvmA) callsA = some (sA, resultsA) ∧
        matMulCalls fuel (TestSlave.afterReset mvmB) callsB = some (sB, resultsB) ∧
        ∀ A resA B resB, (A, resA) ∈ callsA.zip resultsA → (B, resB) ∈ callsB.zip resultsB →
          ∀ r, r < 256 →
            RowComplement A.matrix B.matrix r ∨ WeightsNegated A.matrix B.matrix r →
              (resB r).toInt = -(resA r).toInt := by
  obtain ⟨fuel₀, hboth⟩ := matMulCalls_both mvmA mvmB callsA callsB
  refine ⟨fuel₀, fun fuel hfuel => ?_⟩
  obtain ⟨sA, resultsA, sB, resultsB, hA, hB, hexact⟩ := hboth fuel hfuel
  refine ⟨sA, resultsA, sB, resultsB, hA, hB, fun A resA B resB hmemA hmemB r hr hrel => ?_⟩
  obtain ⟨hexactA, hexactB⟩ := hexact A resA B resB hmemA hmemB
  rw [hexactA r hr, hexactB r hr]
  rcases hrel with hrel | hrel
  · exact dot_complement hrel
  · exact dot_negated hrel

/-- **The order of the columns does not matter**: a row with its weights in any other
order has the same result, though every pass but the first starts where another one
has stopped. -/
theorem matMul_permuted (mvmA mvmB : MVM) (callsA callsB : List MatMulCall) :
    ∃ fuel₀, ∀ fuel, fuel₀ ≤ fuel →
      ∃ sA resultsA sB resultsB,
        matMulCalls fuel (TestSlave.afterReset mvmA) callsA = some (sA, resultsA) ∧
        matMulCalls fuel (TestSlave.afterReset mvmB) callsB = some (sB, resultsB) ∧
        ∀ A resA B resB, (A, resA) ∈ callsA.zip resultsA → (B, resB) ∈ callsB.zip resultsB →
          ∀ r, r < 256 → ∀ e : Equiv.Perm (Fin 128),
            ColumnsPermuted e A.matrix B.matrix r → (resB r).toInt = (resA r).toInt := by
  obtain ⟨fuel₀, hboth⟩ := matMulCalls_both mvmA mvmB callsA callsB
  refine ⟨fuel₀, fun fuel hfuel => ?_⟩
  obtain ⟨sA, resultsA, sB, resultsB, hA, hB, hexact⟩ := hboth fuel hfuel
  refine ⟨sA, resultsA, sB, resultsB, hA, hB, fun A resA B resB hmemA hmemB r hr e hrel => ?_⟩
  obtain ⟨hexactA, hexactB⟩ := hexact A resA B resB hmemA hmemB
  rw [hexactA r hr, hexactB r hr, dot_permuted hrel]

end DcnnFpga.Nios
