import DcnnFpga.Nios.Agreement
import DcnnFpga.Rtl.NoHang

/-!
# How far a layer on the slave is from the layer it stands for

The chain of a layer is exact up to two things: `mat_mul` counts `g` where the
layer multiplies, and every padded column counts 1. So the rows of the first row
block (later ones meet shifted weights) end at the sum of `g` over the window plus
the padding, reduced to 16 bits, and that sum is within four units for each column
of the fixed-point sum.

`fullyConnencted_accurate` says this of the scores, `conv_accurate` of the cells of
a feature map, with the flattening before and the image cube after the product.
-/

namespace DcnnFpga.Nios

open Lib Product Rtl

/-- The product of two signed bytes, in 128ths of a unit of the result. -/
def exactProduct (x w : BitVec 8) : Int := x.toInt * w.toInt

namespace Product

variable {σ : Type} {p : Product} {s : Locals σ} {n i : Nat}

/-- Four units for each column. -/
theorem entry_accurate (p : Product) (n i : Nat) :
    |128 * p.entry g n i - p.entry exactProduct n i| ≤ 512 * p.filterSize := by
  rw [entry, entry, Finset.mul_sum, ← Finset.sum_sub_distrib]
  calc _ ≤ ∑ k ∈ Finset.range p.filterSize,
          |128 * g (p.dataMat (n * p.filterSize + k)) (p.weightMat (k * p.filterNum + i)) -
            exactProduct (p.dataMat (n * p.filterSize + k)) (p.weightMat (k * p.filterNum + i))| :=
        Finset.abs_sum_le_sum_abs _ _
    _ ≤ ∑ _k ∈ Finset.range p.filterSize, (512 : Int) :=
        Finset.sum_le_sum fun k _ => g_accurate _ _
    _ = 512 * p.filterSize := by
        rw [Finset.sum_const, Finset.card_range, nsmul_eq_mul, mul_comm]

/-- 128 units for each column at most. -/
theorem entry_abs_le (p : Product) (n i : Nat) : |p.entry g n i| ≤ 128 * p.filterSize := by
  rw [entry]
  calc _ ≤ ∑ k ∈ Finset.range p.filterSize,
          |g (p.dataMat (n * p.filterSize + k)) (p.weightMat (k * p.filterNum + i))| :=
        Finset.abs_sum_le_sum_abs _ _
    _ ≤ ∑ _k ∈ Finset.range p.filterSize, (128 : Int) :=
        Finset.sum_le_sum fun k _ => g_abs_le _ _
    _ = 128 * p.filterSize := by
        rw [Finset.sum_const, Finset.card_range, nsmul_eq_mul, mul_comm]

/-- Up to 255 columns the entry and the padding fit a cell together. -/
theorem entry_fits (p : Product) (n i : Nat) (hK : p.filterSize ≤ 255) :
    (p.entry g n i + p.padding).bmod (2 ^ 16) = p.entry g n i + p.padding := by
  have habs := abs_le.mp (p.entry_abs_le n i)
  have hpad : p.filterSize + p.padding ≤ 256 := by
    rw [filterSize_add_padding, filterBlocks]
    omega
  rw [bmod_eq_self_iff (w := 15)]
  omega

/-- A cell of the first row block that starts at 0. -/
theorem Ran.output_first (hran : Ran p (Multiplies g) (fun _ => 0) (p.positions p.filterNum) s)
    (hn : n < p.flattenNum) (hn' : n < 256) (hi : i < p.filterNum) :
    s.outputMat (n * p.filterNum + i) = BitVec.ofInt 16 (p.entry g n i + p.padding) := by
  rw [hran.output_eq hn hi, sum_blockSum p g i hn hn', g_zero_zero, mul_one]
  exact BitVec.zero_add _

end Product

/-- **Accuracy of the scores**: `fully_connencted` on the slave, after a clock of
reset from any registers. A score of the first row block is its sum of `g` and its
padding in 16 bits, the sum within four units a column of the fixed-point one;
up to 255 columns nothing wraps. -/
theorem fullyConnencted_accurate (p : Product) (s : TestSlave) (j : Input) (k : Nat)
    (fabrics : Nat → Fabric) (beyond : Bytes) :
    ∃ fuel₀, ∀ fuel, fuel₀ ≤ fuel →
      ∃ t, p.fullyConnencted (slaveMatMul fuel fabrics) (s.clock { j with iRstCtrl := true }, k)
          beyond (fun _ => 0) = some t ∧
        ∀ n i, n < p.flattenNum → n < 256 → i < p.filterNum →
          ∃ S : Int, |128 * S - p.entry exactProduct n i| ≤ 512 * p.filterSize ∧
            (t.outputMat (n * p.filterNum + i)).toInt = (S + p.padding).bmod (2 ^ 16) ∧
            (p.filterSize ≤ 255 →
              (t.outputMat (n * p.filterNum + i)).toInt = S + p.padding) := by
  refine ⟨132, fun fuel hfuel => ?_⟩
  obtain ⟨t, ht, hran⟩ := blockedProduct_spec p (lawful_slaveMatMul hfuel fabrics)
    (slaveReady_reset s j k) beyond fun _ => 0
  refine ⟨t, ht, fun n i hn hn' hi => ⟨p.entry g n i, p.entry_accurate n i, ?_, fun hK => ?_⟩⟩
  · rw [hran.output_first hn hn' hi, BitVec.toInt_ofInt]
  · rw [hran.output_first hn hn' hi, BitVec.toInt_ofInt, p.entry_fits n i hK]

/-! ## Feature maps -/

/-- The filter bank `weights[filterH][filterW][depth][filterNum]` over a window of
the map, with `h` in place of the product. -/
def windowWith (h : BitVec 8 → BitVec 8 → Int) (inputFmap weights : Bytes)
    (W filterH filterW depth filterNum hh w d : Nat) : Int :=
  ∑ hIn ∈ Finset.range filterH, ∑ wIn ∈ Finset.range filterW, ∑ dIn ∈ Finset.range depth,
    h (inputFmap (cell W depth (hh + hIn) (w + wIn) dIn))
      (weights (cell filterW depth hIn wIn dIn * filterNum + d))

theorem windowWith_exactProduct (inputFmap weights : Bytes)
    (W filterH filterW depth filterNum hh w d : Nat) :
    windowWith exactProduct inputFmap weights W filterH filterW depth filterNum hh w d =
      convolution inputFmap weights W filterH filterW depth filterNum hh w d := rfl

/-- Row `w * height + h` of the flattened matrix against column `d` of the filters. -/
theorem row_windowWith (f : BitVec 8 → BitVec 8 → Int) (flattenedMatrix inputFmap weights : Bytes)
    {H W filterH filterW depth w h : Nat} (filterNum d : Nat)
    (hw : w < W + 1 - filterW) (hh : h < H + 1 - filterH) :
    ∑ k ∈ Finset.range (filterH * filterW * depth),
        f ((flattenMatrix flattenedMatrix inputFmap H W filterH filterW depth).cells
            ((w * (H + 1 - filterH) + h) * (filterH * filterW * depth) + k))
          (weights (k * filterNum + d)) =
      windowWith f inputFmap weights W filterH filterW depth filterNum h w d := by
  unfold windowWith
  rw [sum_range_mul, sum_range_mul]
  refine Finset.sum_congr rfl fun hIn hhIn => Finset.sum_congr rfl fun wIn hwIn =>
    Finset.sum_congr rfl fun dIn hdIn => ?_
  rw [Nat.mul_assoc filterH]
  have hcell := flattenMatrix_cells flattenedMatrix inputFmap hw hh
    (Finset.mem_range.mp hhIn) (Finset.mem_range.mp hwIn) (Finset.mem_range.mp hdIn)
  rw [show (hIn * filterW + wIn) * depth + dIn = cell filterW depth hIn wIn dIn from rfl, hcell]

/-- The arguments of `conv` for a layer: the map flattened for windows of
`filterH` rows and `filterW` columns. `filterHeight` and `filterWeight` only count
through their product. -/
def convArgs (flattenedMatrix inputFmap weights : Bytes)
    (H W filterH filterW depth filterHeight filterWeight filterNum : Nat) : Product :=
  ⟨(flattenMatrix flattenedMatrix inputFmap H W filterH filterW depth).cells,
    H - filterH + 1, W - filterW + 1, weights, filterHeight, filterWeight, filterNum⟩

/-- What the cells of a feature map are to be, where their position is in the first
row block: the truncated sum `S` and the padding in 16 bits, with `S` within four
units a column of the convolution. Up to 255 columns nothing wraps before the
truncation. -/
def AccurateMap (inputFmap weights : Bytes) (H W filterH filterW depth filterNum padding : Nat)
    (fmap : Bytes) : Prop :=
  ∀ h w d, h < H - filterH + 1 → w < W - filterW + 1 → d < filterNum →
    w * (H - filterH + 1) + h < 256 →
    ∃ S : Int,
      |128 * S - convolution inputFmap weights W filterH filterW depth filterNum h w d| ≤
        512 * (filterH * filterW * depth : Nat) ∧
      fmap (cell (W - filterW + 1) filterNum h w d) =
        BitVec.ofInt 8 (min 127 (max 0 ((S + padding).bmod (2 ^ 16)))) ∧
      (filterH * filterW * depth ≤ 255 →
        fmap (cell (W - filterW + 1) filterNum h w d) =
          BitVec.ofInt 8 (min 127 (max 0 (S + padding))))

/-- **Accuracy of a feature map**: `flatten_matrix`, `conv` on the slave after a
clock of reset from any registers, and the image cube. -/
theorem conv_accurate {H W filterH filterW depth filterHeight filterWeight : Nat}
    (filterNum : Nat) (hH : filterH ≤ H) (hW : filterW ≤ W)
    (hsize : filterHeight * filterWeight = filterH * filterW * depth)
    (flattenedMatrix inputFmap weights : Bytes) (s : TestSlave) (j : Input) (k : Nat)
    (fabrics : Nat → Fabric) (beyond tempFmap : Bytes) :
    let p := convArgs flattenedMatrix inputFmap weights H W filterH filterW depth
      filterHeight filterWeight filterNum
    ∃ fuel₀, ∀ fuel, fuel₀ ≤ fuel →
      ∃ t cube, p.conv (slaveMatMul fuel fabrics) (s.clock { j with iRstCtrl := true }, k)
          beyond tempFmap (fun _ => 0) = some (t, cube) ∧
        AccurateMap inputFmap weights H W filterH filterW depth filterNum p.padding cube.cells := by
  intro p
  refine ⟨132, fun fuel hfuel => ?_⟩
  obtain ⟨t, ht, hran⟩ := blockedProduct_spec p (lawful_slaveMatMul hfuel fabrics)
    (slaveReady_reset s j k) beyond fun _ => 0
  have hK : p.filterSize = filterH * filterW * depth := hsize
  refine ⟨t, _, by rw [conv, ht]; rfl, fun h w d hh hw hd hfirst => ?_⟩
  -- position `(h, w)` is row `w * height + h` of the product
  have hrow : w * (H - filterH + 1) + h < p.flattenNum := by
    show _ < (H - filterH + 1) * (W - filterW + 1)
    rw [Nat.mul_comm (H - filterH + 1)]
    exact row_major_lt hw hh
  have hentry : ∀ f : BitVec 8 → BitVec 8 → Int,
      p.entry f (w * (H - filterH + 1) + h) d =
        windowWith f inputFmap weights W filterH filterW depth filterNum h w d := by
    intro f
    have hrows : H - filterH + 1 = H + 1 - filterH := by omega
    have hcols : W - filterW + 1 = W + 1 - filterW := by omega
    rw [entry, hK, hrows]
    exact row_windowWith f flattenedMatrix inputFmap weights filterNum d (hcols ▸ hw) (hrows ▸ hh)
  have hcell : (matrixToImageCube t.outputMat tempFmap p.imageH p.imageW p.filterNum).cells
        (cell (W - filterW + 1) filterNum h w d) =
      truncation (BitVec.ofInt 16 (p.entry g (w * (H - filterH + 1) + h) d + p.padding)) := by
    rw [← hran.output_first hrow hfirst hd]
    exact (matrixToImageCube_cells t.outputMat tempFmap hh hw hd).1
  refine ⟨p.entry g (w * (H - filterH + 1) + h) d, ?_, ?_, fun hle => ?_⟩
  · rw [← windowWith_exactProduct, ← hentry, ← hK]
    exact p.entry_accurate _ _
  · rw [hcell, truncation_eq, BitVec.toInt_ofInt]
  · rw [hcell, truncation_eq, BitVec.toInt_ofInt, p.entry_fits _ _ (hK ▸ hle)]

/-- The first layer on a ramp, with filters of weight -3. -/
theorem conv_accurate_ramp :
    let p := convArgs (fun _ => 0x55) (BitVec.ofNat 8) (fun _ => 0xfd) 49 40 10 10 1 10 10 16
    ∃ fuel₀, ∀ fuel, fuel₀ ≤ fuel →
      ∃ t cube, p.conv (slaveMatMul fuel fun _ => directFabric)
          (corrupt.clock { idleInput 0 with iRstCtrl := true }, 0) (fun _ => 0x77)
          (fun _ => 0x33) (fun _ => 0) = some (t, cube) ∧
        AccurateMap (BitVec.ofNat 8) (fun _ => 0xfd) 49 40 10 10 1 16 p.padding cube.cells :=
  conv_accurate 16 (by decide) (by decide) (by decide) (fun _ => 0x55) (BitVec.ofNat 8)
    (fun _ => 0xfd) corrupt (idleInput 0) 0 (fun _ => directFabric) (fun _ => 0x77) (fun _ => 0x33)

end DcnnFpga.Nios
