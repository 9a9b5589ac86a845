import DcnnFpga.Nios.LayerClocks
import DcnnFpga.Nios.Layers

/-!
# The clocks of the network

Run after run on the same slave, the calls of the two convolutions and of the layer
behind them are one sequence, and what they take adds up. Only the weights count: the
weight pointer of a column block runs on from one row block to the next (`weightIndex`),
so the bytes that count are those of one stretch of memory for each column block, the
bytes behind the array included (`passes_eq`). Neither the spectrum nor the feature map
between the convolutions has any influence on how long `total_conv` takes.
-/

namespace DcnnFpga.Nios

open Lib Rtl

theorem sum_range_le {f : Nat → Nat} {B : Nat} (h : ∀ k, f k ≤ B) (n : Nat) :
    ∑ k ∈ Finset.range n, f k ≤ n * B := by
  have hsum := Finset.sum_le_card_nsmul (Finset.range n) f B fun k _ => h k
  rwa [Finset.card_range] at hsum

/-- The enabled clocks of the passes over `n` bytes of weights. -/
def weightClocks (weights : Bytes) (first n : Nat) : Nat :=
  ∑ j ∈ Finset.range n, max 1 (weights (first + j)).toInt.natAbs

/-- A pass is at most 128 clocks long. -/
theorem pass_le (w : BitVec 8) : max 1 w.toInt.natAbs ≤ 128 := by
  have hlo := BitVec.le_toInt w
  have hhi := BitVec.toInt_lt (x := w)
  omega

theorem weightClocks_le (weights : Bytes) (first n : Nat) :
    weightClocks weights first n ≤ n * 128 :=
  sum_range_le (fun _ => pass_le _) n

theorem weightClocks_zero (first n : Nat) : weightClocks (fun _ => 0) first n = n := by
  simp [weightClocks]

namespace Product

/-- The blocks of a layer, each a call of `mat_mul`. -/
def blocks (p : Product) : Nat := p.filterNum * (p.filterBlocks * p.dataBlocks)

/-- The enabled clocks of all passes of a layer. -/
def passes (p : Product) : Nat :=
  ∑ i ∈ Finset.range p.filterNum, ∑ fb ∈ Finset.range p.filterBlocks,
    ∑ db ∈ Finset.range p.dataBlocks, p.blockClocks i fb db

theorem blockWidth_le (p : Product) (fb : Nat) : p.blockWidth fb ≤ 128 :=
  Nat.min_le_left _ _

/-- The columns in range, and a clock for each padded one. -/
theorem blockClocks_eq (p : Product) (i fb db : Nat) :
    p.blockClocks i fb db =
      ∑ c ∈ Finset.range (p.blockWidth fb),
        max 1 (p.weightMat (p.weightIndex i fb db c)).toInt.natAbs + (128 - p.blockWidth fb) := by
  have hwidth : p.blockWidth fb = min 128 (p.filterSize - fb * 128) := rfl
  have hin : ∀ c ∈ Finset.range (p.blockWidth fb), max 1 (p.weightCell i fb db c).toInt.natAbs =
      max 1 (p.weightMat (p.weightIndex i fb db c)).toInt.natAbs := by
    intro c hc
    have hc' := Finset.mem_range.mp hc
    rw [weightCell, if_pos (by omega)]
  have hpad : ∀ c ∈ Finset.range (128 - p.blockWidth fb),
      max 1 (p.weightCell i fb db (p.blockWidth fb + c)).toInt.natAbs = 1 := by
    intro c hc
    have hc' := Finset.mem_range.mp hc
    rw [weightCell, if_neg (by omega)]
    rfl
  calc p.blockClocks i fb db
      = ∑ c ∈ Finset.range (p.blockWidth fb + (128 - p.blockWidth fb)),
          max 1 (p.weightCell i fb db c).toInt.natAbs := by
        rw [Nat.add_sub_cancel' (p.blockWidth_le fb)]
        rfl
    _ = _ := by
        rw [Finset.sum_range_add, Finset.sum_congr rfl hin, Finset.sum_const_nat hpad,
          Finset.card_range, Nat.mul_one]

/-- All filters and row blocks of a column block read one stretch of the weights, each
byte once. -/
theorem sum_weightIndex (p : Product) (f : Nat → Nat) (fb : Nat) :
    ∑ i ∈ Finset.range p.filterNum, ∑ db ∈ Finset.range p.dataBlocks,
        ∑ c ∈ Finset.range (p.blockWidth fb), f (p.weightIndex i fb db c) =
      ∑ j ∈ Finset.range (p.dataBlocks * p.blockWidth fb * p.filterNum),
        f (fb * p.filterNum * 128 + j) := by
  rw [sum_range_mul, sum_range_mul (fun k => ∑ i ∈ Finset.range p.filterNum,
    f (fb * p.filterNum * 128 + (k * p.filterNum + i))), Finset.sum_comm]
  refine Finset.sum_congr rfl fun db _ => ?_
  rw [Finset.sum_comm]
  refine Finset.sum_congr rfl fun c _ => Finset.sum_congr rfl fun i _ => ?_
  rw [weightIndex, Nat.add_assoc, Nat.add_comm i]

/-- **The passes of a layer**: for each column block those of a stretch of the weights,
and the padded columns of its blocks. The data do not matter. -/
theorem passes_eq (p : Product) :
    p.passes = ∑ fb ∈ Finset.range p.filterBlocks,
      (weightClocks p.weightMat (fb * p.filterNum * 128)
          (p.dataBlocks * p.blockWidth fb * p.filterNum) +
        p.filterNum * (p.dataBlocks * (128 - p.blockWidth fb))) := by
  rw [passes, Finset.sum_comm]
  refine Finset.sum_congr rfl fun fb _ => ?_
  have hrows : ∀ i ∈ Finset.range p.filterNum,
      ∑ db ∈ Finset.range p.dataBlocks, p.blockClocks i fb db =
        ∑ db ∈ Finset.range p.dataBlocks, ∑ c ∈ Finset.range (p.blockWidth fb),
          max 1 (p.weightMat (p.weightIndex i fb db c)).toInt.natAbs +
        p.dataBlocks * (128 - p.blockWidth fb) := by
    intro i _
    rw [Finset.sum_congr rfl fun db _ => p.blockClocks_eq i fb db, Finset.sum_add_distrib,
      Finset.sum_const, Finset.card_range]
    rfl
  rw [Finset.sum_congr rfl hrows, Finset.sum_add_distrib, Finset.sum_const, Finset.card_range,
    p.sum_weightIndex (fun j => max 1 (p.weightMat j).toInt.natAbs)]
  rfl

theorem blockClocks_le (p : Product) (i fb db : Nat) : p.blockClocks i fb db ≤ 128 * 128 :=
  sum_range_le (fun _ => pass_le _) 128

theorem passes_le (p : Product) : p.passes ≤ 16384 * p.blocks := by
  have hle : p.passes ≤ p.filterNum * (p.filterBlocks * (p.dataBlocks * (128 * 128))) :=
    sum_range_le (fun i => sum_range_le (fun fb => sum_range_le (fun db =>
      p.blockClocks_le i fb db) _) _) _
  rwa [← Nat.mul_assoc p.filterBlocks, ← Nat.mul_assoc p.filterNum, Nat.mul_comm _ (128 * 128)]
    at hle

/-- The first convolution: one column block of 100 columns, and five row blocks. -/
theorem sizes_first (dataMat weights : Bytes) :
    let p : Product := ⟨dataMat, 40, 31, weights, 10, 10, 16⟩
    p.filterBlocks = 1 ∧ p.dataBlocks = 5 ∧ p.blockWidth 0 = 100 := by
  simp [filterBlocks, dataBlocks, blockWidth, filterSize, flattenNum]

theorem passes_first (dataMat weights : Bytes) :
    let p : Product := ⟨dataMat, 40, 31, weights, 10, 10, 16⟩
    p.blocks = 80 ∧ p.passes = weightClocks weights 0 8000 + 2240 := by
  intro p
  have hfilters : p.filterNum = 16 := rfl
  obtain ⟨hcols, hrows, hwidth⟩ := sizes_first dataMat weights
  constructor
  · rw [blocks, hcols, hrows, hfilters]
  · rw [passes_eq, hcols, hrows, hfilters, Finset.sum_range_one, hwidth, Nat.zero_mul]

/-- The second: four column blocks, the last of 16 columns, and four row blocks. -/
theorem sizes_second (dataMat weights : Bytes) :
    let p : Product := ⟨dataMat, 36, 27, weights, 1, 400, 16⟩
    p.filterBlocks = 4 ∧ p.dataBlocks = 4 ∧ p.blockWidth 0 = 128 ∧ p.blockWidth 1 = 128 ∧
      p.blockWidth 2 = 128 ∧ p.blockWidth 3 = 16 := by
  intro p
  have hcolumns : p.filterSize = 400 := by simp [p, filterSize]
  have hrows : p.flattenNum = 972 := by simp [p, flattenNum]
  rw [filterBlocks, dataBlocks, blockWidth, blockWidth, blockWidth, blockWidth, hcolumns, hrows]
  omega

theorem passes_second (dataMat weights : Bytes) :
    let p : Product := ⟨dataMat, 36, 27, weights, 1, 400, 16⟩
    p.blocks = 256 ∧
      p.passes = weightClocks weights 0 8192 + weightClocks weights 2048 8192 +
        weightClocks weights 4096 8192 + weightClocks weights 6144 1024 + 7168 := by
  intro p
  have hfilters : p.filterNum = 16 := rfl
  have hweights : p.weightMat = weights := rfl
  obtain ⟨hcols, hrows, hwidth₀, hwidth₁, hwidth₂, hwidth₃⟩ := sizes_second dataMat weights
  constructor
  · rw [blocks, hcols, hrows, hfilters]
  · rw [passes_eq, hcols, hrows, hfilters, Finset.sum_range_succ, Finset.sum_range_succ,
      Finset.sum_range_succ, Finset.sum_range_one, hwidth₀, hwidth₁, hwidth₂, hwidth₃]
    simp only [Nat.reduceMul, Nat.reduceSub, hweights]
    omega

end Product

/-! ## One layer after the other -/

/-- The device is where the calls `made` have brought it, between two matrices. -/
structure Brought (fuel : Nat) (fabrics : Nat → Fabric) (start : TestSlave) (made : List Call)
    (dev : TestSlave × Nat) : Prop where
  serves : Serves fuel start (callsTurns (busCalls fabrics made)) dev.1
  count : dev.2 = made.length
  ready : SlaveReady dev

theorem brought_afterReset (fuel : Nat) (fabrics : Nat → Fabric) (mvm : MVM) :
    Brought fuel fabrics (TestSlave.afterReset mvm) [] (TestSlave.afterReset mvm, 0) where
  serves := .refl _
  count := rfl
  ready := slaveReady_afterReset mvm 0

section Layers

variable {fuel : Nat} {fabrics : Nat → Fabric} {start : TestSlave} {made : List Call}
  {dev : TestSlave × Nat}

/-- **Step lemma**: a layer adds its calls. -/
theorem Brought.layer (h : Brought fuel fabrics start made dev) (hfuel : 132 ≤ fuel) (p : Product)
    (beyond : Bytes) (out : Nat → BitVec 16) :
    ∃ s, p.blockedProduct (slaveMatMul fuel fabrics) dev beyond out = some s ∧
      Brought fuel fabrics start (made ++ s.calls) s.dev ∧ s.calls.length = p.blocks ∧
      (s.calls.map fun c => passClocks c.block).sum = p.passes := by
  have hmat := lawful_slaveMatMul hfuel fabrics
  obtain ⟨s, hs⟩ := p.blockedProduct_total hmat h.ready beyond out
  obtain ⟨hran, hready⟩ := Product.blockedProduct_ran hmat.sound h.ready hs
  obtain ⟨hserves, hcount⟩ := Product.driven_blockedProduct h.serves h.count hs
  obtain ⟨hlen, hsum⟩ := hran.calls_clocks
  exact ⟨s, hs, ⟨hserves, hcount, hready⟩, hlen, hsum⟩

theorem Brought.convInterface1 (h : Brought fuel fabrics start made dev) (hfuel : 132 ≤ fuel)
    (behind : Behind) (firstConv spectrum con2Fmap : Bytes) :
    ∃ s cube, convInterface1 (slaveMatMul fuel fabrics) dev behind firstConv spectrum con2Fmap
        = some (s, cube) ∧
      Brought fuel fabrics start (made ++ s.calls) s.dev ∧ s.calls.length = 80 ∧
      (s.calls.map fun c => passClocks c.block).sum = weightClocks firstConv 0 8000 + 2240 := by
  obtain ⟨s, hs, hbrought, hlen, hsum⟩ := h.layer hfuel
    ⟨(flattenMatrix (zeroed (1240 * 100) behind.flattenMat) spectrum 49 40 10 10 1).cells, 40, 31,
      firstConv, 10, 10, 16⟩ behind.matBlock (zeroed (1240 * 16) behind.outputMat)
  obtain ⟨hblocks, hpasses⟩ := Product.passes_first
    (flattenMatrix (zeroed (1240 * 100) behind.flattenMat) spectrum 49 40 10 10 1).cells firstConv
  exact ⟨s, _, by rw [Nios.convInterface1, Product.conv, hs]; rfl, hbrought,
    hlen.trans hblocks, hsum.trans hpasses⟩

theorem Brought.convInterface2 (h : Brought fuel fabrics start made dev) (hfuel : 132 ≤ fuel)
    (behind : Behind) (secondConv con2Fmap convFinishFmap : Bytes) :
    ∃ r, convInterface2 (slaveMatMul fuel fabrics) dev behind secondConv con2Fmap convFinishFmap
        = some r ∧
      Brought fuel fabrics start (made ++ r.locals.calls) r.locals.dev ∧
      r.locals.calls.length = 256 ∧
      (r.locals.calls.map fun c => passClocks c.block).sum =
        weightClocks secondConv 0 8192 + weightClocks secondConv 2048 8192 +
          weightClocks secondConv 4096 8192 + weightClocks secondConv 6144 1024 + 7168 := by
  obtain ⟨s, hs, hbrought, hlen, hsum⟩ := h.layer hfuel
    ⟨(flattenMatrix (zeroed (972 * 400) behind.flattenMat) con2Fmap 40 31 5 5 16).cells, 36, 27,
      secondConv, 1, 400, 16⟩ behind.matBlock (zeroed (972 * 16) behind.outputMat)
  obtain ⟨hblocks, hpasses⟩ := Product.passes_second
    (flattenMatrix (zeroed (972 * 400) behind.flattenMat) con2Fmap 40 31 5 5 16).cells secondConv
  exact ⟨_, by rw [Nios.convInterface2, Product.conv, hs]; rfl, hbrought,
    hlen.trans hblocks, hsum.trans hpasses⟩

end Layers

/-- **The clocks of the network**: on fabrics without gaps `total_conv` and the layer
behind it take 17025 clocks for each of their blocks, less one, and the passes of the
weights. The two convolutions have 336 blocks, and take 10030607 clocks at worst. -/
theorem network_clocks (mvm : MVM) {fabrics : Nat → Fabric}
    (hgap : ∀ j k, (fabrics j).gap k = []) (behind behind' : Behind)
    (con2Fmap firstConv secondConv spectrum convFinishFmap : Bytes)
    (layer : Bytes → Product) (beyond : Bytes) (fcFinish : Nat → BitVec 16) :
    ∃ fuel₀, ∀ fuel, fuel₀ ≤ fuel → ∃ s cube r t ins,
      convInterface1 (slaveMatMul fuel fabrics) (TestSlave.afterReset mvm, 0) behind firstConv
        spectrum (zeroed (40 * 31 * 16) con2Fmap) = some (s, cube) ∧
      totalConv (slaveMatMul fuel fabrics) (TestSlave.afterReset mvm, 0) behind behind' con2Fmap
        firstConv secondConv spectrum convFinishFmap = some r ∧
      (layer r.convFinishFmap.out.cells).fullyConnencted (slaveMatMul fuel fabrics) r.locals.dev
        beyond fcFinish = some t ∧
      slave.serve TestSlave.oWaitReq fuel (TestSlave.afterReset mvm)
        (callsTurns (busCalls fabrics (s.calls ++ r.locals.calls ++ t.calls))) = some ins ∧
      slave.run (TestSlave.afterReset mvm) ins = t.dev.1 ∧
      ins.length + 1 = 17025 * (336 + (layer r.convFinishFmap.out.cells).blocks) +
        (weightClocks firstConv 0 8000 + 2240) +
        (weightClocks secondConv 0 8192 + weightClocks secondConv 2048 8192 +
          weightClocks secondConv 4096 8192 + weightClocks secondConv 6144 1024 + 7168) +
        (layer r.convFinishFmap.out.cells).passes ∧
      ins.length ≤ 10030607 + 33409 * (layer r.convFinishFmap.out.cells).blocks := by
  refine ⟨132, fun fuel hfuel => ?_⟩
  have hbrought := brought_afterReset fuel fabrics mvm
  obtain ⟨s, cube, hs, hbrought₁, hlen₁, hsum₁⟩ := hbrought.convInterface1 hfuel behind firstConv
    spectrum (zeroed (40 * 31 * 16) con2Fmap)
  obtain ⟨r, hr, hbrought₂, hlen₂, hsum₂⟩ := hbrought₁.convInterface2 hfuel behind' secondConv
    cube.cells convFinishFmap
  obtain ⟨t, ht, hbrought₃, hlen₃, hsum₃⟩ := hbrought₂.layer hfuel
    (layer r.convFinishFmap.out.cells) beyond fcFinish
  obtain ⟨ins, hins, hrun⟩ := hbrought₃.serves
  rw [List.nil_append] at hins
  have hcalls : (s.calls ++ r.locals.calls ++ t.calls).length =
      336 + (layer r.convFinishFmap.out.cells).blocks := by
    rw [List.length_append, List.length_append, hlen₁, hlen₂, hlen₃]
  have hne : s.calls ++ r.locals.calls ++ t.calls ≠ [] := by
    refine List.ne_nil_of_length_pos ?_
    omega
  have htotal := serve_busCalls mvm hgap hne hfuel hins
  rw [hcalls, List.map_append, List.map_append, List.sum_append, List.sum_append, hsum₁, hsum₂,
    hsum₃] at htotal
  have hfirst := weightClocks_le firstConv 0 8000
  have hsecond : weightClocks secondConv 0 8192 + weightClocks secondConv 2048 8192 +
      weightClocks secondConv 4096 8192 + weightClocks secondConv 6144 1024 ≤ 25600 * 128 := by
    linarith [weightClocks_le secondConv 0 8192, weightClocks_le secondConv 2048 8192,
      weightClocks_le secondConv 4096 8192, weightClocks_le secondConv 6144 1024]
  have hlayer := (layer r.convFinishFmap.out.cells).passes_le
  refine ⟨s, cube, r, t, ins, hs, ?_, ht, hins, hrun, ?_, ?_⟩
  · rw [totalConv, hs]
    exact hr
  · omega
  · omega

/-- With weights of zero every pass of the convolutions is one clock. The layer behind them
is that of the network, and its weights are the feature map. -/
theorem network_clocks_zero :
    ∃ fuel₀, ∀ fuel, fuel₀ ≤ fuel → ∃ r t ins,
      totalConv (slaveMatMul fuel fun _ => directFabric) (TestSlave.afterReset MVM.cleared, 0)
        zeroBehind zeroBehind (fun _ => 0) (fun _ => 0) (fun _ => 0) (fun _ => 1) (fun _ => 0)
          = some r ∧
      (⟨fun _ => 1, 6, 1, r.convFinishFmap.out.cells, 54, 16, 1⟩ : Product).fullyConnencted
        (slaveMatMul fuel fun _ => directFabric) r.locals.dev (fun _ => 0) (fun _ => 0) = some t ∧
      slave.run (TestSlave.afterReset MVM.cleared) ins = t.dev.1 ∧
      ins.length + 1 = 17025 * 343 + 10240 + 32768 +
        (⟨fun _ => 1, 6, 1, r.convFinishFmap.out.cells, 54, 16, 1⟩ : Product).passes := by
  have hgap : ∀ j k : Nat, ((fun _ => directFabric : Nat → Fabric) j).gap k = [] := fun _ _ => rfl
  obtain ⟨fuel₀, h⟩ := network_clocks MVM.cleared hgap zeroBehind zeroBehind (fun _ => 0)
    (fun _ => 0) (fun _ => 0) (fun _ => 1) (fun _ => 0)
    (fun map => ⟨fun _ => 1, 6, 1, map, 54, 16, 1⟩) (fun _ => 0) (fun _ => 0)
  refine ⟨fuel₀, fun fuel hfuel => ?_⟩
  obtain ⟨-, -, r, t, ins, -, hr, ht, -, hrun, hclocks, -⟩ := h fuel hfuel
  have hblocks : (⟨fun _ => 1, 6, 1, r.convFinishFmap.out.cells, 54, 16, 1⟩ : Product).blocks
      = 7 := by
    simp [Product.blocks, Product.filterBlocks, Product.dataBlocks, Product.filterSize,
      Product.flattenNum]
  simp only [hblocks, weightClocks_zero] at hclocks
  exact ⟨r, t, ins, hr, ht, hrun, by omega⟩

end DcnnFpga.Nios
