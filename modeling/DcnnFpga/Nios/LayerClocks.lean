import DcnnFpga.Nios.MatMulClocks
import DcnnFpga.Nios.OnSlave

/-!
# The clocks of a layer

The loop nest of `conv` and `fully_connencted` reaches the slave by its calls of `mat_mul`
alone, so its time on the bus is that of these calls: their number, which the sizes give,
and the passes, which the weights give. The data do not matter (`layer_clocks`).
-/

namespace DcnnFpga.Nios

open Lib Rtl

/-- The calls of a layer on the bus, the `j`-th one on the fabric `fabrics j`. -/
def busCalls (fabrics : Nat → Fabric) (calls : List Call) : List MatMulCall :=
  calls.mapIdx fun j c => ⟨fabrics j, c.block, c.result⟩

theorem busCalls_append (fabrics : Nat → Fabric) (calls : List Call) (c : Call) :
    busCalls fabrics (calls ++ [c]) =
      busCalls fabrics calls ++ [⟨fabrics calls.length, c.block, c.result⟩] :=
  List.mapIdx_concat

theorem passClocks_busCalls (fabrics : Nat → Fabric) (calls : List Call) :
    (busCalls fabrics calls).map (fun call => passClocks call.matrix) =
      calls.map fun c => passClocks c.block := by
  apply List.ext_getElem?
  intro j
  rw [List.getElem?_map, List.getElem?_map, busCalls, List.getElem?_mapIdx, Option.map_map]
  rfl

/-- On fabrics without gaps, after a reset: so many clocks a call, and the passes. -/
theorem serve_busCalls (mvm : MVM) {fabrics : Nat → Fabric} (hgap : ∀ j k, (fabrics j).gap k = [])
    {calls : List Call} (hne : calls ≠ []) {fuel : Nat} (hfuel : 132 ≤ fuel) {ins : List Input}
    (hins : slave.serve TestSlave.oWaitReq fuel (TestSlave.afterReset mvm)
      (callsTurns (busCalls fabrics calls)) = some ins) :
    ins.length + 1 = 17025 * calls.length + (calls.map fun c => passClocks c.block).sum := by
  have hdirect : ∀ call ∈ busCalls fabrics calls, ∀ k, call.fabric.gap k = [] := by
    intro call hcall k
    obtain ⟨j, hj, rfl⟩ := List.mem_mapIdx.mp hcall
    exact hgap j k
  have hlen : (busCalls fabrics calls).length = calls.length := List.length_mapIdx
  have hne' : busCalls fabrics calls ≠ [] := by
    refine List.ne_nil_of_length_pos ?_
    rw [hlen]
    exact List.length_pos_of_ne_nil hne
  rw [(serve_callsTurns mvm _ hfuel hins).2 hne' hdirect, hlen, passClocks_busCalls]

namespace Product

section Frame

variable {σ : Type} (p : Product)

theorem copyRow_calls (fb db r : Nat) (s : Locals σ) : (p.copyRow fb db r s).calls = s.calls := by
  unfold copyRow
  split
  · show (forN 128 (p.copyCell fb r) s).calls = s.calls
    refine forN_inv (P := fun _ (t : Locals σ) => t.calls = s.calls) 128 rfl fun c _ t ht => ?_
    unfold copyCell
    split <;> exact ht
  · exact forN_inv (P := fun _ (t : Locals σ) => t.calls = s.calls) 128 rfl fun _ _ _ ht => ht

/-- Only `mat_mul` is a call. -/
theorem copy_calls (fb db : Nat) (s : Locals σ) :
    (forN 128 (p.copyWeight fb) (forN 256 (p.copyRow fb db) s)).calls = s.calls := by
  refine forN_inv (P := fun _ (t : Locals σ) => t.calls = s.calls) 128 ?_ fun c _ t ht => ?_
  · exact forN_inv (P := fun _ (t : Locals σ) => t.calls = s.calls) 256 rfl
      fun r _ t ht => (p.copyRow_calls fb db r t).trans ht
  · unfold copyWeight
    split <;> exact ht

theorem addResult_calls (i db : Nat) (s : Locals σ) :
    (forN 256 (p.addResult i db) s).calls = s.calls := by
  refine forN_inv (P := fun _ (t : Locals σ) => t.calls = s.calls) 256 rfl fun r _ t ht => ?_
  unfold addResult
  split <;> exact ht

end Frame

/-- The slave is where the calls so far have brought it: those `made` before the layer,
and those of the layer. -/
def Driven (fuel : Nat) (fabrics : Nat → Fabric) (start : TestSlave) (made : List Call)
    (s : Locals (TestSlave × Nat)) : Prop :=
  Serves fuel start (callsTurns (busCalls fabrics (made ++ s.calls))) s.dev.1 ∧
    s.dev.2 = (made ++ s.calls).length

section Driven

variable {p : Product} {fuel : Nat} {fabrics : Nat → Fabric} {start : TestSlave}
  {made : List Call} {s s' : Locals (TestSlave × Nat)} {i fb db : Nat}

/-- **Step lemma**: a block is one more call. -/
theorem Driven.block (h : Driven fuel fabrics start made s)
    (heq : p.block (slaveMatMul fuel fabrics) i fb db s = some s') :
    Driven fuel fabrics start made s' := by
  obtain ⟨hserves, hcount⟩ := h
  obtain ⟨u, hu, rfl⟩ := Option.map_eq_some_iff.mp heq
  obtain ⟨q, hq, rfl⟩ := Option.map_eq_some_iff.mp hu
  rw [copy_dev] at hq
  obtain ⟨sr, hsr, rfl⟩ := Option.map_eq_some_iff.mp hq
  rw [Driven, addResult_dev, addResult_calls]
  dsimp only
  rw [copy_calls, ← List.append_assoc, busCalls_append, callsTurns, List.flatMap_append,
    List.flatMap_singleton]
  refine ⟨hserves.trans ?_, ?_⟩
  · rw [← hcount]
    exact matMul_serves hsr
  · rw [hcount, ← List.concat_eq_append, List.length_concat]

theorem Driven.filterBlock (h : Driven fuel fabrics start made s)
    (heq : p.filterBlock (slaveMatMul fuel fabrics) i fb s = some s') :
    Driven fuel fabrics start made s' := by
  have hset : Driven fuel fabrics start made
      { s with dPtr := fb * 128, fPtr := fb * p.filterNum * 128 + i } := h
  exact forSome_inv_of_eq (P := fun _ s => Driven fuel fabrics start made s) p.dataBlocks hset
    (fun db _ s s' h heq => h.block heq) heq

/-- **Run lemma**, for the whole loop nest. -/
theorem driven_blockedProduct {dev : TestSlave × Nat} {beyond : Bytes} {out : Nat → BitVec 16}
    (hserves : Serves fuel start (callsTurns (busCalls fabrics made)) dev.1)
    (hcount : dev.2 = made.length)
    (heq : p.blockedProduct (slaveMatMul fuel fabrics) dev beyond out = some s) :
    Driven fuel fabrics start made s := by
  have hstart : Driven fuel fabrics start made (locals dev beyond out) := by
    rw [Driven, show (locals dev beyond out).calls = [] from rfl, List.append_nil]
    exact ⟨hserves, hcount⟩
  refine forSome_inv_of_eq (P := fun _ s => Driven fuel fabrics start made s) p.filterNum
    hstart (fun i _ s s' h heq => ?_) heq
  exact forSome_inv_of_eq (P := fun _ s => Driven fuel fabrics start made s) p.filterBlocks h
    (fun fb _ s s' h heq => h.filterBlock heq) heq

end Driven

/-! ## What the calls cost -/

/-- The enabled clocks of the passes of a block. -/
def blockClocks (p : Product) (i fb db : Nat) : Nat :=
  ∑ c ∈ Finset.range 128, max 1 (p.weightCell i fb db c).toInt.natAbs

theorem passClocks_filledBlock (p : Product) (i fb db : Nat) (m : Bytes) :
    passClocks (p.filledBlock i fb db m) = p.blockClocks i fb db := by
  refine Finset.sum_congr rfl fun c hc => ?_
  have hc' := Finset.mem_range.mp hc
  have hrow : (256 * 128 + c) / 128 = 256 := by omega
  rw [filledBlock, hrow, if_neg (Nat.lt_irrefl 256), if_pos rfl,
    show (256 * 128 + c) % 128 = c by omega]

/-- A sum over all blocks, as three. -/
theorem sum_positions (p : Product) (f : Nat × Nat × Nat → Nat) :
    ((p.positions p.filterNum).map f).sum = ∑ i ∈ Finset.range p.filterNum,
      ∑ fb ∈ Finset.range p.filterBlocks, ∑ db ∈ Finset.range p.dataBlocks, f (i, fb, db) := by
  rw [positions, sum_map_flatMap_range]
  refine Finset.sum_congr rfl fun i _ => ?_
  rw [columnBlocks, sum_map_flatMap_range]
  refine Finset.sum_congr rfl fun fb _ => ?_
  rw [rowBlocks, List.map_map]
  rfl

theorem length_positions (p : Product) :
    (p.positions p.filterNum).length = p.filterNum * (p.filterBlocks * p.dataBlocks) := by
  refine length_flatMap_range fun i _ => length_flatMap_range fun fb _ => ?_
  rw [rowBlocks, List.length_map, List.length_range]

/-- A layer of one block of rows: its weights, and a clock for each padded column. -/
theorem sum_blockClocks_zero (p : Product) (i : Nat) :
    ∑ fb ∈ Finset.range p.filterBlocks, p.blockClocks i fb 0 =
      ∑ k ∈ Finset.range p.filterSize, max 1 (p.weightMat (k * p.filterNum + i)).toInt.natAbs +
        p.padding := by
  set f : Nat → Nat := fun k =>
    if k < p.filterSize then max 1 (p.weightMat (k * p.filterNum + i)).toInt.natAbs else 1 with hf
  have hblock : ∀ fb, p.blockClocks i fb 0 = ∑ c ∈ Finset.range 128, f (fb * 128 + c) := by
    intro fb
    refine Finset.sum_congr rfl fun c _ => ?_
    rw [hf, weightCell, weightIndex_zero]
    beta_reduce
    by_cases hin : fb * 128 + c < p.filterSize
    · rw [if_pos hin, if_pos hin]
    · rw [if_neg hin, if_neg hin]
      rfl
  have hweights : ∑ k ∈ Finset.range p.filterSize, f k =
      ∑ k ∈ Finset.range p.filterSize, max 1 (p.weightMat (k * p.filterNum + i)).toInt.natAbs :=
    Finset.sum_congr rfl fun k hk => if_pos (Finset.mem_range.mp hk)
  have hpad : ∀ k, f (p.filterSize + k) = 1 := fun k => if_neg (by omega)
  calc ∑ fb ∈ Finset.range p.filterBlocks, p.blockClocks i fb 0
      = ∑ k ∈ Finset.range (p.filterBlocks * 128), f k := by
        rw [sum_range_mul]
        exact Finset.sum_congr rfl fun fb _ => hblock fb
    _ = _ := by
        rw [← filterSize_add_padding, Finset.sum_range_add, hweights,
          Finset.sum_const_nat fun k _ => hpad k, Finset.card_range, Nat.mul_one]

/-- The calls of a run are as many as its blocks, and their passes are those of the blocks. -/
theorem Ran.calls_clocks {R : Bytes → (Nat → BitVec 16) → Prop} {out : Nat → BitVec 16}
    {σ : Type} {p : Product} {s : Locals σ} (hran : Ran p R out (p.positions p.filterNum) s) :
    s.calls.length = p.filterNum * (p.filterBlocks * p.dataBlocks) ∧
      (s.calls.map fun c => passClocks c.block).sum =
        ∑ i ∈ Finset.range p.filterNum, ∑ fb ∈ Finset.range p.filterBlocks,
          ∑ db ∈ Finset.range p.dataBlocks, p.blockClocks i fb db := by
  constructor
  · rw [← length_positions, ← hran.positions, List.length_map]
  · rw [← sum_positions p fun q => p.blockClocks q.1 q.2.1 q.2.2, ← hran.positions, List.map_map]
    refine congrArg List.sum (List.map_congr_left fun c hc => ?_)
    obtain ⟨m, hm⟩ := hran.filled c hc
    rw [hm, passClocks_filledBlock]
    rfl

/-- **The clocks of a layer**: on a fabric without gaps the loop nest of `conv` and
`fully_connencted` takes the slave through a run whose length is known from the sizes and
the weights. With one block of rows these are the weights of the layer, each once. -/
theorem layer_clocks (p : Product) (hF : 1 ≤ p.filterNum) (mvm : MVM) {fabrics : Nat → Fabric}
    (hgap : ∀ j k, (fabrics j).gap k = []) (beyond : Bytes) (out : Nat → BitVec 16) :
    ∃ fuel₀, ∀ fuel, fuel₀ ≤ fuel → ∃ s ins,
      p.blockedProduct (slaveMatMul fuel fabrics) (TestSlave.afterReset mvm, 0) beyond out
        = some s ∧
      slave.serve TestSlave.oWaitReq fuel (TestSlave.afterReset mvm)
        (callsTurns (busCalls fabrics s.calls)) = some ins ∧
      slave.run (TestSlave.afterReset mvm) ins = s.dev.1 ∧
      ins.length + 1 = 17025 * (p.filterNum * (p.filterBlocks * p.dataBlocks)) +
        ∑ i ∈ Finset.range p.filterNum, ∑ fb ∈ Finset.range p.filterBlocks,
          ∑ db ∈ Finset.range p.dataBlocks, p.blockClocks i fb db ∧
      (p.flattenNum ≤ 256 → ins.length + 1 = 17025 * (p.filterNum * p.filterBlocks) +
        ∑ i ∈ Finset.range p.filterNum, (∑ k ∈ Finset.range p.filterSize,
          max 1 (p.weightMat (k * p.filterNum + i)).toInt.natAbs + p.padding)) := by
  refine ⟨132, fun fuel hfuel => ?_⟩
  obtain ⟨s, hs, hran⟩ := blockedProduct_spec p (lawful_slaveMatMul hfuel fabrics)
    (slaveReady_afterReset mvm 0) beyond out
  have hdriven : Driven fuel fabrics (TestSlave.afterReset mvm) [] s :=
    driven_blockedProduct (.refl _) rfl hs
  obtain ⟨⟨ins, hins, hrun⟩, -⟩ := hdriven
  obtain ⟨hlen, hsum⟩ := hran.calls_clocks
  have hne : s.calls ≠ [] := by
    refine List.ne_nil_of_length_pos (hlen ▸ ?_)
    exact Nat.mul_pos hF (Nat.mul_pos (Nat.succ_pos _) (Nat.succ_pos _))
  have htotal := serve_busCalls mvm hgap hne hfuel hins
  rw [hlen, hsum] at htotal
  refine ⟨s, ins, hs, hins, hrun, htotal, fun hN => ?_⟩
  have hone : p.dataBlocks = 1 := by
    unfold dataBlocks
    omega
  rw [htotal, hone, Nat.mul_one]
  refine congrArg (_ + ·) (Finset.sum_congr rfl fun i _ => ?_)
  rw [← sum_blockClocks_zero]
  exact Finset.sum_congr rfl fun fb _ => Finset.sum_range_one _

/-- One row of 864 columns under six filters, with weights of zero. -/
theorem layer_clocks_zeroLayer :
    ∃ fuel₀, ∀ fuel, fuel₀ ≤ fuel → ∃ s ins,
      zeroLayer.blockedProduct (slaveMatMul fuel fun _ => directFabric)
        (TestSlave.afterReset MVM.cleared, 0) (fun _ => 0) (fun _ => 0) = some s ∧
      slave.run (TestSlave.afterReset MVM.cleared) ins = s.dev.1 ∧
      ins.length + 1 = 17025 * (6 * 7) + 6 * (864 + 32) := by
  have hgap : ∀ j k : Nat, ((fun _ => directFabric : Nat → Fabric) j).gap k = [] := fun _ _ => rfl
  obtain ⟨fuel₀, h⟩ := layer_clocks zeroLayer (show 1 ≤ 6 by decide) MVM.cleared hgap
    (fun _ => 0) (fun _ => 0)
  refine ⟨fuel₀, fun fuel hfuel => ?_⟩
  obtain ⟨s, ins, hs, -, hrun, -, hone⟩ := h fuel hfuel
  have hblocks : zeroLayer.filterNum = 6 ∧ zeroLayer.filterBlocks = 7 ∧ zeroLayer.padding = 32 := by
    decide
  have hone' := hone (by decide)
  have hweight : ∀ i, ∀ k ∈ Finset.range zeroLayer.filterSize,
      max 1 (zeroLayer.weightMat (k * zeroLayer.filterNum + i)).toInt.natAbs = 1 :=
    fun _ _ _ => rfl
  have hfilter : ∀ i ∈ Finset.range zeroLayer.filterNum, ∑ k ∈ Finset.range zeroLayer.filterSize,
      max 1 (zeroLayer.weightMat (k * zeroLayer.filterNum + i)).toInt.natAbs + zeroLayer.padding =
        zeroLayer.filterSize + 32 := by
    intro i _
    rw [Finset.sum_const_nat (hweight i), Finset.card_range, Nat.mul_one, hblocks.2.2]
  rw [Finset.sum_const_nat hfilter, Finset.card_range, hblocks.1, hblocks.2.1] at hone'
  exact ⟨s, ins, hs, hrun, hone'⟩

end Product

end DcnnFpga.Nios
