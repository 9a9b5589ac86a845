import DcnnFpga.Nios.LayerAccuracy
import DcnnFpga.Nios.ReadEvent

/-!
# From the serial line to the scores

The arrays of a layer come over the serial line, a sign and a magnitude for every
byte. `read_event` turns them into two's complement, and what it can store is short
of the one weight that takes a pass of 128 clocks. So two blocks of columns fit a
cell, and a score is within four units a column of the product of the values that
were sent (`loaded_scores`).
-/

namespace DcnnFpga.Nios

open Lib Product Rtl

/-- What a byte of the line stands for: a sign and seven bits of magnitude. -/
def wireValue (b : BitVec 8) : Int := if b.toNat < 128 then b.toNat else -(b.toNat - 128)

/-- `transform` keeps the value. -/
theorem toInt_transform : ∀ b : BitVec 8, (transform b).toInt = wireValue b := by
  decide +kernel

/-- -128 has no sign and magnitude. -/
theorem transform_ne : ∀ b : BitVec 8, transform b ≠ 0x80 := by
  decide +kernel

/-- The value of byte `j`. -/
def wireByte (bytes : List (BitVec 8)) (j : Nat) : Int := wireValue (bytes.getD j 0)

/-- A loaded cell holds the value of its byte. -/
theorem Loaded.toInt_wData {line : Nat → BitVec 32} {m offset n : Nat} {wData : Bytes} {s : Reader}
    (h : Loaded line m offset n wData s) {i : Nat} (hi : i < n) :
    (s.wData i).toInt = wireByte (received line m) (offset + i) ∧ s.wData i ≠ 0x80 := by
  obtain ⟨b, hb, hcell⟩ := h.filled i hi
  rw [hcell, toInt_transform, wireByte, List.getD_eq_getElem?_getD, hb]
  exact ⟨rfl, transform_ne b⟩

/-- 127 units for each column at most, with weights the loader can store. -/
theorem Product.entry_abs_le_of_loader (p : Product) {n i : Nat}
    (hweights : ∀ k < p.filterSize, p.weightMat (k * p.filterNum + i) ≠ 0x80) :
    |p.entry g n i| ≤ 127 * p.filterSize := by
  rw [entry]
  calc _ ≤ ∑ k ∈ Finset.range p.filterSize,
          |g (p.dataMat (n * p.filterSize + k)) (p.weightMat (k * p.filterNum + i))| :=
        Finset.abs_sum_le_sum_abs _ _
    _ ≤ ∑ _k ∈ Finset.range p.filterSize, (127 : Int) :=
        Finset.sum_le_sum fun k hk => g_abs_le_of_loader _ (hweights k (Finset.mem_range.mp hk))
    _ = 127 * p.filterSize := by
        rw [Finset.sum_const, Finset.card_range, nsmul_eq_mul, mul_comm]

/-- Two arrays, one after the other. -/
theorem readEvents_two {line : Nat → BitVec 32} {m a b : Nat} (ha : 1 ≤ a) (hb : 1 ≤ b)
    (henough : a + b ≤ (received line m).length) (par : BitVec 8) (dataArr weightArr : Bytes)
    {fuel : Nat} (hfuel : m < fuel) :
    ∃ d w, readEvents fuel line [(a, dataArr), (b, weightArr)] 0 par = some [d, w] ∧
      Loaded line m 0 a dataArr d ∧ Loaded line m a b weightArr w := by
  obtain ⟨d, hd, hloaded, hnext⟩ := readEvent_spec ha
    (show (received line 0).length = 0 from rfl) (by omega) par dataArr hfuel
  rw [Nat.zero_add] at hnext
  obtain ⟨w, hw, hloaded', -⟩ := readEvent_spec hb hnext henough d.par weightArr
    hfuel
  refine ⟨d, w, ?_, hloaded, hloaded'⟩
  rw [readEvents, hd, Option.bind_some, readEvents, hw, Option.bind_some, readEvents]
  rfl

/-- The scores of a layer whose data and then weights were sent over the line: each
is exactly a sum and the padding, the sum within four units a column of the product
of the values sent. -/
def ScoresSent (bytes : List (BitVec 8)) (p : Product) (out : Nat → BitVec 16) : Prop :=
  ∀ n i, n < p.flattenNum → i < p.filterNum →
    ∃ S : Int, (out (n * p.filterNum + i)).toInt = S + p.padding ∧
      |128 * S - ∑ k ∈ Finset.range p.filterSize, wireByte bytes (n * p.filterSize + k) *
        wireByte bytes (p.flattenNum * p.filterSize + (k * p.filterNum + i))| ≤ 512 * p.filterSize

/-- They depend on the bytes of the data and of the weights alone. -/
theorem ScoresSent.congr {bytes bytes' : List (BitVec 8)} {p : Product} {out : Nat → BitVec 16}
    (h : ScoresSent bytes p out)
    (heq : ∀ j < p.flattenNum * p.filterSize + p.filterSize * p.filterNum,
      wireByte bytes j = wireByte bytes' j) : ScoresSent bytes' p out := by
  intro n i hn hi
  obtain ⟨S, hout, hclose⟩ := h n i hn hi
  refine ⟨S, hout, ?_⟩
  have hsum : ∑ k ∈ Finset.range p.filterSize, wireByte bytes (n * p.filterSize + k) *
        wireByte bytes (p.flattenNum * p.filterSize + (k * p.filterNum + i)) =
      ∑ k ∈ Finset.range p.filterSize, wireByte bytes' (n * p.filterSize + k) *
        wireByte bytes' (p.flattenNum * p.filterSize + (k * p.filterNum + i)) := by
    refine Finset.sum_congr rfl fun k hk => ?_
    have hk' := Finset.mem_range.mp hk
    have hdata := row_major_lt hn hk'
    have hweight := row_major_lt hk' hi
    rw [heq _ (by omega), heq _ (by omega)]
  rwa [hsum] at hclose

/-- One block of rows, and at most two of columns. -/
theorem Product.Ran.scoresSent {σ : Type} {bytes : List (BitVec 8)} {p : Product}
    {s : Locals σ} (hran : Ran p (Multiplies g) (fun _ => 0) (p.positions p.filterNum) s)
    (hN : p.flattenNum ≤ 256) (hK : 1 ≤ p.filterSize) (hK' : p.filterSize ≤ 256)
    (hdata : ∀ j < p.flattenNum * p.filterSize, (p.dataMat j).toInt = wireByte bytes j)
    (hweight : ∀ j < p.filterSize * p.filterNum,
      (p.weightMat j).toInt = wireByte bytes (p.flattenNum * p.filterSize + j) ∧
        p.weightMat j ≠ 0x80) :
    ScoresSent bytes p s.outputMat := by
  intro n i hn hi
  refine ⟨p.entry g n i, ?_, ?_⟩
  · have habs := abs_le.mp (p.entry_abs_le_of_loader (n := n) (i := i) fun k hk =>
      (hweight _ (row_major_lt hk hi)).2)
    have hpad := p.filterSize_add_padding
    have hblocks : p.filterBlocks = (p.filterSize - 1) / 128 + 1 := rfl
    rw [hran.output_first hn (by omega) hi, BitVec.toInt_ofInt,
      Int.bmod_eq_of_le (by omega) (by omega)]
  · have hentry : p.entry exactProduct n i = ∑ k ∈ Finset.range p.filterSize,
        wireByte bytes (n * p.filterSize + k) *
          wireByte bytes (p.flattenNum * p.filterSize + (k * p.filterNum + i)) := by
      refine Finset.sum_congr rfl fun k hk => ?_
      have hk' := Finset.mem_range.mp hk
      rw [exactProduct, hdata _ (row_major_lt hn hk'), (hweight _ (row_major_lt hk' hi)).1]
    rw [← hentry]
    exact p.entry_accurate n i

section Layer

variable {imageH imageW filterHeight filterWeight filterNum : Nat}
  {line : Nat → BitVec 32} {m : Nat}

/-- A layer on the slave, of what two calls have left. -/
theorem loaded_layer (hN : imageH * imageW ≤ 256) (hK : 1 ≤ filterHeight * filterWeight)
    (hK' : filterHeight * filterWeight ≤ 256) {dataArr weightArr : Bytes} {d w : Reader}
    (hd : Loaded line m 0 (imageH * imageW * (filterHeight * filterWeight)) dataArr d)
    (hw : Loaded line m (imageH * imageW * (filterHeight * filterWeight))
      (filterHeight * filterWeight * filterNum) weightArr w)
    {fuel : Nat} (hfuel : 132 ≤ fuel) (fabrics : Nat → Fabric) (s : TestSlave) (j : Input) (k : Nat)
    (beyond : Bytes) :
    ∃ t, Product.fullyConnencted
        ⟨d.wData, imageH, imageW, w.wData, filterHeight, filterWeight, filterNum⟩
        (slaveMatMul fuel fabrics) (s.clock { j with iRstCtrl := true }, k) beyond (fun _ => 0)
          = some t ∧
      ScoresSent (received line m)
        ⟨d.wData, imageH, imageW, w.wData, filterHeight, filterWeight, filterNum⟩
        t.outputMat := by
  obtain ⟨t, ht, hran⟩ := blockedProduct_spec
    ⟨d.wData, imageH, imageW, w.wData, filterHeight, filterWeight, filterNum⟩
    (lawful_slaveMatMul hfuel fabrics) (slaveReady_reset s j k) beyond fun _ => 0
  refine ⟨t, ht, hran.scoresSent hN hK hK' (fun i hi => ?_) fun i hi => ?_⟩
  · rw [(hd.toInt_wData hi).1, Nat.zero_add]
  · exact hw.toInt_wData hi

/-- **From the line to the scores**: the data and then the weights are read off the
serial line, and `fully_connencted` runs on the slave after a clock of reset from any
registers. -/
theorem loaded_scores (line : Nat → BitVec 32) {m : Nat}
    (hN : 1 ≤ imageH * imageW) (hN' : imageH * imageW ≤ 256)
    (hK : 1 ≤ filterHeight * filterWeight) (hK' : filterHeight * filterWeight ≤ 256)
    (hF : 1 ≤ filterNum)
    (henough : imageH * imageW * (filterHeight * filterWeight) +
      filterHeight * filterWeight * filterNum ≤ (received line m).length)
    (dataArr weightArr : Bytes) (par : BitVec 8) (s : TestSlave) (j : Input) (k : Nat)
    (fabrics : Nat → Fabric) (beyond : Bytes) :
    ∃ fuel₀, ∀ fuel, fuel₀ ≤ fuel →
      ∃ d w t,
        readEvents fuel line [(imageH * imageW * (filterHeight * filterWeight), dataArr),
          (filterHeight * filterWeight * filterNum, weightArr)] 0 par = some [d, w] ∧
        Product.fullyConnencted
          ⟨d.wData, imageH, imageW, w.wData, filterHeight, filterWeight, filterNum⟩
          (slaveMatMul fuel fabrics) (s.clock { j with iRstCtrl := true }, k) beyond (fun _ => 0)
            = some t ∧
        ScoresSent (received line m)
          ⟨d.wData, imageH, imageW, w.wData, filterHeight, filterWeight, filterNum⟩
          t.outputMat := by
  refine ⟨max 132 (m + 1), fun fuel hfuel => ?_⟩
  obtain ⟨d, w, hread, hd, hw⟩ := readEvents_two (Nat.mul_pos hN hK) (Nat.mul_pos hK hF) henough
    par dataArr weightArr (show m < fuel by omega)
  obtain ⟨t, ht, hscores⟩ := loaded_layer hN' hK hK' hd hw (show 132 ≤ fuel by omega) fabrics s j k
    beyond
  exact ⟨d, w, t, hread, ht, hscores⟩

end Layer

/-- The data 2, -3, 127, 5 and the weights 1, -1, 64, -127, polled with gaps. -/
def eightBytes (k : Nat) : BitVec 32 :=
  [0, 0x8002, 0x8083, 0, 0, 0x807f, 0x8005, 0x8001, 0x8081, 0, 0x8040, 0x80ff].getD k 0

/-- Two rows of two columns, under two filters. -/
theorem loaded_scores_eightBytes :
    ∃ fuel₀, ∀ fuel, fuel₀ ≤ fuel →
      ∃ d w t,
        readEvents fuel eightBytes [(2 * 1 * (1 * 2), fun _ => 0), (1 * 2 * 2, fun _ => 0)] 0 0 =
          some [d, w] ∧
        Product.fullyConnencted ⟨d.wData, 2, 1, w.wData, 1, 2, 2⟩
          (slaveMatMul fuel fun _ => directFabric)
          (corrupt.clock { idleInput 0 with iRstCtrl := true }, 0) (fun _ => 0x77) (fun _ => 0)
            = some t ∧
        ScoresSent (received eightBytes 12) ⟨d.wData, 2, 1, w.wData, 1, 2, 2⟩ t.outputMat :=
  loaded_scores eightBytes (by decide) (by decide) (by decide) (by decide) (by decide) (by decide)
    (fun _ => 0) (fun _ => 0) 0 corrupt (idleInput 0) 0 (fun _ => directFabric) fun _ => 0x77

end DcnnFpga.Nios
