import DcnnFpga.Lib.Wrap
import DcnnFpga.Nios.Blocks
import Mathlib.Algebra.Order.BigOperators.Group.Finset

/-!
# The blocked product as a matrix product

When `mat_mul` sums a function `h` of a data byte and a weight byte over the 128
columns of a block (`Multiplies h`), an output cell grows by the sum over all
columns of all its blocks, padding included (`Ran.output_eq`). With one block of
rows the weights are those of the column, so it grows by the product of its row
and its column and by `h 0 0` for every padded column (`Ran.output_one_block`).
With several blocks of rows the weight pointer of the second block stands where
the first one left it, and the product is lost (`shifted`).
-/

namespace DcnnFpga.Nios

open Lib

/-- A call among those of one filter and one row block. -/
theorem Call.eq_of_positions {calls : List Call} {i db k : Nat}
    (h : calls.map Call.position = (List.range k).map fun fb => (i, fb, db)) {c : Call}
    (hc : c ∈ calls) : c.i = i ∧ c.fb < k ∧ c.db = db := by
  have hpos : c.position ∈ (List.range k).map fun fb => (i, fb, db) :=
    h ▸ List.mem_map_of_mem hc
  obtain ⟨fb, hfb, heq⟩ := List.mem_map.mp hpos
  rw [Call.position, Prod.mk.injEq, Prod.mk.injEq] at heq
  obtain ⟨rfl, rfl, rfl⟩ := heq
  exact ⟨rfl, List.mem_range.mp hfb, rfl⟩

namespace Product

variable {σ : Type} {p : Product}

/-- `mat_mul` sums `h` over the 128 columns, modulo 2 ^ 16. -/
def Multiplies (h : BitVec 8 → BitVec 8 → Int) (block : Bytes) (result : Nat → BitVec 16) : Prop :=
  ∀ r, r < 256 → result r =
    BitVec.ofInt 16 (∑ c ∈ Finset.range 128, h (block (r * 128 + c)) (block (256 * 128 + c)))

/-- The sum of a block for row `n` of filter `i`. -/
def blockSum (p : Product) (h : BitVec 8 → BitVec 8 → Int) (i n fb : Nat) : Int :=
  ∑ c ∈ Finset.range 128, h (p.dataCell fb n c) (p.weightCell i fb (n / 256) c)

/-- The entry of the matrix product that `blockedProduct` is after. -/
def entry (p : Product) (h : BitVec 8 → BitVec 8 → Int) (n i : Nat) : Int :=
  ∑ k ∈ Finset.range p.filterSize,
    h (p.dataMat (n * p.filterSize + k)) (p.weightMat (k * p.filterNum + i))

/-! ## The calls of one output cell -/

theorem filter_rowBlocks {i fb db i' k : Nat} (hdb : db < k) :
    (rowBlocks i' fb k).filter (fun q => q.1 = i ∧ q.2.2 = db) =
      if i' = i then [(i, fb, db)] else [] := by
  have hsingle : ∀ x : Nat, [(i', fb, x)].filter (fun q => q.1 = i ∧ q.2.2 = db) =
      if i' = i ∧ x = db then [(i', fb, x)] else [] := by
    intro x
    by_cases hx : i' = i ∧ x = db
    · rw [if_pos hx, List.filter_cons_of_pos (by simpa using hx), List.filter_nil]
    · rw [if_neg hx, List.filter_cons_of_neg (by simpa using hx), List.filter_nil]
  rw [rowBlocks, List.map_eq_flatMap, List.filter_flatMap,
    flatMap_range_single hdb fun x hx => ?_]
  · rw [hsingle]
    by_cases hi : i' = i
    · rw [if_pos ⟨hi, rfl⟩, if_pos hi, hi]
    · rw [if_neg fun h => hi h.1, if_neg hi]
  · rw [hsingle, if_neg fun h => hx h.2]

/-- The blocks for filter `i` and row block `db`: one for each column block. -/
theorem filter_positions {i db : Nat} (hi : i < p.filterNum) (hdb : db < p.dataBlocks) :
    (p.positions p.filterNum).filter (fun q => q.1 = i ∧ q.2.2 = db) =
      (List.range p.filterBlocks).map fun fb => (i, fb, db) := by
  have hcolumn : ∀ i', (p.columnBlocks i' p.filterBlocks).filter (fun q => q.1 = i ∧ q.2.2 = db) =
      if i' = i then (List.range p.filterBlocks).map fun fb => (i, fb, db) else [] := by
    intro i'
    rw [columnBlocks, List.filter_flatMap]
    by_cases h : i' = i
    · rw [if_pos h, List.map_eq_flatMap]
      congr 1
      funext fb
      rw [filter_rowBlocks hdb, if_pos h]
    · rw [if_neg h, List.flatMap_eq_nil_iff]
      intro fb _
      rw [filter_rowBlocks hdb, if_neg h]
  rw [positions, List.filter_flatMap, flatMap_range_single hi fun i' hi' => ?_]
  · rw [hcolumn, if_pos rfl]
  · rw [hcolumn, if_neg hi']

/-- A row in range lies in one of the row blocks. -/
theorem div_lt_dataBlocks {n : Nat} (hn : n < p.flattenNum) : n / 256 < p.dataBlocks := by
  unfold dataBlocks
  omega

section Run

variable {R : Bytes → (Nat → BitVec 16) → Prop} {out : Nat → BitVec 16} {s : Locals σ}
  {n i : Nat}

/-- The results an output cell has taken in, one for each column block in order. -/
theorem Ran.tally_eq (hran : Ran p R out (p.positions p.filterNum) s) (hn : n < p.flattenNum)
    (hi : i < p.filterNum) :
    ∃ calls : List Call, p.tally s.calls (n * p.filterNum + i) = calls.map (·.result (n % 256)) ∧
      calls.map Call.position = (List.range p.filterBlocks).map (fun fb => (i, fb, n / 256)) ∧
      ∀ c ∈ calls, c ∈ s.calls := by
  refine ⟨s.calls.filter fun c => c.i = i ∧ c.db = n / 256, ?_, ?_, fun c hc =>
    (List.mem_filter.mp hc).1⟩
  · rw [tally, Nat.mul_add_mod_of_lt hi, row_major_div hi]
  · rw [← filter_positions hi (div_lt_dataBlocks hn), ← hran.positions, List.filter_map]
    rfl

/-- A call of this cell returned the block's sum. -/
theorem Ran.result_eq {h : BitVec 8 → BitVec 8 → Int}
    (hran : Ran p (Multiplies h) out (p.positions p.filterNum) s) {c : Call} (hc : c ∈ s.calls)
    (hci : c.i = i) (hdb : c.db = n / 256) :
    c.result (n % 256) = BitVec.ofInt 16 (p.blockSum h i n c.fb) := by
  obtain ⟨m, hm⟩ := hran.filled c hc
  have hr : n % 256 < 256 := Nat.mod_lt _ (by decide)
  rw [hran.answered c hc _ hr, blockSum]
  refine congrArg (BitVec.ofInt 16) (Finset.sum_congr rfl fun k hk => ?_)
  have hk' := Finset.mem_range.mp hk
  rw [hm, filledBlock, filledBlock, if_pos (by omega), if_neg (by omega), if_pos (by omega), hci,
    hdb, show n / 256 * 256 + (n % 256 * 128 + k) / 128 = n by omega,
    show (n % 256 * 128 + k) % 128 = k by omega, show (256 * 128 + k) % 128 = k by omega]

/-- **The output of a run**: each cell has grown by the sums of its blocks. -/
theorem Ran.output_eq {h : BitVec 8 → BitVec 8 → Int}
    (hran : Ran p (Multiplies h) out (p.positions p.filterNum) s) (hn : n < p.flattenNum)
    (hi : i < p.filterNum) :
    s.outputMat (n * p.filterNum + i) = out (n * p.filterNum + i) +
      BitVec.ofInt 16 (∑ fb ∈ Finset.range p.filterBlocks, p.blockSum h i n fb) := by
  obtain ⟨calls, htally, hpositions, hmem⟩ := hran.tally_eq hn hi
  -- the results in terms of the blocks they belong to
  have hresults : calls.map (·.result (n % 256)) =
      (calls.map Call.position).map fun q => BitVec.ofInt 16 (p.blockSum h i n q.2.1) := by
    rw [List.map_map]
    refine List.map_congr_left fun c hc => ?_
    obtain ⟨hci, -, hdb⟩ := Call.eq_of_positions hpositions hc
    exact hran.result_eq (hmem c hc) hci hdb
  have hsum : ((List.range p.filterBlocks).map fun fb => BitVec.ofInt 16 (p.blockSum h i n fb)).sum
      = BitVec.ofInt 16 (∑ fb ∈ Finset.range p.filterBlocks, p.blockSum h i n fb) := by
    have hmap := sum_map_ofInt (w := 16) ((List.range p.filterBlocks).map (p.blockSum h i n))
    rw [List.map_map] at hmap
    exact hmap
  rw [hran.output, row_major_div hi, if_pos hn, htally, hresults, hpositions, List.map_map]
  exact congrArg (out _ + ·) hsum

end Run

/-! ## One block of rows -/

/-- Columns of the last block that are out of range. -/
def padding (p : Product) : Nat := p.filterBlocks * 128 - p.filterSize

/-- In the first row block the weights are those of the column. -/
theorem weightIndex_zero (p : Product) (i fb c : Nat) :
    p.weightIndex i fb 0 c = (fb * 128 + c) * p.filterNum + i := by
  unfold weightIndex
  ring

theorem filterSize_add_padding (p : Product) :
    p.filterSize + p.padding = p.filterBlocks * 128 := by
  unfold padding filterBlocks
  omega

/-- All blocks of a row of the first row block: the entry of the product, and
`h 0 0` for every padded column. -/
theorem sum_blockSum (p : Product) (h : BitVec 8 → BitVec 8 → Int) {n : Nat} (i : Nat)
    (hn : n < p.flattenNum) (hn' : n < 256) :
    ∑ fb ∈ Finset.range p.filterBlocks, p.blockSum h i n fb =
      p.entry h n i + p.padding * h 0 0 := by
  -- one summand for each column of the filled blocks, padding included
  set f : Nat → Int := fun k =>
    if k < p.filterSize then
      h (p.dataMat (n * p.filterSize + k)) (p.weightMat (k * p.filterNum + i))
    else h 0 0 with hf
  have hblock : ∀ fb, p.blockSum h i n fb = ∑ c ∈ Finset.range 128, f (fb * 128 + c) := by
    intro fb
    refine Finset.sum_congr rfl fun c _ => ?_
    rw [hf, dataCell, weightCell, Nat.div_eq_of_lt hn', weightIndex_zero]
    beta_reduce
    by_cases hin : fb * 128 + c < p.filterSize
    · rw [if_pos ⟨hn, hin⟩, if_pos hin, if_pos hin]
    · rw [if_neg fun hc => hin hc.2, if_neg hin, if_neg hin]
  have hentry : ∑ k ∈ Finset.range p.filterSize, f k = p.entry h n i :=
    Finset.sum_congr rfl fun k hk => if_pos (Finset.mem_range.mp hk)
  have hpad : ∀ k, f (p.filterSize + k) = h 0 0 := fun k => if_neg (by omega)
  calc ∑ fb ∈ Finset.range p.filterBlocks, p.blockSum h i n fb
      = ∑ k ∈ Finset.range (p.filterBlocks * 128), f k := by
        rw [sum_range_mul]
        exact Finset.sum_congr rfl fun fb _ => hblock fb
    _ = p.entry h n i + ∑ k ∈ Finset.range p.padding, f (p.filterSize + k) := by
        rw [← filterSize_add_padding, Finset.sum_range_add, hentry]
    _ = p.entry h n i + p.padding * h 0 0 := by
        rw [Finset.sum_congr rfl fun k _ => hpad k, Finset.sum_const, Finset.card_range,
          nsmul_eq_mul]

/-- The output of a run over one block of rows. -/
theorem Ran.output_one_block {h : BitVec 8 → BitVec 8 → Int} {out : Nat → BitVec 16}
    {s : Locals σ} {n i : Nat} (hran : Ran p (Multiplies h) out (p.positions p.filterNum) s)
    (hN : p.flattenNum ≤ 256) (hn : n < p.flattenNum) (hi : i < p.filterNum) :
    s.outputMat (n * p.filterNum + i) = out (n * p.filterNum + i) +
      BitVec.ofInt 16 (p.entry h n i + p.padding * h 0 0) := by
  rw [hran.output_eq hn hi, sum_blockSum p h i hn (by omega)]

/-! ## The product law -/

/-- `mat_mul` as an ideal product: no device, and the sums of `h`. -/
def idealMatMul (h : BitVec 8 → BitVec 8 → Int) : MatMul Unit := fun _ block _ =>
  some ((), fun r => BitVec.ofInt 16
    (∑ c ∈ Finset.range 128, h (block (r * 128 + c)) (block (256 * 128 + c))))

theorem lawful_idealMatMul (h : BitVec 8 → BitVec 8 → Int) :
    Lawful (idealMatMul h) (fun _ => True) (Multiplies h) :=
  fun _ _ _ _ => ⟨(), _, rfl, trivial, fun _ _ => rfl⟩

/-- Every output cell has grown by its entry of the product. -/
def Grown (p : Product) (h : BitVec 8 → BitVec 8 → Int) (out out' : Nat → BitVec 16) : Prop :=
  ∀ n i, n < p.flattenNum → i < p.filterNum →
    out' (n * p.filterNum + i) = out (n * p.filterNum + i) + BitVec.ofInt 16 (p.entry h n i)

/-- For these sizes both functions compute the matrix product: with any data, any
weights, any memory behind the arrays, and any `mat_mul` that sums a function of
the two bytes that is 0 at the padding. -/
def ComputesProduct (imageH imageW filterHeight filterWeight filterNum : Nat) : Prop :=
  ∀ (σ : Type) (matMul : MatMul σ) (h : BitVec 8 → BitVec 8 → Int) (dev : σ)
    (dataMat weightMat beyond tempFmap : Bytes) (out : Nat → BitVec 16),
    h 0 0 = 0 → Lawful matMul (fun _ => True) (Multiplies h) →
    let p : Product :=
      ⟨dataMat, imageH, imageW, weightMat, filterHeight, filterWeight, filterNum⟩
    (∃ s cube, p.conv matMul dev beyond tempFmap out = some (s, cube) ∧
      p.Grown h out s.outputMat) ∧
    ∃ s, p.fullyConnencted matMul dev beyond out = some s ∧ p.Grown h out s.outputMat

/-- One block of rows: the padding adds nothing, and the product is right. -/
theorem computesProduct_of_le {imageH imageW : Nat} (filterHeight filterWeight filterNum : Nat)
    (hN : imageH * imageW ≤ 256) :
    ComputesProduct imageH imageW filterHeight filterWeight filterNum := by
  intro σ matMul h dev dataMat weightMat beyond tempFmap out h0 hmat p
  obtain ⟨s, hs, hran⟩ := blockedProduct_spec p hmat (show (fun _ => True) dev from trivial)
    beyond out
  have hgrown : p.Grown h out s.outputMat := by
    intro n i hn hi
    rw [hran.output_one_block hN hn hi, h0, mul_zero, add_zero]
  exact ⟨⟨s, _, by rw [conv, hs]; rfl, hgrown⟩, s, hs, hgrown⟩

/-! ## Several blocks of rows -/

/-- 1 at a pair of ones, 0 elsewhere. -/
def bothOne (x w : BitVec 8) : Int := if x = 1 ∧ w = 1 then 1 else 0

/-- Data and weights with a single one each: row 256, column 0 of the data, and
the weight at which `f_ptr` stands when the second row block begins. -/
def shifted (imageH imageW filterHeight filterWeight filterNum : Nat) : Product where
  dataMat := fun j => if j = 256 * (filterHeight * filterWeight) then 1 else 0
  imageH := imageH
  imageW := imageW
  weightMat := fun j =>
    if j = min 128 (filterHeight * filterWeight) * filterNum then 1 else 0
  filterHeight := filterHeight
  filterWeight := filterWeight
  filterNum := filterNum

section Shifted

variable {imageH imageW filterHeight filterWeight filterNum : Nat}

/-- The product has a 0 at row 256 of filter 0: the one in the data meets weight 0. -/
theorem entry_shifted (hK : 1 ≤ filterHeight * filterWeight) (hF : 1 ≤ filterNum) :
    (shifted imageH imageW filterHeight filterWeight filterNum).entry bothOne 256 0 = 0 := by
  have hpos : 0 < min 128 (filterHeight * filterWeight) * filterNum :=
    Nat.mul_pos (by omega) hF
  refine Finset.sum_eq_zero fun k _ => if_neg ?_
  rintro ⟨hdata, hweight⟩
  have hk : k = 0 := by
    by_contra hk
    rw [shifted, filterSize] at hdata
    dsimp only at hdata
    rw [if_neg (by omega)] at hdata
    cases hdata
  subst hk
  rw [shifted] at hweight
  dsimp only at hweight
  rw [Nat.zero_mul, Nat.add_zero, if_neg (by omega)] at hweight
  cases hweight

/-- The run pairs that one with the weight `blockWidth 0` rows further down. -/
theorem sum_blockSum_shifted (hN : 256 < imageH * imageW)
    (hK : 1 ≤ filterHeight * filterWeight) :
    ∑ fb ∈ Finset.range
        (shifted imageH imageW filterHeight filterWeight filterNum).filterBlocks,
      (shifted imageH imageW filterHeight filterWeight filterNum).blockSum bothOne 0 256 fb
        = 1 := by
  set p := shifted imageH imageW filterHeight filterWeight filterNum with hp
  -- the only data byte that is 1 is the first of its row
  have hdata : ∀ fb c, p.dataCell fb 256 c = 1 → fb = 0 ∧ c = 0 := by
    intro fb c hone
    rw [dataCell] at hone
    split at hone
    next hin =>
      have hindex : (if 256 * p.filterSize + (fb * 128 + c) = 256 * p.filterSize
          then (1 : BitVec 8) else 0) = 1 := hone
      split at hindex
      next heq => omega
      next => cases hindex
    next => cases hone
  have hfirst : bothOne (p.dataCell 0 256 0) (p.weightCell 0 0 1 0) = 1 := by
    have hin : 256 < p.flattenNum ∧ 0 * 128 + 0 < p.filterSize := ⟨hN, hK⟩
    have hindex : p.weightIndex 0 0 1 0 = min 128 p.filterSize * p.filterNum := by
      unfold weightIndex blockWidth
      rw [Nat.zero_mul, Nat.sub_zero]
      ring
    rw [dataCell, weightCell, if_pos hin, if_pos hin.2, hindex]
    refine if_pos ⟨if_pos (Nat.add_zero _), if_pos rfl⟩
  rw [Finset.sum_eq_single_of_mem 0
      (Finset.mem_range.mpr (show 0 < p.filterBlocks from Nat.succ_pos _)) fun fb _ hfb => ?_,
    blockSum, Finset.sum_eq_single_of_mem 0 (Finset.mem_range.mpr (by decide)) fun c _ hc => ?_]
  · exact hfirst
  · exact if_neg fun hone => hc (hdata 0 c hone.1).2
  · exact Finset.sum_eq_zero fun c _ => if_neg fun hone => hfb (hdata fb c hone.1).1

/-- So every run leaves a 1 in that cell. -/
theorem outputMat_shifted (hN : 256 < imageH * imageW) (hK : 1 ≤ filterHeight * filterWeight)
    (hF : 1 ≤ filterNum) {beyond : Bytes} {s : Locals Unit}
    (hrun : (shifted imageH imageW filterHeight filterWeight filterNum).blockedProduct
      (idealMatMul bothOne) () beyond (fun _ => 0) = some s) :
    s.outputMat (256 * filterNum + 0) = 1 := by
  have hran := (blockedProduct_ran (lawful_idealMatMul bothOne).sound trivial hrun).1
  have hcell := hran.output_eq (n := 256) (i := 0) hN hF
  rw [sum_blockSum_shifted hN hK] at hcell
  exact hcell

theorem not_computesProduct (hN : 256 < imageH * imageW)
    (hK : 1 ≤ filterHeight * filterWeight) (hF : 1 ≤ filterNum) :
    ¬ ComputesProduct imageH imageW filterHeight filterWeight filterNum := by
  intro hlaw
  set p := shifted imageH imageW filterHeight filterWeight filterNum with hp
  obtain ⟨-, s, hs, hgrown⟩ := hlaw Unit (idealMatMul bothOne) bothOne () p.dataMat p.weightMat
    (fun _ => 0) (fun _ => 0) (fun _ => 0) (by decide) (lawful_idealMatMul bothOne)
  have hcell : s.outputMat (256 * filterNum + 0)
      = 0 + BitVec.ofInt 16 (p.entry bothOne 256 0) := hgrown 256 0 hN hF
  have hentry : p.entry bothOne 256 0 = 0 := entry_shifted hK hF
  rw [outputMat_shifted hN hK hF hs, hentry] at hcell
  cases hcell

end Shifted

/-- **The product law** holds of `conv` and `fully_connencted` for the sizes with
one block of rows, and for no others. -/
theorem computesProduct_iff {imageH imageW filterHeight filterWeight filterNum : Nat}
    (hfh : 1 ≤ filterHeight) (hfw : 1 ≤ filterWeight) (hF : 1 ≤ filterNum) :
    ComputesProduct imageH imageW filterHeight filterWeight filterNum ↔
      imageH * imageW ≤ 256 := by
  constructor
  · intro hlaw
    by_contra hN
    exact not_computesProduct (by omega) (Nat.mul_pos hfh hfw) hF hlaw
  · exact computesProduct_of_le filterHeight filterWeight filterNum

/-- At the sizes of the second convolution, called with several blocks of rows. -/
theorem computesProduct_iff_second_conv : ComputesProduct 36 27 1 400 16 ↔ 36 * 27 ≤ 256 :=
  computesProduct_iff (by decide) (by decide) (by decide)

/-- At the sizes of the second convolution, with all bytes 0 but one of the data
and one of the weights (both inside their arrays), `conv` adds 1 to a cell to
which the product adds 0. The law fails at the sizes of both callers. -/
theorem not_computesProduct_callers :
    (∃ s cube, (shifted 36 27 1 400 16).conv (idealMatMul bothOne) () (fun _ => 0) (fun _ => 0)
        (fun _ => 0) = some (s, cube) ∧ s.outputMat (256 * 16 + 0) = 1) ∧
      (shifted 36 27 1 400 16).entry bothOne 256 0 = 0 ∧
      ¬ ComputesProduct 36 27 1 400 16 ∧ ¬ ComputesProduct 40 31 10 10 16 := by
  refine ⟨?_, entry_shifted (by decide) (by decide), ?_, ?_⟩
  · obtain ⟨s, hs⟩ := blockedProduct_total (shifted 36 27 1 400 16) (lawful_idealMatMul bothOne)
      (show (fun _ => True) () from trivial) (fun _ => 0) (fun _ => 0)
    exact ⟨s, _, by rw [conv, hs]; rfl,
      outputMat_shifted (by decide) (by decide) (by decide) hs⟩
  · exact not_computesProduct (by decide) (by decide) (by decide)
  · exact not_computesProduct (by decide) (by decide) (by decide)

end Product

end DcnnFpga.Nios
