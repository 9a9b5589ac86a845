import DcnnFpga.Lib.Memory
import DcnnFpga.Nios.MatMul
import Mathlib.Tactic.Ring

/-!
# The layout of feature maps (`hello_world.c`)

`flatten_matrix` writes one row per filter position, all positions of one column
before the next column; `matrix_to_imageCube` reads the rows of the product back
in that order. Both are nested loops around one assignment, so each is a list of
values: `patches` for the first, `imageCells` for the second. That the two orders
belong together is `layout_is_convolution`.

All `int` arithmetic is on indices and sizes of arrays the caller has, and is
modelled by natural numbers.
-/

namespace DcnnFpga.Nios

open Lib

/-- `flatten_matrix`. -/
def flattenMatrix (flattenedMatrix inputFmap : Bytes)
    (inputFmapH inputFmapW filterH filterW depth : Nat) : Tape (BitVec 8) :=
  whileUp (fun w => decide (w + filterW ≤ inputFmapW)) 1 (inputFmapW + 1) Nat.one_pos
    (fun w hw => by have := of_decide_eq_true hw; omega)
    (fun w t =>
      whileUp (fun h => decide (h + filterH ≤ inputFmapH)) 1 (inputFmapH + 1) Nat.one_pos
        (fun h hh => by have := of_decide_eq_true hh; omega)
        (fun h t =>
          forN filterH (fun hIn t =>
            forN filterW (fun wIn t =>
              forN depth (fun dIn t =>
                t.push (inputFmap
                  ((h + hIn) * depth * inputFmapW + (w + wIn) * depth + dIn))) t) t) t)
        0 t)
    0 (Tape.start flattenedMatrix)

/-- `truncation`. -/
def truncation (data : BitVec 16) : BitVec 8 :=
  if data.toInt > 127 then 127
  else if data.toInt < 0 then 0
  else data.setWidth 8

/-- `matrix_to_imageCube`. -/
def matrixToImageCube (matrixResult : Nat → BitVec 16) (oFmap : Bytes)
    (height width depth : Nat) : Store (BitVec 8) :=
  forN depth (fun d s =>
    forN width (fun w s =>
      forN height (fun h s =>
        s.set (h * width * depth + w * depth + d,
          truncation (matrixResult (d + (h + w * height) * depth)))) s) s)
    ⟨oFmap, []⟩

theorem truncation_eq (data : BitVec 16) :
    truncation data = BitVec.ofInt 8 (min 127 (max 0 data.toInt)) := by
  unfold truncation
  split
  next h => rw [max_eq_right (by omega), min_eq_left (by omega)]; rfl
  next h =>
    split
    next h' => rw [max_eq_left (by omega), min_eq_right (by omega)]; rfl
    next h' =>
      rw [max_eq_right (by omega), min_eq_right (by omega)]
      apply BitVec.eq_of_toNat_eq
      have hpos : data.toInt = data.toNat := by
        rw [BitVec.toInt_eq_toNat_cond] at h h' ⊢
        split at h <;> omega
      rw [BitVec.toNat_setWidth, BitVec.toNat_ofInt, hpos]
      omega

/-! ## Rows -/

/-- Element `[h][w][d]` of a map with `W` columns and `D` channels. -/
def cell (W D h w d : Nat) : Nat := (h * W + w) * D + d

/-- One row of the flattened matrix: the filter window at column `w`, row `h`. -/
def patch (inputFmap : Bytes) (W filterH filterW depth w h : Nat) : List (BitVec 8) :=
  (List.range filterH).flatMap fun hIn =>
    (List.range filterW).flatMap fun wIn =>
      (List.range depth).map fun dIn =>
        inputFmap ((h + hIn) * depth * W + (w + wIn) * depth + dIn)

/-- The flattened matrix. -/
def patches (inputFmap : Bytes) (H W filterH filterW depth : Nat) : List (BitVec 8) :=
  (List.range (W + 1 - filterW)).flatMap fun w =>
    (List.range (H + 1 - filterH)).flatMap fun h => patch inputFmap W filterH filterW depth w h

/-- The two running loops visit every position once, column by column. -/
theorem flattenMatrix_eq (flattenedMatrix inputFmap : Bytes) (H W filterH filterW depth : Nat) :
    flattenMatrix flattenedMatrix inputFmap H W filterH filterW depth =
      (patches inputFmap H W filterH filterW depth).foldl Tape.push
        (Tape.start flattenedMatrix) := by
  unfold flattenMatrix patches
  rw [whileUp_eq_forN (n := W + 1 - filterW) (fun w => by rw [decide_eq_true_eq]; omega),
    ← forN_foldl]
  refine forN_congr (fun w _ t => ?_) _
  rw [whileUp_eq_forN (n := H + 1 - filterH) (fun h => by rw [decide_eq_true_eq]; omega),
    ← forN_foldl]
  refine forN_congr (fun h _ t => ?_) _
  unfold patch
  rw [← forN_foldl]
  refine forN_congr (fun hIn _ t => ?_) _
  rw [← forN_foldl]
  refine forN_congr (fun wIn _ t => ?_) _
  rw [← forN_foldl_map, Nat.zero_add, Nat.zero_add, Nat.mul_one, Nat.mul_one]

theorem length_patch (inputFmap : Bytes) (W filterH filterW depth w h : Nat) :
    (patch inputFmap W filterH filterW depth w h).length = filterH * (filterW * depth) :=
  length_flatMap_range fun _ _ => length_flatMap_range fun _ _ => by
    rw [List.length_map, List.length_range]

theorem length_patches (inputFmap : Bytes) (H W filterH filterW depth : Nat) :
    (patches inputFmap H W filterH filterW depth).length =
      (W + 1 - filterW) * ((H + 1 - filterH) * (filterH * (filterW * depth))) :=
  length_flatMap_range fun _ _ => length_flatMap_range fun _ _ => length_patch ..

/-- Entry `[hIn][wIn][dIn]` of a row is that entry of the window. -/
theorem getElem?_patch (inputFmap : Bytes) (W filterH filterW depth w h : Nat)
    {hIn wIn dIn : Nat} (hh : hIn < filterH) (hw : wIn < filterW) (hd : dIn < depth) :
    (patch inputFmap W filterH filterW depth w h)[cell filterW depth hIn wIn dIn]? =
      some (inputFmap (cell W depth (h + hIn) (w + wIn) dIn)) := by
  have hrow : wIn * depth + dIn < filterW * depth := row_major_lt hw hd
  have hcell : cell filterW depth hIn wIn dIn
      = hIn * (filterW * depth) + (wIn * depth + dIn) := by
    unfold cell
    ring
  have hlen : ∀ x y, ((List.range depth).map fun dIn =>
      inputFmap ((h + x) * depth * W + (w + y) * depth + dIn)).length = depth := by
    intro x y
    rw [List.length_map, List.length_range]
  unfold patch
  rw [hcell, getElem?_flatMap_range (fun _ _ => length_flatMap_range fun _ _ => hlen _ _) hh hrow,
    getElem?_flatMap_range (fun _ _ => hlen _ _) hw hd, List.getElem?_map,
    List.getElem?_range hd, Option.map_some]
  congr 2
  unfold cell
  ring

/-- Element `[h][w][d]` stays inside a map with `H` rows. -/
theorem cell_lt {H W D h w d : Nat} (hh : h < H) (hw : w < W) (hd : d < D) :
    cell W D h w d < H * (W * D) := by
  calc cell W D h w d = h * (W * D) + (w * D + d) := by unfold cell; ring
    _ < H * (W * D) := row_major_lt hh (row_major_lt hw hd)

/-- The rows of the flattened matrix: position `(w, h)` is row `w * height + h`. -/
theorem flattenMatrix_cells (flattenedMatrix inputFmap : Bytes)
    {H W filterH filterW depth w h hIn wIn dIn : Nat}
    (hw : w < W + 1 - filterW) (hh : h < H + 1 - filterH)
    (hhIn : hIn < filterH) (hwIn : wIn < filterW) (hdIn : dIn < depth) :
    (flattenMatrix flattenedMatrix inputFmap H W filterH filterW depth).cells
        ((w * (H + 1 - filterH) + h) * (filterH * (filterW * depth)) +
          cell filterW depth hIn wIn dIn) =
      inputFmap (cell W depth (h + hIn) (w + wIn) dIn) := by
  set K := filterH * (filterW * depth) with hK
  have hk : cell filterW depth hIn wIn dIn < K := cell_lt hhIn hwIn hdIn
  have hpos : h * K + cell filterW depth hIn wIn dIn < (H + 1 - filterH) * K :=
    row_major_lt hh hk
  have hindex : (w * (H + 1 - filterH) + h) * K + cell filterW depth hIn wIn dIn
      = 0 + (w * ((H + 1 - filterH) * K) + (h * K + cell filterW depth hIn wIn dIn)) := by ring
  rw [flattenMatrix_eq, hindex]
  refine Tape.cells_foldl (Tape.start flattenedMatrix) _ ?_
  unfold patches
  rw [getElem?_flatMap_range (fun _ _ => length_flatMap_range fun _ _ => length_patch ..) hw hpos,
    getElem?_flatMap_range (fun _ _ => length_patch ..) hh hk]
  exact getElem?_patch inputFmap W filterH filterW depth w h hhIn hwIn hdIn

/-! ## The image cube -/

/-- What `matrix_to_imageCube` assigns, in order. -/
def imageCells (matrixResult : Nat → BitVec 16) (height width depth : Nat) :
    List (Nat × BitVec 8) :=
  (List.range depth).flatMap fun d =>
    (List.range width).flatMap fun w =>
      (List.range height).map fun h =>
        (h * width * depth + w * depth + d,
          truncation (matrixResult (d + (h + w * height) * depth)))

theorem matrixToImageCube_eq (matrixResult : Nat → BitVec 16) (oFmap : Bytes)
    (height width depth : Nat) :
    matrixToImageCube matrixResult oFmap height width depth =
      ⟨setAll oFmap (imageCells matrixResult height width depth),
        (imageCells matrixResult height width depth).map Prod.fst⟩ := by
  have hfold : matrixToImageCube matrixResult oFmap height width depth
      = (imageCells matrixResult height width depth).foldl Store.set ⟨oFmap, []⟩ := by
    unfold matrixToImageCube imageCells
    rw [← forN_foldl]
    refine forN_congr (fun d _ s => ?_) _
    rw [← forN_foldl]
    exact forN_congr (fun w _ s => forN_foldl_map ..) _
  rw [hfold, Store.foldl_set, List.nil_append]

theorem mem_imageCells {matrixResult : Nat → BitVec 16} {height width depth : Nat}
    {p : Nat × BitVec 8} :
    p ∈ imageCells matrixResult height width depth ↔
      ∃ h w d, h < height ∧ w < width ∧ d < depth ∧
        p = (cell width depth h w d, truncation (matrixResult ((w * height + h) * depth + d))) := by
  have hpair : ∀ h w d, (h * width * depth + w * depth + d,
        truncation (matrixResult (d + (h + w * height) * depth)))
      = (cell width depth h w d, truncation (matrixResult ((w * height + h) * depth + d))) := by
    intro h w d
    unfold cell
    congr 2
    · ring
    · congr 1
      ring
  unfold imageCells
  simp only [List.mem_flatMap, List.mem_map, List.mem_range]
  constructor
  · rintro ⟨d, hd, w, hw, h, hh, rfl⟩
    exact ⟨h, w, d, hh, hw, hd, hpair h w d⟩
  · rintro ⟨h, w, d, hh, hw, hd, rfl⟩
    exact ⟨d, hd, w, hw, h, hh, hpair h w d⟩

/-- Two positions of a map share a cell only if they are the same. -/
theorem cell_inj {W D h w d h' w' d' : Nat} (hw : w < W) (hw' : w' < W) (hd : d < D)
    (hd' : d' < D) (heq : cell W D h w d = cell W D h' w' d') : h = h' ∧ w = w' ∧ d = d' := by
  obtain ⟨hrow, hdd⟩ := mixed_radix hd hd' heq
  obtain ⟨hhh, hww⟩ := mixed_radix hw hw' hrow
  exact ⟨hhh, hww, hdd⟩

/-- Every cell of the cube is written, with the truncated entry of its row. -/
theorem matrixToImageCube_cells (matrixResult : Nat → BitVec 16) (oFmap : Bytes)
    {height width depth h w d : Nat} (hh : h < height) (hw : w < width) (hd : d < depth) :
    (matrixToImageCube matrixResult oFmap height width depth).cells (cell width depth h w d) =
        truncation (matrixResult ((w * height + h) * depth + d)) ∧
      cell width depth h w d ∈ (matrixToImageCube matrixResult oFmap height width depth).writes := by
  have hmem := mem_imageCells.mpr
    ⟨h, w, d, hh, hw, hd, (rfl : ((cell width depth h w d,
      truncation (matrixResult ((w * height + h) * depth + d))) : Nat × BitVec 8) = _)⟩
  rw [matrixToImageCube_eq]
  refine ⟨setAll_of_mem ?_ hmem, List.mem_map.mpr ⟨_, hmem, rfl⟩⟩
  intro p hp heq
  obtain ⟨h', w', d', -, hw', hd', rfl⟩ := mem_imageCells.mp hp
  obtain ⟨rfl, rfl, rfl⟩ := cell_inj hw' hw hd' hd heq
  rfl

/-! ## The chain -/

/-- The convolution of a map with filter bank `weights[filterH][filterW][depth][filterNum]`. -/
def convolution (inputFmap weights : Bytes) (W filterH filterW depth filterNum h w d : Nat) : Int :=
  ∑ hIn ∈ Finset.range filterH, ∑ wIn ∈ Finset.range filterW, ∑ dIn ∈ Finset.range depth,
    (inputFmap (cell W depth (h + hIn) (w + wIn) dIn)).toInt *
      (weights (cell filterW depth hIn wIn dIn * filterNum + d)).toInt

/-- Row `w * height + h` of the flattened matrix, times column `d` of the filters. -/
theorem row_product (flattenedMatrix inputFmap weights : Bytes)
    {H W filterH filterW depth w h : Nat} (filterNum d : Nat)
    (hw : w < W + 1 - filterW) (hh : h < H + 1 - filterH) :
    ∑ k ∈ Finset.range (filterH * filterW * depth),
        ((flattenMatrix flattenedMatrix inputFmap H W filterH filterW depth).cells
            ((w * (H + 1 - filterH) + h) * (filterH * filterW * depth) + k)).toInt *
          (weights (k * filterNum + d)).toInt =
      convolution inputFmap weights W filterH filterW depth filterNum h w d := by
  unfold convolution
  rw [sum_range_mul, sum_range_mul]
  refine Finset.sum_congr rfl fun hIn hhIn => Finset.sum_congr rfl fun wIn hwIn =>
    Finset.sum_congr rfl fun dIn hdIn => ?_
  rw [Nat.mul_assoc filterH]
  have hcell := flattenMatrix_cells flattenedMatrix inputFmap hw hh
    (Finset.mem_range.mp hhIn) (Finset.mem_range.mp hwIn) (Finset.mem_range.mp hdIn)
  rw [show (hIn * filterW + wIn) * depth + dIn = cell filterW depth hIn wIn dIn from rfl, hcell]

/-- **The layout chain is a convolution**: flatten, multiply row by row modulo
2 ^ 16, and take the rows back to a cube. -/
theorem layout_is_convolution (flattenedMatrix inputFmap weights oFmap : Bytes)
    (matrixResult : Nat → BitVec 16) {H W filterH filterW depth filterNum : Nat}
    (hH : filterH ≤ H) (hW : filterW ≤ W)
    (hproduct : ∀ n d, n < (H - filterH + 1) * (W - filterW + 1) → d < filterNum →
      matrixResult (n * filterNum + d) =
        BitVec.ofInt 16 (∑ k ∈ Finset.range (filterH * filterW * depth),
          ((flattenMatrix flattenedMatrix inputFmap H W filterH filterW depth).cells
              (n * (filterH * filterW * depth) + k)).toInt *
            (weights (k * filterNum + d)).toInt)) :
    let flat := flattenMatrix flattenedMatrix inputFmap H W filterH filterW depth
    let cube := matrixToImageCube matrixResult oFmap (H - filterH + 1) (W - filterW + 1) filterNum
    flat.writes =
        List.range ((H - filterH + 1) * (W - filterW + 1) * (filterH * filterW * depth)) ∧
      ∀ h w d, h < H - filterH + 1 → w < W - filterW + 1 → d < filterNum →
        cell (W - filterW + 1) filterNum h w d ∈ cube.writes ∧
        cube.cells (cell (W - filterW + 1) filterNum h w d) =
          BitVec.ofInt 8 (min 127 (max 0 (BitVec.ofInt 16
            (convolution inputFmap weights W filterH filterW depth filterNum h w d)).toInt)) := by
  intro flat cube
  have hrows : H - filterH + 1 = H + 1 - filterH := by omega
  have hcols : W - filterW + 1 = W + 1 - filterW := by omega
  constructor
  · show (flattenMatrix flattenedMatrix inputFmap H W filterH filterW depth).writes = _
    rw [flattenMatrix_eq, Tape.writes_foldl, length_patches, hrows, hcols, List.range_eq_range']
    show [] ++ List.range' 0 _ = _
    rw [List.nil_append]
    congr 1
    ring
  -- output position `(h, w)` is row `w * height + h` of both matrices
  · intro h w d hh hw hd
    obtain ⟨hvalue, hwritten⟩ := matrixToImageCube_cells matrixResult oFmap hh hw hd
    refine ⟨hwritten, hvalue.trans ?_⟩
    have hrow : w * (H - filterH + 1) + h < (H - filterH + 1) * (W - filterW + 1) := by
      rw [Nat.mul_comm (H - filterH + 1)]
      exact row_major_lt hw hh
    rw [hproduct _ d hrow hd, hrows,
      row_product flattenedMatrix inputFmap weights filterNum d (hcols ▸ hw) (hrows ▸ hh),
      truncation_eq]

/-- A 2×2 map under a 1×2 filter of ones: the lower output is `2 + 3`. -/
theorem layout_is_convolution_two_by_two :
    let matrixResult : Nat → BitVec 16 := fun n =>
      BitVec.ofInt 16 (∑ k ∈ Finset.range (1 * 2 * 1),
        ((flattenMatrix (fun _ => 0) (fun j => BitVec.ofNat 8 j) 2 2 1 2 1).cells
          (n * (1 * 2 * 1) + k)).toInt * (1 : BitVec 8).toInt)
    (matrixToImageCube matrixResult (fun _ => 0) 2 1 1).cells (cell 1 1 1 0 0) = 5 := by
  intro matrixResult
  have hconv := layout_is_convolution (H := 2) (W := 2) (fun _ => 0) (fun j => BitVec.ofNat 8 j)
    (fun _ => 1) (fun _ => 0) matrixResult (show 1 ≤ 2 by decide) (show 2 ≤ 2 by decide) (by
      intro n d _ (hd : d < 1)
      obtain rfl : d = 0 := Nat.lt_one_iff.mp hd
      rw [Nat.mul_one, Nat.add_zero])
  have hcell := (hconv.2 1 0 0 (by decide) (by decide) (by decide)).2
  have hvalue : convolution (fun j => BitVec.ofNat 8 j) (fun _ => 1) 2 1 2 1 1 1 0 0 = 5 := by
    decide
  rw [hvalue] at hcell
  exact hcell

end DcnnFpga.Nios
