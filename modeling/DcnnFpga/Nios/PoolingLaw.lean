import DcnnFpga.Nios.Pooling

/-!
# What the two poolings compute

Both poolings write the first `height / 2 * (width / 2) * depth` cells, in order,
one per window of two rows and two columns. `mean_pooling` leaves the floor of the
mean there. `max_pooling` takes a byte over whenever `temp` is at least as large,
and so leaves the smallest of the window: it is the largest only where all four
bytes are equal.
-/

namespace DcnnFpga.Nios

open Lib

/-- The byte at row `2 * a + r`, column `2 * b + c` of channel `d`. -/
def windowByte (inputFmap : Bytes) (width depth a b d r c : Nat) : BitVec 8 :=
  inputFmap (cell width depth (2 * a + r) (2 * b + c) d)

/-- The sum of the four bytes of a window. -/
def windowSum (inputFmap : Bytes) (width depth a b d : Nat) : Nat :=
  (windowByte inputFmap width depth a b d 0 0).toNat +
    (windowByte inputFmap width depth a b d 0 1).toNat +
    (windowByte inputFmap width depth a b d 1 0).toNat +
    (windowByte inputFmap width depth a b d 1 1).toNat

/-- `v` is the largest byte of the window. -/
def LargestOf (inputFmap : Bytes) (width depth a b d : Nat) (v : BitVec 8) : Prop :=
  (∃ r < 2, ∃ c < 2, windowByte inputFmap width depth a b d r c = v) ∧
    ∀ r < 2, ∀ c < 2, windowByte inputFmap width depth a b d r c ≤ v

/-- The cells written are the first ones in order, and each is the largest byte
of its window. -/
def ComputesMaximum (inputFmap : Bytes) (height width depth : Nat) (s : Pooled) : Prop :=
  s.out.writes = List.range (height / 2 * (width / 2) * depth) ∧
    ∀ a < height / 2, ∀ b < width / 2, ∀ d < depth,
      LargestOf inputFmap width depth a b d (s.out.cells ((a * (width / 2) + b) * depth + d))

section Window

variable (inputFmap : Bytes) (width depth a b d : Nat)

theorem windowIndex_eq_cell (h w i : Nat) :
    windowIndex width depth h w d i = cell width depth (h + i / 2) (w + i % 2) d := by
  unfold windowIndex cell
  ring

/-- The four indices of the loops are the four bytes of the window. -/
theorem apply_windowIndex (i : Nat) :
    inputFmap (windowIndex width depth (2 * a) (2 * b) d i) =
      windowByte inputFmap width depth a b d (i / 2) (i % 2) := by
  rw [windowIndex_eq_cell]
  rfl

/-- The window lies inside the map. -/
theorem windowIndex_lt {height : Nat} (ha : a < height / 2) (hb : b < width / 2) (hd : d < depth)
    {i : Nat} (hi : i < 4) :
    windowIndex width depth (2 * a) (2 * b) d i < height * width * depth := by
  rw [windowIndex_eq_cell]
  exact row_major_lt (row_major_lt (by omega) (by omega)) hd

/-- The comparison keeps the smallest byte seen so far. -/
theorem maxWindow_smallest (index : Nat → Nat) :
    (∃ i ≤ 3, (maxWindow inputFmap index).1 = inputFmap (index i)) ∧
      ∀ i ≤ 3, (maxWindow inputFmap index).1 ≤ inputFmap (index i) := by
  refine forN_inv (P := fun k (p : BitVec 8 × List Nat) =>
    (∃ i ≤ k, p.1 = inputFmap (index i)) ∧ ∀ i ≤ k, p.1 ≤ inputFmap (index i)) 3 ?_ ?_
  · constructor
    · exact ⟨0, Nat.le_refl 0, rfl⟩
    · intro i hi
      rw [Nat.le_zero.mp hi]
      exact BitVec.le_refl _
  · rintro k - ⟨temp, reads⟩ ⟨⟨j, hj, hmem⟩, hle⟩
    dsimp only at hmem hle ⊢
    split
    next hge =>
      refine ⟨⟨k + 1, Nat.le_refl _, rfl⟩, fun i hi => ?_⟩
      rcases Nat.le_succ_iff.mp hi with hi | rfl
      · exact BitVec.le_trans hge (hle i hi)
      · exact BitVec.le_refl _
    next hlt =>
      refine ⟨⟨j, by omega, hmem⟩, fun i hi => ?_⟩
      rcases Nat.le_succ_iff.mp hi with hi | rfl
      · exact hle i hi
      · exact BitVec.le_of_lt (BitVec.not_le.mp hlt)

/-- The smallest byte is the largest when all four are equal, and only then. -/
theorem largestOf_maxWindow_iff :
    LargestOf inputFmap width depth a b d
        (maxWindow inputFmap (windowIndex width depth (2 * a) (2 * b) d)).1 ↔
      ∀ r < 2, ∀ c < 2, windowByte inputFmap width depth a b d r c =
        windowByte inputFmap width depth a b d 0 0 := by
  obtain ⟨⟨i, hi, hmem⟩, hle⟩ :=
    maxWindow_smallest inputFmap (windowIndex width depth (2 * a) (2 * b) d)
  rw [apply_windowIndex inputFmap width depth a b d] at hmem
  constructor
  · rintro ⟨-, hlargest⟩
    have heq : ∀ r < 2, ∀ c < 2, windowByte inputFmap width depth a b d r c =
        (maxWindow inputFmap (windowIndex width depth (2 * a) (2 * b) d)).1 := by
      intro r hr c hc
      have hsmall := hle (2 * r + c) (by omega)
      rw [apply_windowIndex inputFmap width depth a b d, show (2 * r + c) / 2 = r by omega,
        show (2 * r + c) % 2 = c by omega] at hsmall
      exact BitVec.le_antisymm (hlargest r hr c hc) hsmall
    intro r hr c hc
    rw [heq r hr c hc, heq 0 (by decide) 0 (by decide)]
  · intro heq
    rw [hmem]
    refine ⟨⟨i / 2, by omega, i % 2, by omega, rfl⟩, fun r hr c hc => ?_⟩
    rw [heq r hr c hc, heq (i / 2) (by omega) (i % 2) (by omega)]
    exact BitVec.le_refl _

theorem windowSum_le : windowSum inputFmap width depth a b d ≤ 4 * 255 := by
  have hbyte : ∀ r c, (windowByte inputFmap width depth a b d r c).toNat ≤ 255 :=
    fun r c => Nat.le_of_lt_succ (windowByte inputFmap width depth a b d r c).isLt
  have h00 := hbyte 0 0
  have h01 := hbyte 0 1
  have h10 := hbyte 1 0
  have h11 := hbyte 1 1
  unfold windowSum
  omega

/-- Four bytes fit in the 16-bit sum. -/
theorem meanSum_toNat :
    (meanSum inputFmap (windowIndex width depth (2 * a) (2 * b) d)).1.toNat =
      windowSum inputFmap width depth a b d := by
  have hsum : (meanSum inputFmap (windowIndex width depth (2 * a) (2 * b) d)).1 =
      (windowByte inputFmap width depth a b d 0 0).setWidth 16 +
        (windowByte inputFmap width depth a b d 0 1).setWidth 16 +
        (windowByte inputFmap width depth a b d 1 0).setWidth 16 +
        (windowByte inputFmap width depth a b d 1 1).setWidth 16 := by
    unfold meanSum
    simp only [forN_succ, forN_zero, apply_windowIndex]
  have hle := windowSum_le inputFmap width depth a b d
  unfold windowSum at hle ⊢
  rw [hsum]
  simp only [BitVec.toNat_add, BitVec.toNat_setWidth]
  omega

/-- A quarter of the sum fits in a byte again. -/
theorem meanWindow_toNat :
    (meanWindow inputFmap (windowIndex width depth (2 * a) (2 * b) d)).1.toNat =
      (meanSum inputFmap (windowIndex width depth (2 * a) (2 * b) d)).1.toNat / 4 := by
  have hle := windowSum_le inputFmap width depth a b d
  unfold meanWindow
  rw [BitVec.toNat_setWidth, BitVec.toNat_ushiftRight, Nat.shiftRight_eq_div_pow, meanSum_toNat]
  omega

/-- The cells `mean_pooling` reads for a window. -/
theorem meanWindow_reads (index : Nat → Nat) :
    (meanWindow inputFmap index).2 = (List.range 4).map index := rfl

end Window

/-- `pooling_writes`, associated as the output map is laid out. -/
theorem pooling_writes' (window : Bytes → (Nat → Nat) → BitVec 8 × List Nat)
    (inputFmap outputFmap : Bytes) (height width depth : Nat) :
    (pooling window inputFmap outputFmap height width depth).out.writes =
      List.range (height / 2 * (width / 2) * depth) := by
  rw [pooling_writes, Nat.mul_assoc]

/-- What a property of the cells read for every window says of all reads. -/
theorem pooling_reads {window : Bytes → (Nat → Nat) → BitVec 8 × List Nat}
    {inputFmap outputFmap : Bytes} {height width depth : Nat} {P : Nat → Prop}
    (h : ∀ a < height / 2, ∀ b < width / 2, ∀ d < depth,
      ∀ j ∈ (window inputFmap (windowIndex width depth (2 * a) (2 * b) d)).2, P j) :
    ∀ j ∈ (pooling window inputFmap outputFmap height width depth).reads, P j := by
  intro j hj
  rw [pooling_eq, Pooled.foldl_emit, List.nil_append] at hj
  obtain ⟨p, hp, hj⟩ := List.mem_flatMap.mp hj
  simp only [windows, List.mem_flatMap, List.mem_map, List.mem_range] at hp
  obtain ⟨a, ha, b, hb, d, hd, rfl⟩ := hp
  exact h a ha b hb d hd j hj

/-- `max_pooling` computes the maximum of the maps whose windows are constant. -/
theorem maxPooling_maximum_iff (inputFmap outputFmap : Bytes) (height width depth : Nat) :
    ComputesMaximum inputFmap height width depth
        (maxPooling inputFmap outputFmap height width depth) ↔
      ∀ a < height / 2, ∀ b < width / 2, ∀ d < depth, ∀ r < 2, ∀ c < 2,
        windowByte inputFmap width depth a b d r c =
          windowByte inputFmap width depth a b d 0 0 := by
  have hcell : ∀ {a b d : Nat}, a < height / 2 → b < width / 2 → d < depth →
      (maxPooling inputFmap outputFmap height width depth).out.cells
          ((a * (width / 2) + b) * depth + d) =
        (maxWindow inputFmap (windowIndex width depth (2 * a) (2 * b) d)).1 :=
    fun ha hb hd => pooling_cells maxWindow inputFmap outputFmap height width depth ha hb hd
  constructor
  · rintro ⟨-, hmax⟩ a ha b hb d hd
    rw [← largestOf_maxWindow_iff, ← hcell ha hb hd]
    exact hmax a ha b hb d hd
  · intro heq
    refine ⟨pooling_writes' .., fun a ha b hb d hd => ?_⟩
    rw [hcell ha hb hd, largestOf_maxWindow_iff]
    exact heq a ha b hb d hd

/-- Of the bytes 0, 1, 2, 3 in one window, `max_pooling` returns 0. -/
theorem maxPooling_not_maximum :
    ¬ ComputesMaximum (fun j => BitVec.ofNat 8 j) 2 2 1
      (maxPooling (fun j => BitVec.ofNat 8 j) (fun _ => 0) 2 2 1) := by
  rintro ⟨-, hmax⟩
  obtain ⟨-, hle⟩ := hmax 0 (by decide) 0 (by decide) 0 (by decide)
  rw [show (0 * (2 / 2) + 0) * 1 + 0 = cell (2 / 2) 1 0 0 0 from rfl, maxPooling,
    pooling_cells maxWindow _ _ 2 2 1 (by decide) (by decide) (by decide)] at hle
  exact absurd (hle 1 (by decide) 1 (by decide)) (by decide)

/-- **`mean_pooling` computes the floor of the mean**, inside both maps and
without loss in the sum or the cast. -/
theorem meanPooling_floor_mean (inputFmap outputFmap : Bytes) (height width depth : Nat) :
    (∀ j ∈ (meanPooling inputFmap outputFmap height width depth).reads,
        j < height * width * depth) ∧
      (meanPooling inputFmap outputFmap height width depth).out.writes =
        List.range (height / 2 * (width / 2) * depth) ∧
      (∀ j, height / 2 * (width / 2) * depth ≤ j →
        (meanPooling inputFmap outputFmap height width depth).out.cells j = outputFmap j) ∧
      ∀ a < height / 2, ∀ b < width / 2, ∀ d < depth,
        (meanSum inputFmap (windowIndex width depth (2 * a) (2 * b) d)).1.toNat =
            windowSum inputFmap width depth a b d ∧
          ((meanPooling inputFmap outputFmap height width depth).out.cells
              ((a * (width / 2) + b) * depth + d)).toNat =
            windowSum inputFmap width depth a b d / 4 := by
  refine ⟨?_, pooling_writes' .., ?_, ?_⟩
  · refine pooling_reads fun a ha b hb d hd j hj => ?_
    rw [meanWindow_reads, List.mem_map] at hj
    obtain ⟨i, hi, rfl⟩ := hj
    exact windowIndex_lt width depth a b d ha hb hd (List.mem_range.mp hi)
  · intro j hj
    rw [Nat.mul_assoc] at hj
    exact pooling_above meanWindow inputFmap outputFmap height width depth hj
  · intro a ha b hb d hd
    refine ⟨meanSum_toNat .., ?_⟩
    have hcell := pooling_cells meanWindow inputFmap outputFmap height width depth ha hb hd
    show ((pooling meanWindow inputFmap outputFmap height width depth).out.cells
      (cell (width / 2) depth a b d)).toNat = _
    rw [hcell, meanWindow_toNat, meanSum_toNat]

end DcnnFpga.Nios
