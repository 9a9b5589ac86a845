import DcnnFpga.Nios.Layout

/-!
# Pooling (`hello_world.c`)

`max_pooling` and `mean_pooling` are one loop nest: running indices `h` and `w`
in steps of two, one output byte per window and channel behind a running index.
They differ in what they make of the four bytes of a window. The bytes read are
kept as a list of their indices.
-/

namespace DcnnFpga.Nios

open Lib

/-- The output of a pooling, and the input cells read so far. -/
structure Pooled where
  out : Tape (BitVec 8)
  reads : List Nat

/-- One output byte, made from these input cells. -/
def Pooled.emit (s : Pooled) (p : BitVec 8 × List Nat) : Pooled :=
  ⟨s.out.push p.1, s.reads ++ p.2⟩

/-- `(h + i/2) * depth * width + (w + i%2) * depth + d`. -/
def windowIndex (width depth h w d i : Nat) : Nat :=
  (h + i / 2) * depth * width + (w + i % 2) * depth + d

/-- The value of `temp` after the `for` loop of `max_pooling`. The comparison is
the source's `temp >= …`. -/
def maxWindow (inputFmap : Bytes) (index : Nat → Nat) : BitVec 8 × List Nat :=
  forN 3 (fun k p =>
      -- the element is read once more when it is taken over
      if p.1 ≥ inputFmap (index (k + 1)) then
        (inputFmap (index (k + 1)), p.2 ++ [index (k + 1), index (k + 1)])
      else (p.1, p.2 ++ [index (k + 1)]))
    (inputFmap (index 0), [index 0])

/-- The 16-bit sum after the `for` loop of `mean_pooling`. -/
def meanSum (inputFmap : Bytes) (index : Nat → Nat) : BitVec 16 × List Nat :=
  forN 3 (fun k p =>
      (p.1 + (inputFmap (index (k + 1))).setWidth 16, p.2 ++ [index (k + 1)]))
    ((inputFmap (index 0)).setWidth 16, [index 0])

/-- `(alt_u8)(temp >> 2)`. -/
def meanWindow (inputFmap : Bytes) (index : Nat → Nat) : BitVec 8 × List Nat :=
  (((meanSum inputFmap index).1 >>> 2).setWidth 8, (meanSum inputFmap index).2)

/-- The loop nest of both. -/
def pooling (window : Bytes → (Nat → Nat) → BitVec 8 × List Nat) (inputFmap outputFmap : Bytes)
    (height width depth : Nat) : Pooled :=
  whileUp (fun h => decide (h + 1 < height)) 2 height Nat.two_pos
    (fun h hh => by have := of_decide_eq_true hh; omega)
    (fun h s =>
      whileUp (fun w => decide (w + 1 < width)) 2 width Nat.two_pos
        (fun w hw => by have := of_decide_eq_true hw; omega)
        (fun w s =>
          whileUp (fun d => decide (d < depth)) 1 depth Nat.one_pos
            (fun _ hd => of_decide_eq_true hd)
            (fun d s => s.emit (window inputFmap (windowIndex width depth h w d)))
            0 s)
        0 s)
    0 ⟨Tape.start outputFmap, []⟩

/-- `max_pooling`. -/
def maxPooling (inputFmap outputFmap : Bytes) (height width depth : Nat) : Pooled :=
  pooling maxWindow inputFmap outputFmap height width depth

/-- `mean_pooling`. -/
def meanPooling (inputFmap outputFmap : Bytes) (height width depth : Nat) : Pooled :=
  pooling meanWindow inputFmap outputFmap height width depth

theorem Pooled.foldl_emit (s : Pooled) (l : List (BitVec 8 × List Nat)) :
    l.foldl emit s = ⟨(l.map Prod.fst).foldl Tape.push s.out, s.reads ++ l.flatMap Prod.snd⟩ := by
  induction l generalizing s with
  | nil => rw [List.flatMap_nil, List.append_nil]; rfl
  | cons p rest ih =>
    rw [List.foldl_cons, ih, List.map_cons, List.foldl_cons, List.flatMap_cons, emit,
      List.append_assoc]

section Nest

variable (window : Bytes → (Nat → Nat) → BitVec 8 × List Nat) (inputFmap outputFmap : Bytes)
  (height width depth : Nat)

/-- The windows in the order of the loops: rows, columns, channels. -/
def windows : List (BitVec 8 × List Nat) :=
  (List.range (height / 2)).flatMap fun a =>
    (List.range (width / 2)).flatMap fun b =>
      (List.range depth).map fun d =>
        window inputFmap (windowIndex width depth (2 * a) (2 * b) d)

theorem pooling_eq :
    pooling window inputFmap outputFmap height width depth =
      (windows window inputFmap height width depth).foldl Pooled.emit
        ⟨Tape.start outputFmap, []⟩ := by
  unfold pooling windows
  rw [whileUp_eq_forN (n := height / 2) (fun a => by rw [decide_eq_true_eq]; omega),
    ← forN_foldl]
  refine forN_congr (fun a _ s => ?_) _
  rw [whileUp_eq_forN (n := width / 2) (fun b => by rw [decide_eq_true_eq]; omega),
    ← forN_foldl]
  refine forN_congr (fun b _ s => ?_) _
  rw [whileUp_eq_forN (n := depth) (fun d => by rw [decide_eq_true_eq]; omega),
    ← forN_foldl_map]
  refine forN_congr (fun d _ s => ?_) _
  rw [Nat.zero_add, Nat.zero_add, Nat.zero_add, Nat.mul_comm a, Nat.mul_comm b, Nat.mul_one]

theorem length_windows :
    (windows window inputFmap height width depth).length =
      height / 2 * (width / 2 * depth) :=
  length_flatMap_range fun _ _ => length_flatMap_range fun _ _ => by
    rw [List.length_map, List.length_range]

/-- The cells written are the first ones, each once and in order. -/
theorem pooling_writes :
    (pooling window inputFmap outputFmap height width depth).out.writes =
      List.range (height / 2 * (width / 2 * depth)) := by
  rw [pooling_eq, Pooled.foldl_emit, Tape.writes_foldl, List.length_map, length_windows,
    List.range_eq_range']
  exact List.nil_append _

/-- No other cell changes. -/
theorem pooling_above {j : Nat} (hj : height / 2 * (width / 2 * depth) ≤ j) :
    (pooling window inputFmap outputFmap height width depth).out.cells j = outputFmap j := by
  rw [pooling_eq, Pooled.foldl_emit]
  refine Tape.cells_foldl_above (Tape.start outputFmap) _ ?_
  rw [List.length_map, length_windows]
  exact (Nat.zero_add _).trans_le hj

/-- Output cell `[a][b][d]` of a map with `width / 2` columns is made from the
window at row `2 * a`, column `2 * b`. -/
theorem pooling_cells {a b d : Nat} (ha : a < height / 2) (hb : b < width / 2) (hd : d < depth) :
    (pooling window inputFmap outputFmap height width depth).out.cells
        (cell (width / 2) depth a b d) =
      (window inputFmap (windowIndex width depth (2 * a) (2 * b) d)).1 := by
  have hlen : ∀ x y, ((List.range depth).map fun d =>
      window inputFmap (windowIndex width depth (2 * x) (2 * y) d)).length = depth := by
    intro x y
    rw [List.length_map, List.length_range]
  have hrow : b * depth + d < width / 2 * depth := row_major_lt hb hd
  have hindex : cell (width / 2) depth a b d
      = 0 + (a * (width / 2 * depth) + (b * depth + d)) := by
    unfold cell
    ring
  rw [pooling_eq, Pooled.foldl_emit, hindex]
  refine Tape.cells_foldl (Tape.start outputFmap) _ ?_
  unfold windows
  rw [List.getElem?_map,
    getElem?_flatMap_range (fun _ _ => length_flatMap_range fun _ _ => hlen _ _) ha hrow,
    getElem?_flatMap_range (fun _ _ => hlen _ _) hb hd, List.getElem?_map,
    List.getElem?_range hd]
  rfl

end Nest

end DcnnFpga.Nios
