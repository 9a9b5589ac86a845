import DcnnFpga.Nios.OnSlave
import DcnnFpga.Nios.Pooling

/-!
# The layers (`hello_world.c`)

`conv_interface_1`, `conv_interface_2` and `total_conv` chain the stages over
flat byte buffers; the sizes are the literals of the source. Local arrays start
zeroed, and what lies behind each of them is a parameter (`Behind`).

The second layer tells `mean_pooling` 9 rows of 6, which is the shape of its
*output*; its input has 18 rows of 13. It therefore reads its windows with the
wrong stride and writes 4 rows of 3 only (`convInterface2_writes`).
-/

namespace DcnnFpga.Nios

open Lib Product Rtl

/-- An array of `n` zeros in memory. -/
def zeroed {w : Nat} (n : Nat) (behind : Nat → BitVec w) : Nat → BitVec w := fun j =>
  if j < n then 0 else behind j

/-- The memory behind the local arrays of a layer. -/
structure Behind where
  flattenMat : Bytes
  matBlock : Bytes
  outputMat : Nat → BitVec 16
  tempFmap : Bytes
  temp2Fmap : Bytes

section Layers

variable {σ : Type} (matMul : MatMul σ) (dev : σ) (behind : Behind)

/-- `conv_interface_1`: the locals of `conv`, and `con2_fmap`. -/
def convInterface1 (firstConv spectrum con2Fmap : Bytes) :
    Option (Locals σ × Store (BitVec 8)) :=
  let flattenMat1 :=
    (flattenMatrix (zeroed (1240 * 100) behind.flattenMat) spectrum 49 40 10 10 1).cells
  conv ⟨flattenMat1, 40, 31, firstConv, 10, 10, 16⟩ matMul dev behind.matBlock con2Fmap
    (zeroed (1240 * 16) behind.outputMat)

/-- What `conv_interface_2` leaves in its buffers. -/
structure Layer2 (σ : Type) where
  locals : Locals σ
  tempFmap : Store (BitVec 8)
  temp2Fmap : Pooled
  convFinishFmap : Pooled

/-- `conv_interface_2`. -/
def convInterface2 (secondConv con2Fmap convFinishFmap : Bytes) : Option (Layer2 σ) :=
  let flattenMat2 :=
    (flattenMatrix (zeroed (972 * 400) behind.flattenMat) con2Fmap 40 31 5 5 16).cells
  (conv ⟨flattenMat2, 36, 27, secondConv, 1, 400, 16⟩ matMul dev behind.matBlock
      (zeroed (36 * 27 * 16) behind.tempFmap) (zeroed (972 * 16) behind.outputMat)).map fun q =>
    let temp2Fmap := maxPooling q.2.cells (zeroed (18 * 13 * 16) behind.temp2Fmap) 36 27 16
    { locals := q.1
      tempFmap := q.2
      temp2Fmap := temp2Fmap
      -- 9 and 6 are the sizes of the result; the map `temp2_fmap` has 18 rows of 13
      convFinishFmap := meanPooling temp2Fmap.out.cells convFinishFmap 9 6 16 }

/-- `total_conv`: `conv_interface_2` on the map `conv_interface_1` leaves, each
with the memory behind its own locals. -/
def totalConv (behind' : Behind) (con2Fmap : Bytes)
    (firstConv secondConv spectrum convFinishFmap : Bytes) : Option (Layer2 σ) :=
  (convInterface1 matMul dev behind firstConv spectrum
      (zeroed (40 * 31 * 16) con2Fmap)).bind fun q =>
    convInterface2 matMul q.1.dev behind' secondConv q.2.cells convFinishFmap

end Layers

variable {σ : Type} {matMul : MatMul σ} {dev : σ} {behind : Behind}
  {secondConv con2Fmap convFinishFmap : Bytes} {r : Layer2 σ}

/-- The pooling stages of the second layer fit together: every cell of the 9×6×16
result is written, with the floor mean of a window of the max-pooled 18×13×16 map. -/
def Composed (r : Layer2 σ) : Prop :=
  let P := fun p q d => (r.temp2Fmap.out.cells (cell 13 16 p q d)).toNat
  ∀ a b d, a < 9 → b < 6 → d < 16 →
    cell 6 16 a b d ∈ r.convFinishFmap.out.writes ∧
    (r.convFinishFmap.out.cells (cell 6 16 a b d)).toNat =
      (P (2 * a) (2 * b) d + P (2 * a) (2 * b + 1) d + P (2 * a + 1) (2 * b) d +
        P (2 * a + 1) (2 * b + 1) d) / 4

/-- Of the 864 cells the first 192 are written, the others keep what they held. -/
theorem convInterface2_writes
    (hrun : convInterface2 matMul dev behind secondConv con2Fmap convFinishFmap = some r) :
    r.convFinishFmap.out.writes = List.range 192 ∧
      ∀ j, 192 ≤ j → r.convFinishFmap.out.cells j = convFinishFmap j := by
  rw [convInterface2, Option.map_eq_some_iff] at hrun
  obtain ⟨q, -, rfl⟩ := hrun
  exact ⟨pooling_writes meanWindow _ convFinishFmap 9 6 16,
    fun j hj => pooling_above meanWindow _ convFinishFmap 9 6 16 hj⟩

/-- **The pooling stages never fit together**: whatever the maps, the weights, the
memory and `mat_mul`, the last cell is not written. -/
theorem convInterface2_not_composed
    (hrun : convInterface2 matMul dev behind secondConv con2Fmap convFinishFmap = some r) :
    ¬ Composed r := by
  intro hcomposed
  have hwritten := (hcomposed 8 5 15 (by decide) (by decide) (by decide)).1
  rw [(convInterface2_writes hrun).1, List.mem_range] at hwritten
  exact absurd hwritten (by decide)

/-- With a lawful `mat_mul` the layer returns. -/
theorem convInterface2_total {I : σ → Prop} {R : Bytes → (Nat → BitVec 16) → Prop}
    (hmat : Lawful matMul I R) (hdev : I dev) (behind : Behind)
    (secondConv con2Fmap convFinishFmap : Bytes) :
    ∃ r, convInterface2 matMul dev behind secondConv con2Fmap convFinishFmap = some r := by
  obtain ⟨s, hs⟩ := blockedProduct_total
    ⟨(flattenMatrix (zeroed (972 * 400) behind.flattenMat) con2Fmap 40 31 5 5 16).cells, 36, 27,
      secondConv, 1, 400, 16⟩ hmat hdev behind.matBlock (zeroed (972 * 16) behind.outputMat)
  exact ⟨_, by rw [convInterface2, conv, hs]; rfl⟩

/-- All arrays zero, in zeroed memory. -/
def zeroBehind : Behind := ⟨fun _ => 0, fun _ => 0, fun _ => 0, fun _ => 0, fun _ => 0⟩

/-- A run on the ideal product of the signed bytes. -/
theorem convInterface2_not_composed_ideal :
    ∃ r, convInterface2 (idealMatMul fun x w => x.toInt * w.toInt) () zeroBehind
        (fun _ => 1) (fun _ => 1) (fun _ => 0) = some r ∧ ¬ Composed r := by
  obtain ⟨r, hr⟩ := convInterface2_total (lawful_idealMatMul fun x w => x.toInt * w.toInt)
    trivial zeroBehind (fun _ => 1) (fun _ => 1) (fun _ => 0)
  exact ⟨r, hr, convInterface2_not_composed hr⟩

/-- On the slave, with zero maps and weights: cell 863 keeps the 255 it held. -/
theorem convInterface2_cell_kept :
    ∃ fuel₀, ∀ fuel, fuel₀ ≤ fuel →
      ∃ r, convInterface2 (slaveMatMul fuel fun _ => directFabric)
          (TestSlave.afterReset MVM.cleared, 0) zeroBehind (fun _ => 0) (fun _ => 0)
          (fun _ => 255) = some r ∧
        cell 6 16 8 5 15 ∉ r.convFinishFmap.out.writes ∧
        r.convFinishFmap.out.cells (cell 6 16 8 5 15) = 255 ∧ ¬ Composed r := by
  refine ⟨132, fun fuel hfuel => ?_⟩
  obtain ⟨r, hr⟩ := convInterface2_total (lawful_slaveMatMul hfuel fun _ => directFabric)
    (slaveReady_afterReset MVM.cleared 0) zeroBehind (fun _ => 0) (fun _ => 0) (fun _ => 255)
  obtain ⟨hwrites, hkept⟩ := convInterface2_writes hr
  have hlast : cell 6 16 8 5 15 ∉ r.convFinishFmap.out.writes := by
    rw [hwrites, List.mem_range]
    decide
  exact ⟨r, hr, hlast, hkept _ (by decide),
    fun hcomposed => hlast (hcomposed 8 5 15 (by decide) (by decide) (by decide)).1⟩

end DcnnFpga.Nios
