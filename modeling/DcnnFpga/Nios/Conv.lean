import DcnnFpga.Nios.Layout

/-!
# The blocked matrix product (`hello_world.c`)

`conv` and `fully_connencted` share one loop nest (`blockedProduct`): for every
filter `i`, every block `fb` of 128 columns and every block `db` of 256 rows,
copy a block of data and one column of weights to `mat_block`, call `mat_mul`,
and add the result to the output. `conv` goes on to `matrix_to_imageCube`.

`mat_mul` is a parameter on a device of any type, so the loop nest can be run on
the slave (`MatMul.lean`) as well as on an ideal product. Memories are functions
from the array's start on; what lies behind an array is part of them. Two logs
run along: the cells each dereference touches, and the calls of `mat_mul` with
the block handed over and the result returned.
-/

namespace DcnnFpga.Nios

open Lib

/-- `mat_mul` on a device: the matrix, and the result array before and after. -/
abbrev MatMul (σ : Type) : Type :=
  σ → Bytes → (Nat → BitVec 16) → Option (σ × (Nat → BitVec 16))

/-- The arguments `conv` and `fully_connencted` share. -/
structure Product where
  dataMat : Bytes
  imageH : Nat
  imageW : Nat
  weightMat : Bytes
  filterHeight : Nat
  filterWeight : Nat
  filterNum : Nat

/-- The cell a dereference touches. -/
inductive Access where
  | data (j : Nat)
  | weight (j : Nat)
  | matBlock (r c : Nat)
  | result (j : Nat)
  | output (j : Nat)
deriving Repr, DecidableEq

/-- A call of `mat_mul`. -/
structure Call where
  i : Nat
  fb : Nat
  db : Nat
  block : Bytes
  result : Nat → BitVec 16

/-- The device and the locals; `dPtr` and `fPtr` are offsets into `data_mat` and
`weight_mat`. -/
structure Locals (σ : Type) where
  dev : σ
  matBlock : Bytes
  result : Nat → BitVec 16
  dPtr : Nat
  fPtr : Nat
  outputMat : Nat → BitVec 16
  accesses : List Access
  calls : List Call

namespace Product

variable {σ : Type} (p : Product)

/-- `flatten_num`, the number of rows. -/
def flattenNum : Nat := p.imageH * p.imageW

/-- `filter_height * filter_weight`, the number of columns. -/
def filterSize : Nat := p.filterHeight * p.filterWeight

/-- The number of column blocks. -/
def filterBlocks : Nat := (p.filterSize - 1) / 128 + 1

/-- The number of row blocks. -/
def dataBlocks : Nat := (p.flattenNum - 1) / 256 + 1

/-- `mat_block[r][c] = v`, with the cells read for `v`. -/
def setBlock (r c : Nat) (v : BitVec 8) (reads : List Access) (s : Locals σ) : Locals σ :=
  { s with
    matBlock := setAt s.matBlock (r * 128 + c) v
    accesses := s.accesses ++ (reads ++ [.matBlock r c]) }

/-- The body of the column loop over a data row in range. -/
def copyCell (fb r c : Nat) (s : Locals σ) : Locals σ :=
  if fb * 128 + c < p.filterSize then
    { setBlock r c (p.dataMat s.dPtr) [.data s.dPtr] s with dPtr := s.dPtr + 1 }
  else setBlock r c 0 [] s

/-- The body of the row loop. -/
def copyRow (fb db r : Nat) (s : Locals σ) : Locals σ :=
  if db * 256 + r < p.flattenNum then
    -- `d_ptr` is set for the next row, wherever the row has left it
    { forN 128 (p.copyCell fb r) s with
      dPtr := db * 256 * p.filterSize + (r + 1) * p.filterSize + fb * 128 }
  else forN 128 (fun c s => setBlock r c 0 [] s) s

/-- The body of the loop over the weight row of the block. -/
def copyWeight (fb c : Nat) (s : Locals σ) : Locals σ :=
  if fb * 128 + c < p.filterSize then
    { setBlock 256 c (p.weightMat s.fPtr) [.weight s.fPtr] s with fPtr := s.fPtr + p.filterNum }
  else setBlock 256 c 0 [] s

/-- The body of the loop that adds the result to the output. -/
def addResult (i db r : Nat) (s : Locals σ) : Locals σ :=
  if db * 256 + r < p.flattenNum then
    { s with
      outputMat := setAt s.outputMat ((db * 256 + r) * p.filterNum + i)
        (s.outputMat ((db * 256 + r) * p.filterNum + i) + s.result r)
      accesses := s.accesses ++ [.result r, .output ((db * 256 + r) * p.filterNum + i)] }
  else s

/-- `mat_mul(mat_block, result)`. -/
def callMatMul (matMul : MatMul σ) (i fb db : Nat) (s : Locals σ) : Option (Locals σ) :=
  (matMul s.dev s.matBlock s.result).map fun q =>
    { s with dev := q.1, result := q.2, calls := s.calls ++ [⟨i, fb, db, s.matBlock, q.2⟩] }

/-- The body of the loop over the row blocks. -/
def block (matMul : MatMul σ) (i fb db : Nat) (s : Locals σ) : Option (Locals σ) :=
  (callMatMul matMul i fb db
      (forN 128 (p.copyWeight fb) (forN 256 (p.copyRow fb db) s))).map
    (forN 256 (p.addResult i db))

/-- The body of the loop over the column blocks: both pointers are set, then all
row blocks are run through. -/
def filterBlock (matMul : MatMul σ) (i fb : Nat) (s : Locals σ) : Option (Locals σ) :=
  forSome p.dataBlocks (p.block matMul i fb)
    -- `f_ptr` is set here only, before the loop over the row blocks
    { s with dPtr := fb * 128, fPtr := fb * p.filterNum * 128 + i }

/-- The locals before the loops; `beyond` is the memory `mat_block` starts in. -/
def locals (dev : σ) (beyond : Bytes) (outputMat : Nat → BitVec 16) : Locals σ where
  dev := dev
  matBlock := fun j => if j < 257 * 128 then 0 else beyond j
  result := fun _ => 0
  dPtr := 0
  fPtr := 0
  outputMat := outputMat
  accesses := []
  calls := []

/-- The loop nest of `conv` and `fully_connencted`. -/
def blockedProduct (matMul : MatMul σ) (dev : σ) (beyond : Bytes)
    (outputMat : Nat → BitVec 16) : Option (Locals σ) :=
  forSome p.filterNum (fun i => forSome p.filterBlocks (p.filterBlock matMul i))
    (locals dev beyond outputMat)

/-- `fully_connencted`; `outputMat` of the result is `fc_finish`. -/
def fullyConnencted (matMul : MatMul σ) (dev : σ) (beyond : Bytes)
    (fcFinish : Nat → BitVec 16) : Option (Locals σ) :=
  p.blockedProduct matMul dev beyond fcFinish

/-- `conv`: the locals at the end of the loops, and the image cube made of
`output_mat`. -/
def conv (matMul : MatMul σ) (dev : σ) (beyond : Bytes) (tempFmap : Bytes)
    (outputMat : Nat → BitVec 16) : Option (Locals σ × Store (BitVec 8)) :=
  (p.blockedProduct matMul dev beyond outputMat).map fun s =>
    (s, matrixToImageCube s.outputMat tempFmap p.imageH p.imageW p.filterNum)

end Product

end DcnnFpga.Nios
