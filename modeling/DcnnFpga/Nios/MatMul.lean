import DcnnFpga.Lib.Loop
import DcnnFpga.Rtl.BusOrder

/-!
# `mat_mul` on the bus (`hello_world.c`)

`mat_mul` packs the 257×128 byte matrix into 65×128 words, writes them column by
column to the slave and reads 128 result words back. A byte array is the memory
from its pointer on, so what lies behind the array is part of it: row 64 of
`matrix_32` does read there.

The Avalon fabric between the processor and the slave is a parameter of every
transfer (`Fabric`): any number of idle clocks before it, anything on the data
lines while nothing or a read is requested. The request itself is held until
`o_wait_req` falls. The loop that holds it has a fuel; `iowr_spec` and
`iord_spec` show 132 clocks are enough for every transfer.
-/

namespace DcnnFpga.Nios

open Lib Rtl

/-- Memory from a byte pointer on. -/
abbrev Bytes : Type := Nat → BitVec 8

/-- `transform_8to32`. -/
def transform8to32 (data8 : Bytes) : BitVec 32 :=
  forN 4 (fun i data32 => data32 + (data8 (i * 128)).setWidth 32 <<< (8 * i)) 0

/-- `transform_8to32(matrix+128*4*row+column)`. -/
def word (matrix : Bytes) (row column : Nat) : BitVec 32 :=
  transform8to32 fun j => matrix (128 * 4 * row + column + j)

/-- The inner loop of the first loop nest of `mat_mul`: one column of `matrix_32`. -/
def packColumn (matrix : Bytes) (column : Nat) (t : Nat → Nat → BitVec 32) :
    Nat → Nat → BitVec 32 :=
  forN 65 (fun row t r c => if r = row ∧ c = column then word matrix row column else t r c) t

/-- `matrix_32[row][column]` as the first loop nest leaves it. -/
def matrix32 (matrix : Bytes) : Nat → Nat → BitVec 32 :=
  forN 128 (packColumn matrix) fun _ _ => 0

/-- What the fabric does around the `k`-th transfer of a call. -/
structure Fabric where
  /-- the data lines in the idle clocks before the transfer -/
  gap : Nat → List (BitVec 32)
  /-- the data lines while the transfer is a read -/
  readLines : Nat → BitVec 32

/-- The slave, and the transfers of the call so far. -/
structure Master where
  slave : TestSlave
  transfers : Nat

def idleInput (d : BitVec 32) : Input := ⟨false, false, false, d⟩
def writeInput (d : BitVec 32) : Input := ⟨false, false, true, d⟩
def readInput (d : BitVec 32) : Input := ⟨false, true, false, d⟩

/-- The idle clocks before a transfer. -/
def idleClocks (f : Fabric) (p : Master) : TestSlave :=
  slave.run p.slave ((f.gap p.transfers).map idleInput)

/-- `IOWR(TEST_SLAVE_0_BASE, 0, d)`. -/
def iowr (fuel : Nat) (f : Fabric) (p : Master) (d : BitVec 32) : Option Master :=
  (slave.hold TestSlave.oWaitReq (writeInput d) fuel (idleClocks f p)).map fun s =>
    ⟨s.clock (writeInput d), p.transfers + 1⟩

/-- `IORD(TEST_SLAVE_0_BASE, 0)`: the data is what `o_y_data` shows in the
accepting clock. -/
def iord (fuel : Nat) (f : Fabric) (p : Master) : Option (Master × BitVec 32) :=
  (slave.hold TestSlave.oWaitReq (readInput (f.readLines p.transfers)) fuel
      (idleClocks f p)).map fun s =>
    (⟨s.clock (readInput (f.readLines p.transfers)), p.transfers + 1⟩, s.oYData)

/-- One assignment to a 16-bit array. -/
def setHalf (result : Nat → BitVec 16) (i : Nat) (v : BitVec 16) : Nat → BitVec 16 :=
  fun j => if j = i then v else result j

/-- The second loop nest: all words, column by column. -/
def writeMatrix (fuel : Nat) (f : Fabric) (matrix : Bytes) (s : TestSlave) : Option Master :=
  forSome 128 (fun column p =>
    forSome 65 (fun row p => iowr fuel f p (matrix32 matrix row column)) p)
    ⟨s, 0⟩

/-- The two halves of a result word go to two cells. -/
def storeWord (result : Nat → BitVec 16) (row : Nat) (tmp : BitVec 32) : Nat → BitVec 16 :=
  setHalf (setHalf result (2 * row) (((tmp <<< 16) >>> 16).setWidth 16)) (2 * row + 1)
    ((tmp >>> 16).setWidth 16)

/-- The last loop. -/
def readResult (fuel : Nat) (f : Fabric) (p : Master) (result : Nat → BitVec 16) :
    Option (Master × (Nat → BitVec 16)) :=
  forSome 128 (fun row pr =>
    (iord fuel f pr.1).map fun pt => (pt.1, storeWord pr.2 row pt.2))
    (p, result)

/-- `mat_mul`. -/
def matMul (fuel : Nat) (f : Fabric) (s : TestSlave) (matrix : Bytes)
    (result : Nat → BitVec 16) : Option (TestSlave × (Nat → BitVec 16)) :=
  (writeMatrix fuel f matrix s).bind fun p =>
    (readResult fuel f p result).map fun pr => (pr.1.slave, pr.2)

/-! ## The words -/

theorem packColumn_eq (matrix : Bytes) (column : Nat) (t : Nat → Nat → BitVec 32)
    {r c : Nat} (hr : r < 65) :
    packColumn matrix column t r c = if c = column then word matrix r column else t r c := by
  have h : ∀ r c, packColumn matrix column t r c =
      if r < 65 ∧ c = column then word matrix r column else t r c := by
    refine forN_inv (P := fun k (t' : Nat → Nat → BitVec 32) => ∀ r c, t' r c =
      if r < k ∧ c = column then word matrix r column else t r c) 65 (fun r c => ?_) ?_
    · rw [if_neg (by omega)]
    -- the rows below `k` hold their words, all other entries are as before
    · intro k _ t' ht r c
      by_cases heq : r = k ∧ c = column
      · rw [if_pos heq, if_pos (by omega), heq.1]
      · rw [if_neg heq, ht]
        by_cases hlt : r < k ∧ c = column
        · rw [if_pos hlt, if_pos (by omega)]
        · rw [if_neg hlt, if_neg (by omega)]
  rw [h]
  by_cases hc : c = column
  · rw [if_pos hc, if_pos ⟨hr, hc⟩]
  · rw [if_neg hc, if_neg fun hh => hc hh.2]

/-- The table holds every word. -/
theorem matrix32_eq (matrix : Bytes) {r c : Nat} (hr : r < 65) (hc : c < 128) :
    matrix32 matrix r c = word matrix r c := by
  refine forN_inv (P := fun n (t : Nat → Nat → BitVec 32) => ∀ c, c < n →
    t r c = word matrix r c) 128 (by omega) ?_ c hc
  intro n _ t ht c hc
  rw [packColumn_eq matrix n t hr]
  by_cases hcn : c = n
  · rw [if_pos hcn, hcn]
  · rw [if_neg hcn, ht c (by omega)]

theorem toNat_transform8to32 (data8 : Bytes) :
    (transform8to32 data8).toNat = (data8 0).toNat + (data8 128).toNat * 2 ^ 8 +
      (data8 256).toNat * 2 ^ 16 + (data8 384).toNat * 2 ^ 24 := by
  have h0 := (data8 0).isLt
  have h1 := (data8 128).isLt
  have h2 := (data8 256).isLt
  have h3 := (data8 384).isLt
  simp only [transform8to32, forN, BitVec.toNat_add, BitVec.toNat_shiftLeft,
    BitVec.toNat_setWidth, Nat.shiftLeft_eq, BitVec.ofNat_eq_ofNat, BitVec.toNat_ofNat,
    Nat.reduceMul]
  omega

/-- Byte `i` of a packed word is the byte `i` rows further down. -/
theorem extract_transform8to32 (data8 : Bytes) {i : Nat} (hi : i < 4) :
    (transform8to32 data8).extractLsb' (8 * i) 8 = data8 (i * 128) := by
  have h0 := (data8 0).isLt
  have h1 := (data8 128).isLt
  have h2 := (data8 256).isLt
  have h3 := (data8 384).isLt
  have hi' : i = 0 ∨ i = 1 ∨ i = 2 ∨ i = 3 := by omega
  apply BitVec.eq_of_toNat_eq
  rw [BitVec.extractLsb'_toNat, toNat_transform8to32, Nat.shiftRight_eq_div_pow]
  rcases hi' with rfl | rfl | rfl | rfl <;> simp only [Nat.reduceMul] <;> omega

end DcnnFpga.Nios
