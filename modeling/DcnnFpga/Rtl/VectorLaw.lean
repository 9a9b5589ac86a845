import DcnnFpga.Lib.Loop
import DcnnFpga.Rtl.Ledger
import Mathlib.Algebra.BigOperators.Group.Finset.Basic
import Mathlib.Algebra.Order.BigOperators.Group.Finset

/-!
# Whole vectors and whole matrices in the ledger

65 writes from the start of a vector are one vector, 128 vectors from the start
of a group are one matrix, 128 reads close it. The ledger's two vector counters
agree at every one of these vectors, so each adds its product, and after the
reads the ledger is ready for the next matrix.
-/

namespace DcnnFpga.Rtl

open Lib

/-- The operand buffer 65 words fill: word `row` holds the bytes `4 * row ..< 4 * row + 4`. -/
def vectorOf (d : Nat → BitVec 32) : Matrix := fun j =>
  (d (j.val / 4)).extractLsb' (8 * (j.val % 4)) 8

namespace Ledger

/-- The writes of one vector. -/
def vector (d : Nat → BitVec 32) (a : Ledger) : Ledger :=
  forN 65 (fun row a => a.apply (.write (d row))) a

/-- The writes of `n` vectors. -/
def columns (d : Nat → Nat → BitVec 32) (n : Nat) (a : Ledger) : Ledger :=
  forN n (fun column a => a.vector (d column)) a

/-- The first `n` reads after a matrix. -/
def readOut (n : Nat) (a : Ledger) : Ledger := forN n (fun _ a => a.apply .read) a

theorem columns_succ (d : Nat → Nat → BitVec 32) (n : Nat) (a : Ledger) :
    a.columns d (n + 1) = (a.columns d n).vector (d n) := forN_succ n _ a

theorem readOut_succ (n : Nat) (a : Ledger) :
    a.readOut (n + 1) = (a.readOut n).apply .read := forN_succ n _ a

/-- Between matrices: both vector counters and both positions are at their start. -/
structure Ready (a : Ledger) : Prop where
  writes : a.writes % 8320 = 0
  reads : a.reads % 128 = 0
  vectors : a.vectors = 0

theorem ready_start (settled : Bool) (y : Fin DIM → BitVec 16) : Ready (start settled y) :=
  ⟨rfl, rfl, rfl⟩

/-- Up to 64 writes from the start of a vector only fill the buffer. -/
theorem forN_write_eq {a : Ledger} (d : Nat → BitVec 32) (h : a.writes % 65 = 0) {k : Nat}
    (hk : k ≤ 64) :
    forN k (fun row a => a.apply (.write (d row))) a =
      { a with
        writes := a.writes + k
        mat := fun j => if j.val / 4 < k then vectorOf d j else a.mat j } := by
  induction k with
  | zero => rfl
  | succ k ih =>
    have hpos : (a.writes + k) % 65 = k := by omega
    rw [forN_succ, ih (by omega), apply, if_neg (by dsimp only; omega)]
    dsimp only
    rw [hpos]
    congr 1
    funext j
    rw [store, if_neg (by omega)]
    by_cases hj : j.val / 4 = k
    · rw [if_pos hj, if_pos (by omega), vectorOf, hj]
    · rw [if_neg hj]
      by_cases hlt : j.val / 4 < k
      · rw [if_pos hlt, if_pos (by omega)]
      · rw [if_neg hlt, if_neg (by omega)]

/-- 65 writes from the start of a vector: the buffer holds them, and the
accumulators have taken them in. -/
theorem vector_eq {a : Ledger} (d : Nat → BitVec 32) (h : a.writes % 65 = 0) :
    a.vector d =
      { a with
        writes := a.writes + 65, vectors := a.vectors + 1, settled := true,
        mat := vectorOf d, y := a.accumulate (vectorOf d) } := by
  have hpos : (a.writes + 64) % 65 = 64 := by omega
  rw [vector, forN_succ, forN_write_eq d h (Nat.le_refl 64), apply, if_pos (by dsimp only; omega)]
  -- 64 words have filled the data bytes, the 65th brings the weight
  have hmat : store (fun j => if j.val / 4 < 64 then vectorOf d j else a.mat j)
      ((a.writes + 64) % 65) (d 64) = vectorOf d := by
    funext j
    have hj := j.isLt
    rw [store, if_pos hpos]
    by_cases h256 : j.val = 256
    · rw [if_pos h256, vectorOf, h256]
    · rw [if_neg h256, if_pos (by simp only [DIM] at hj; omega)]
  have hcompleted : (a.writes + 64) / 65 = a.writes / 65 := by omega
  dsimp only
  rw [hmat]
  congr 1
  funext r
  rw [accumulate, accumulate, clears, clears, isFirst, isFirst, completed, completed]
  dsimp only
  rw [hcompleted]

/-- The product of vector `m` at lane `r`. -/
def product (m : Matrix) (r : Fin DIM) : Int := g (m r.castSucc) (m (Fin.last DIM))

/-- Where both counters are at 0, a vector is the first of a matrix. -/
theorem accumulate_first {a : Ledger} (hv : a.vectors = 0) (hf : a.completed % 128 = 0)
    (mat : Matrix) (r : Fin DIM) : a.accumulate mat r = BitVec.ofInt 16 (product mat r) := by
  rw [accumulate, clears, isFirst, hv, hf]
  show 0#16 + BitVec.ofInt 16 (product mat r) = _
  exact BitVec.zero_add _

/-- Where neither is, it adds to the matrix. -/
theorem accumulate_later {a : Ledger} (hv : a.vectors ≠ 0) (hlt : a.vectors < 1024)
    (hf : a.completed % 128 ≠ 0) (mat : Matrix) (r : Fin DIM) :
    a.accumulate mat r = a.y r + BitVec.ofInt 16 (product mat r) := by
  have hclear : a.clears = false :=
    beq_false_of_ne (mt (ofNat_eq_iff (k := 0) hlt (by omega)).mp hv)
  rw [accumulate, hclear, isFirst, beq_false_of_ne hf, if_neg Bool.false_ne_true]
  rfl

/-- Up to 128 vectors from a ready ledger: every one adds its product. -/
theorem columns_spec {a : Ledger} (h : Ready a) (d : Nat → Nat → BitVec 32) {n : Nat}
    (hn : n ≤ 128) :
    (a.columns d n).writes = a.writes + 65 * n ∧ (a.columns d n).reads = a.reads ∧
      (a.columns d n).vectors = n ∧
      (0 < n → (a.columns d n).settled = true ∧
        ∀ r, (a.columns d n).y r =
          BitVec.ofInt 16 (∑ c ∈ Finset.range n, product (vectorOf (d c)) r)) := by
  induction n with
  | zero => exact ⟨rfl, rfl, h.vectors, fun h0 => absurd h0 (Nat.lt_irrefl 0)⟩
  | succ n ih =>
    obtain ⟨hw, hr, hv, hy⟩ := ih (by omega)
    have hmod := h.writes
    rw [columns_succ, vector_eq (d n) (by omega)]
    refine ⟨by dsimp only; omega, hr, by dsimp only; omega, fun _ => ⟨rfl, fun r => ?_⟩⟩
    -- both counters are at 0 for the first vector, and at neither for the others
    have hcompleted : (a.columns d n).completed % 128 = n := by
      rw [completed, hw]
      omega
    dsimp only
    rw [Finset.sum_range_succ]
    by_cases h0 : n = 0
    · subst h0
      rw [accumulate_first hv hcompleted, Finset.sum_range_zero, Int.zero_add]
    · rw [accumulate_later (by omega) (by omega) (by omega), (hy (by omega)).2, BitVec.ofInt_add]

/-- Reads move the read position, close the matrix and leave everything else alone. -/
theorem readOut_spec {a : Ledger} (h : a.reads % 128 = 0) {n : Nat} (hn : n ≤ 128) :
    (a.readOut n).reads = a.reads + n ∧ (a.readOut n).writes = a.writes ∧
      (a.readOut n).vectors = (if n = 0 then a.vectors else 0) ∧
      (a.readOut n).settled = a.settled ∧ (a.readOut n).y = a.y := by
  induction n with
  | zero => exact ⟨rfl, rfl, rfl, rfl, rfl⟩
  | succ n ih =>
    obtain ⟨hr, hw, hv, hs, hy⟩ := ih (by omega)
    rw [readOut_succ, apply]
    refine ⟨by dsimp only; omega, hw, ?_, hs, hy⟩
    dsimp only
    rw [hv, if_neg (Nat.succ_ne_zero n)]
    by_cases h0 : n = 0
    · rw [if_pos (by omega)]
    · rw [if_neg (by omega), if_neg h0]

/-- A matrix and its read-out make the ledger ready again. -/
theorem ready_after {a : Ledger} (h : Ready a) (d : Nat → Nat → BitVec 32) :
    Ready ((a.columns d 128).readOut 128) := by
  obtain ⟨hw, hr, -, -⟩ := columns_spec h d (Nat.le_refl 128)
  have hmodw := h.writes
  have hmodr := h.reads
  obtain ⟨hr', hw', hv', -, -⟩ := readOut_spec (a := a.columns d 128) (by omega) (Nat.le_refl 128)
  exact ⟨by omega, by omega, hv'.trans (if_neg (by decide))⟩

end Ledger

end DcnnFpga.Rtl
