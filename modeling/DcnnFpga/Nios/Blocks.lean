import DcnnFpga.Nios.Conv
import Mathlib.Algebra.BigOperators.Group.List.Basic
import Mathlib.Tactic.Ring

/-!
# What the blocked product does, block by block

The inner loops of `blockedProduct` are closed forms: a row block leaves
`dataCell` and `weightCell` in `mat_block` (`Filled`), moves the two pointers by
known amounts and touches the cells of `blockLog`. Over a whole run `Ran` says
what remains: the calls of `mat_mul` are those of `positions`, in this order,
each over a filled block, and every output cell has grown by the results of the
calls that belong to it.

The weight pointer is set once for all row blocks of a column block, so
`weightCell` depends on the row block; `dataCell` does not.
-/

namespace DcnnFpga.Nios

open Lib

namespace Product

variable {σ : Type} (p : Product)

/-- Columns of a block that are in range. -/
def blockWidth (fb : Nat) : Nat := min 128 (p.filterSize - fb * 128)

/-- Column `c` of a block, row `n` of the data, with the padding. -/
def dataCell (fb n c : Nat) : BitVec 8 :=
  if n < p.flattenNum ∧ fb * 128 + c < p.filterSize then
    p.dataMat (n * p.filterSize + (fb * 128 + c))
  else 0

/-- Where `f_ptr` stands for column `c` of a block. -/
def weightIndex (i fb db c : Nat) : Nat :=
  fb * p.filterNum * 128 + i + (db * p.blockWidth fb + c) * p.filterNum

/-- The weight row of a block, with the padding. -/
def weightCell (i fb db c : Nat) : BitVec 8 :=
  if fb * 128 + c < p.filterSize then p.weightMat (p.weightIndex i fb db c) else 0

/-- The cells touched for one data row of a block. -/
def rowLog (fb db r : Nat) : List Access :=
  (List.range 128).flatMap fun c =>
    if db * 256 + r < p.flattenNum ∧ fb * 128 + c < p.filterSize then
      [.data ((db * 256 + r) * p.filterSize + (fb * 128 + c)), .matBlock r c]
    else [.matBlock r c]

/-- The cells touched for the weight row. -/
def weightLog (i fb db : Nat) : List Access :=
  (List.range 128).flatMap fun c =>
    if fb * 128 + c < p.filterSize then [.weight (p.weightIndex i fb db c), .matBlock 256 c]
    else [.matBlock 256 c]

/-- The cells touched when the result is added. -/
def resultLog (i db : Nat) : List Access :=
  (List.range 256).flatMap fun r =>
    if db * 256 + r < p.flattenNum then
      [.result r, .output ((db * 256 + r) * p.filterNum + i)]
    else []

/-- The cells touched for a whole row block. -/
def blockLog (i fb db : Nat) : List Access :=
  (List.range 256).flatMap (p.rowLog fb db) ++ p.weightLog i fb db ++ p.resultLog i db

/-- `mat_block` when `mat_mul` is called. -/
def filledBlock (i fb db : Nat) (m : Bytes) : Bytes := fun j =>
  if j / 128 < 256 then p.dataCell fb (db * 256 + j / 128) (j % 128)
  else if j / 128 = 256 then p.weightCell i fb db (j % 128)
  else m j

/-- The output after a result has been added. -/
def addedResult (i db : Nat) (result out : Nat → BitVec 16) : Nat → BitVec 16 := fun j =>
  if j % p.filterNum = i ∧ j / p.filterNum / 256 = db ∧ j / p.filterNum < p.flattenNum then
    out j + result (j / p.filterNum % 256)
  else out j

/-! ## The inner loops -/

/-- Filling row `r` of a block one cell further. -/
theorem setAt_row (m : Bytes) (v : Nat → BitVec 8) {r k : Nat} (hk : k < 128) :
    setAt (fun j => if j / 128 = r ∧ j % 128 < k then v (j % 128) else m j) (r * 128 + k) (v k)
      = fun j => if j / 128 = r ∧ j % 128 < k + 1 then v (j % 128) else m j := by
  funext j
  unfold setAt
  beta_reduce
  by_cases hj : j = r * 128 + k
  · rw [if_pos hj, if_pos (by omega), show j % 128 = k by omega]
  · rw [if_neg hj]
    by_cases hin : j / 128 = r ∧ j % 128 < k
    · rw [if_pos hin, if_pos (by omega)]
    · rw [if_neg hin, if_neg (by omega)]

/-- A whole row more: `k` rows hold `v`, and row `k` has been filled with `u`. -/
theorem rows_succ (m u v : Bytes) {k : Nat} (h : ∀ j, j / 128 = k → u j = v j) :
    (fun j => if j / 128 = k ∧ j % 128 < 128 then u j else if j / 128 < k then v j else m j)
      = fun j => if j / 128 < k + 1 then v j else m j := by
  funext j
  by_cases hj : j / 128 = k
  · rw [if_pos ⟨hj, Nat.mod_lt _ (by decide)⟩, if_pos (by omega), h j hj]
  · rw [if_neg fun hc => hj hc.1]
    by_cases hlt : j / 128 < k
    · rw [if_pos hlt, if_pos (by omega)]
    · rw [if_neg hlt, if_neg (by omega)]

variable {p} {s : Locals σ} {i fb db : Nat}

/-- A data row in range. -/
theorem forN_copyCell (r : Nat) {k : Nat} (hk : k ≤ 128) :
    forN k (p.copyCell fb r) s =
      { s with
        matBlock := fun j =>
          if j / 128 = r ∧ j % 128 < k then
            (if fb * 128 + j % 128 < p.filterSize then p.dataMat (s.dPtr + j % 128) else 0)
          else s.matBlock j
        dPtr := s.dPtr + min k (p.filterSize - fb * 128)
        accesses := s.accesses ++ (List.range k).flatMap fun c =>
          if fb * 128 + c < p.filterSize then [.data (s.dPtr + c), .matBlock r c]
          else [.matBlock r c] } := by
  induction k with
  | zero => simp
  | succ k ih =>
    have hrow := setAt_row s.matBlock (fun c =>
      if fb * 128 + c < p.filterSize then p.dataMat (s.dPtr + c) else 0) (r := r) (k := k) hk
    rw [forN_succ, ih (by omega), copyCell]
    dsimp only at hrow ⊢
    rw [List.range_succ, List.flatMap_append, List.flatMap_singleton]
    by_cases hin : fb * 128 + k < p.filterSize
    · rw [if_pos hin] at hrow ⊢
      rw [if_pos hin, ← hrow, setBlock]
      dsimp only
      rw [show min k (p.filterSize - fb * 128) = k by omega,
        show min (k + 1) (p.filterSize - fb * 128) = k + 1 by omega, List.append_assoc]
      rfl
    · rw [if_neg hin] at hrow ⊢
      rw [if_neg hin, ← hrow, setBlock]
      dsimp only
      rw [show min (k + 1) (p.filterSize - fb * 128) = min k (p.filterSize - fb * 128) by omega,
        List.append_assoc]
      rfl

/-- A data row out of range. -/
theorem forN_clearRow (r : Nat) {k : Nat} (hk : k ≤ 128) :
    forN k (fun c s => setBlock r c 0 [] s) s =
      { s with
        matBlock := fun j => if j / 128 = r ∧ j % 128 < k then 0 else s.matBlock j
        accesses := s.accesses ++ (List.range k).flatMap fun c => [.matBlock r c] } := by
  induction k with
  | zero => simp
  | succ k ih =>
    have hrow := setAt_row s.matBlock (fun _ => 0) (r := r) (k := k) hk
    rw [forN_succ, ih (by omega), setBlock, List.range_succ, List.flatMap_append,
      List.flatMap_singleton, ← hrow]
    dsimp only
    rw [List.append_assoc]
    rfl

/-- The data rows of a block. In range they are a prefix, and each leaves `d_ptr`
at the start of the next. -/
theorem forN_copyRow (hd : s.dPtr = fb * 128 + db * 256 * p.filterSize) {k : Nat}
    (hk : k ≤ 256) :
    forN k (p.copyRow fb db) s =
      { s with
        matBlock := fun j =>
          if j / 128 < k then p.dataCell fb (db * 256 + j / 128) (j % 128) else s.matBlock j
        dPtr := s.dPtr + min k (p.flattenNum - db * 256) * p.filterSize
        accesses := s.accesses ++ (List.range k).flatMap (p.rowLog fb db) } := by
  induction k with
  | zero => simp
  | succ k ih =>
    rw [forN_succ, ih (by omega), copyRow, List.range_succ, List.flatMap_append,
      List.flatMap_singleton]
    by_cases hin : db * 256 + k < p.flattenNum
    · have hptr : ∀ c, s.dPtr + min k (p.flattenNum - db * 256) * p.filterSize + c
          = (db * 256 + k) * p.filterSize + (fb * 128 + c) := by
        intro c
        rw [hd, show min k (p.flattenNum - db * 256) = k by omega]
        ring
      have hlog : ((List.range 128).flatMap fun c =>
          if fb * 128 + c < p.filterSize then
            [Access.data (s.dPtr + min k (p.flattenNum - db * 256) * p.filterSize + c),
              .matBlock k c]
          else [.matBlock k c]) = p.rowLog fb db k := by
        unfold rowLog
        simp only [hptr, hin, true_and]
      rw [if_pos hin, forN_copyCell k (Nat.le_refl 128)]
      dsimp only
      rw [hlog, List.append_assoc]
      congr 1
      · refine rows_succ s.matBlock _ (fun j => p.dataCell fb (db * 256 + j / 128) (j % 128))
          fun j hj => ?_
        rw [dataCell, hptr, hj]
        simp only [hin, true_and]
      · rw [hd, show min (k + 1) (p.flattenNum - db * 256) = k + 1 by omega]
        ring
    · have hlog : ((List.range 128).flatMap fun c => [Access.matBlock k c])
          = p.rowLog fb db k := by
        unfold rowLog
        simp only [hin, false_and, if_false]
      rw [if_neg hin, forN_clearRow k (Nat.le_refl 128)]
      dsimp only
      rw [hlog, List.append_assoc,
        show min (k + 1) (p.flattenNum - db * 256) = min k (p.flattenNum - db * 256) by omega]
      congr 1
      refine rows_succ s.matBlock _ (fun j => p.dataCell fb (db * 256 + j / 128) (j % 128))
        fun j hj => ?_
      rw [dataCell, hj, if_neg fun h => hin h.1]

/-- The weight row of a block. -/
theorem forN_copyWeight
    (hf : s.fPtr = fb * p.filterNum * 128 + i + db * p.blockWidth fb * p.filterNum)
    {k : Nat} (hk : k ≤ 128) :
    forN k (p.copyWeight fb) s =
      { s with
        matBlock := fun j =>
          if j / 128 = 256 ∧ j % 128 < k then p.weightCell i fb db (j % 128) else s.matBlock j
        fPtr := s.fPtr + min k (p.filterSize - fb * 128) * p.filterNum
        accesses := s.accesses ++ (List.range k).flatMap fun c =>
          if fb * 128 + c < p.filterSize then [.weight (p.weightIndex i fb db c), .matBlock 256 c]
          else [.matBlock 256 c] } := by
  induction k with
  | zero => simp
  | succ k ih =>
    have hrow := setAt_row s.matBlock (p.weightCell i fb db) (r := 256) (k := k) hk
    rw [forN_succ, ih (by omega), copyWeight]
    dsimp only
    rw [List.range_succ, List.flatMap_append, List.flatMap_singleton, ← hrow]
    by_cases hin : fb * 128 + k < p.filterSize
    · have hptr : s.fPtr + min k (p.filterSize - fb * 128) * p.filterNum
          = p.weightIndex i fb db k := by
        rw [hf, show min k (p.filterSize - fb * 128) = k by omega, weightIndex]
        ring
      have hcell : p.weightCell i fb db k = p.weightMat (p.weightIndex i fb db k) := if_pos hin
      rw [if_pos hin, if_pos hin, setBlock, hptr, hcell]
      dsimp only
      rw [List.append_assoc, ← hptr, Nat.add_assoc, ← Nat.succ_mul,
        show min (k + 1) (p.filterSize - fb * 128) = (min k (p.filterSize - fb * 128)).succ by omega]
      rfl
    · have hcell : p.weightCell i fb db k = 0 := if_neg hin
      rw [if_neg hin, if_neg hin, setBlock, hcell]
      dsimp only
      rw [List.append_assoc,
        show min (k + 1) (p.filterSize - fb * 128) = min k (p.filterSize - fb * 128) by omega]
      rfl

/-- The output cell of row `db * 256 + k`, filter `i`. -/
theorem eq_outputCell_iff (hi : i < p.filterNum) (db : Nat) {k j : Nat} (hk : k < 256) :
    j = (db * 256 + k) * p.filterNum + i ↔
      j % p.filterNum = i ∧ j / p.filterNum / 256 = db ∧ j / p.filterNum % 256 = k := by
  constructor
  · rintro rfl
    rw [Nat.mul_add_mod_of_lt hi, row_major_div hi]
    omega
  · rintro ⟨hmod, hdb, hr⟩
    rw [← hmod, show db * 256 + k = j / p.filterNum by omega]
    exact (Nat.div_add_mod' j p.filterNum).symm

/-- Adding the results of a block. -/
theorem forN_addResult (hi : i < p.filterNum) {k : Nat} (hk : k ≤ 256) :
    forN k (p.addResult i db) s =
      { s with
        outputMat := fun j =>
          if j % p.filterNum = i ∧ j / p.filterNum / 256 = db ∧ j / p.filterNum < p.flattenNum ∧
              j / p.filterNum % 256 < k then
            s.outputMat j + s.result (j / p.filterNum % 256)
          else s.outputMat j
        accesses := s.accesses ++ (List.range k).flatMap fun r =>
          if db * 256 + r < p.flattenNum then
            [.result r, .output ((db * 256 + r) * p.filterNum + i)]
          else [] } := by
  induction k with
  | zero => simp
  | succ k ih =>
    rw [forN_succ, ih (by omega), addResult]
    dsimp only
    rw [List.range_succ, List.flatMap_append, List.flatMap_singleton]
    have hcell := fun j => eq_outputCell_iff hi db (show k < 256 by omega) (j := j)
    by_cases hin : db * 256 + k < p.flattenNum
    · rw [if_pos hin, if_pos hin]
      congr 1
      · funext j
        unfold setAt
        beta_reduce
        by_cases hj : j = (db * 256 + k) * p.filterNum + i
        · obtain ⟨hmod, hdb, hr⟩ := (hcell j).mp hj
          rw [if_pos hj, ← hj, if_neg (by omega), if_pos (by omega), hr]
        · rw [if_neg hj]
          have hne := mt (hcell j).mpr hj
          by_cases hold : j % p.filterNum = i ∧ j / p.filterNum / 256 = db ∧
              j / p.filterNum < p.flattenNum ∧ j / p.filterNum % 256 < k
          · rw [if_pos hold, if_pos (by omega)]
          · rw [if_neg hold, if_neg (by omega)]
      · rw [List.append_assoc]
    · rw [if_neg hin, if_neg hin, List.append_nil]
      congr 1
      funext j
      by_cases hold : j % p.filterNum = i ∧ j / p.filterNum / 256 = db ∧
          j / p.filterNum < p.flattenNum ∧ j / p.filterNum % 256 < k
      · rw [if_pos hold, if_pos (by omega)]
      · rw [if_neg hold, if_neg (by omega)]

/-- The filled rows and the weight row are the block handed to `mat_mul`. -/
theorem filledBlock_eq (p : Product) (i fb db : Nat) (m : Bytes) :
    (fun j => if j / 128 = 256 ∧ j % 128 < 128 then p.weightCell i fb db (j % 128)
      else if j / 128 < 256 then p.dataCell fb (db * 256 + j / 128) (j % 128) else m j)
      = p.filledBlock i fb db m := by
  funext j
  unfold filledBlock
  by_cases hlt : j / 128 < 256
  · rw [if_neg (by omega), if_pos hlt, if_pos hlt]
  · rw [if_neg hlt, if_neg hlt]
    by_cases h256 : j / 128 = 256
    · rw [if_pos h256, if_pos ⟨h256, Nat.mod_lt _ (by decide)⟩]
    · rw [if_neg h256, if_neg fun h => h256 h.1]

/-- All 256 rows of a result. -/
theorem addedResult_eq (p : Product) (i db : Nat) (result out : Nat → BitVec 16) :
    (fun j =>
      if j % p.filterNum = i ∧ j / p.filterNum / 256 = db ∧ j / p.filterNum < p.flattenNum ∧
          j / p.filterNum % 256 < 256 then out j + result (j / p.filterNum % 256)
      else out j) = p.addedResult i db result out := by
  funext j
  unfold addedResult
  simp only [Nat.mod_lt _ (show 256 > 0 by decide), and_true]

/-- **One block**: what is handed to `mat_mul`, and what is left behind. -/
theorem block_eq {matMul : MatMul σ} (hi : i < p.filterNum)
    (hd : s.dPtr = fb * 128 + db * 256 * p.filterSize)
    (hf : s.fPtr = fb * p.filterNum * 128 + i + db * p.blockWidth fb * p.filterNum) :
    p.block matMul i fb db s =
      (matMul s.dev (p.filledBlock i fb db s.matBlock) s.result).map fun q =>
        { dev := q.1
          matBlock := p.filledBlock i fb db s.matBlock
          result := q.2
          dPtr := s.dPtr + min 256 (p.flattenNum - db * 256) * p.filterSize
          fPtr := s.fPtr + p.blockWidth fb * p.filterNum
          outputMat := p.addedResult i db q.2 s.outputMat
          accesses := s.accesses ++ p.blockLog i fb db
          calls := s.calls ++ [⟨i, fb, db, p.filledBlock i fb db s.matBlock, q.2⟩] } := by
  have hrows := forN_copyRow hd (Nat.le_refl 256)
  have hf' : (forN 256 (p.copyRow fb db) s).fPtr
      = fb * p.filterNum * 128 + i + db * p.blockWidth fb * p.filterNum := by
    rw [hrows]
    exact hf
  unfold block callMatMul
  rw [forN_copyWeight hf' (Nat.le_refl 128), hrows]
  dsimp only
  rw [filledBlock_eq, Option.map_map]
  refine congrArg (Option.map · _) (funext fun q => ?_)
  rw [Function.comp_apply, forN_addResult hi (Nat.le_refl 256)]
  dsimp only
  rw [addedResult_eq, blockLog, weightLog, resultLog, List.append_assoc, List.append_assoc,
    List.append_assoc]
  rfl

/-! ## The run -/

section Run

variable (p) (i fb : Nat)

/-- The row blocks of a column block, in order. -/
def rowBlocks (k : Nat) : List (Nat × Nat × Nat) := (List.range k).map fun db => (i, fb, db)

/-- The blocks of the first `k` column blocks of a filter. -/
def columnBlocks (k : Nat) : List (Nat × Nat × Nat) :=
  (List.range k).flatMap fun fb => rowBlocks i fb p.dataBlocks

/-- The blocks of the first `k` filters. -/
def positions (k : Nat) : List (Nat × Nat × Nat) :=
  (List.range k).flatMap fun i => p.columnBlocks i p.filterBlocks

end Run

end Product

/-- The block a call is about. -/
def Call.position (c : Call) : Nat × Nat × Nat := (c.i, c.fb, c.db)

namespace Product

variable {σ : Type} {p : Product}

/-- The results for output cell `j`, which belongs to row `j / F` of filter `j % F`. -/
def tally (p : Product) (calls : List Call) (j : Nat) : List (BitVec 16) :=
  (calls.filter fun c => c.i = j % p.filterNum ∧ c.db = j / p.filterNum / 256).map fun c =>
    c.result (j / p.filterNum % 256)

/-- What a run has done after the blocks `ps`; `R` is what `mat_mul` guarantees. -/
structure Ran (p : Product) (R : Bytes → (Nat → BitVec 16) → Prop) (out : Nat → BitVec 16)
    (ps : List (Nat × Nat × Nat)) (s : Locals σ) : Prop where
  positions : s.calls.map Call.position = ps
  /-- each block is filled, whatever an earlier one left in it -/
  filled : ∀ c ∈ s.calls, ∃ m, c.block = p.filledBlock c.i c.fb c.db m
  answered : ∀ c ∈ s.calls, R c.block c.result
  output : ∀ j, s.outputMat j =
    out j + if j / p.filterNum < p.flattenNum then (p.tally s.calls j).sum else 0
  accesses : s.accesses = ps.flatMap fun q => p.blockLog q.1 q.2.1 q.2.2

/-- What is assumed of `mat_mul` and the device: from `I` it returns, keeps `I`,
and its result satisfies `R`. -/
def Lawful (matMul : MatMul σ) (I : σ → Prop) (R : Bytes → (Nat → BitVec 16) → Prop) : Prop :=
  ∀ dev block result, I dev →
    ∃ dev' result', matMul dev block result = some (dev', result') ∧ I dev' ∧ R block result'

/-- The same without the promise to return. -/
def Sound (matMul : MatMul σ) (I : σ → Prop) (R : Bytes → (Nat → BitVec 16) → Prop) : Prop :=
  ∀ dev block result dev' result', I dev → matMul dev block result = some (dev', result') →
    I dev' ∧ R block result'

section Run

variable {matMul : MatMul σ} {I : σ → Prop} {R : Bytes → (Nat → BitVec 16) → Prop}
  {out : Nat → BitVec 16} {ps : List (Nat × Nat × Nat)} {s s' : Locals σ} {i fb db : Nat}

theorem Lawful.sound (h : Lawful matMul I R) : Sound matMul I R := by
  intro dev block result dev' result' hI heq
  obtain ⟨dev'', result'', heq', hI', hR⟩ := h dev block result hI
  rw [heq] at heq'
  cases heq'
  exact ⟨hI', hR⟩

theorem tally_append (p : Product) (calls : List Call) (c : Call) (j : Nat) :
    (p.tally (calls ++ [c]) j).sum = (p.tally calls j).sum +
      if c.i = j % p.filterNum ∧ c.db = j / p.filterNum / 256 then
        c.result (j / p.filterNum % 256)
      else 0 := by
  unfold tally
  rw [List.filter_append, List.map_append, List.sum_append]
  congr 1
  by_cases hc : c.i = j % p.filterNum ∧ c.db = j / p.filterNum / 256
  · rw [if_pos hc, List.filter_cons_of_pos (by simpa using hc), List.filter_nil,
      List.map_singleton, List.sum_singleton]
  · rw [if_neg hc, List.filter_cons_of_neg (by simpa using hc)]
    rfl

/-- **Step lemma**: a block adds its position to the run. -/
theorem Ran.block (h : Ran p R out ps s) (hI : I s.dev) (hmat : Sound matMul I R)
    (hi : i < p.filterNum) (hd : s.dPtr = fb * 128 + db * 256 * p.filterSize)
    (hf : s.fPtr = fb * p.filterNum * 128 + i + db * p.blockWidth fb * p.filterNum)
    (heq : p.block matMul i fb db s = some s') :
    Ran p R out (ps ++ [(i, fb, db)]) s' ∧ I s'.dev ∧
      s'.dPtr = s.dPtr + min 256 (p.flattenNum - db * 256) * p.filterSize ∧
      s'.fPtr = s.fPtr + p.blockWidth fb * p.filterNum := by
  rw [block_eq hi hd hf, Option.map_eq_some_iff] at heq
  obtain ⟨⟨dev', result'⟩, hcall, rfl⟩ := heq
  obtain ⟨hI', hR⟩ := hmat _ _ _ _ _ hI hcall
  refine ⟨?_, hI', rfl, rfl⟩
  exact {
    positions := by
      show (s.calls ++ [_]).map Call.position = _
      rw [List.map_append, h.positions]
      rfl
    filled := by
      intro c hc
      rcases List.mem_append.mp hc with hc | hc
      · exact h.filled c hc
      · obtain rfl := List.mem_singleton.mp hc
        exact ⟨s.matBlock, rfl⟩
    answered := by
      intro c hc
      rcases List.mem_append.mp hc with hc | hc
      · exact h.answered c hc
      · obtain rfl := List.mem_singleton.mp hc
        exact hR
    output := by
      intro j
      show p.addedResult i db result' s.outputMat j = _
      dsimp only
      rw [tally_append, addedResult, h.output j]
      dsimp only
      by_cases hrow : j / p.filterNum < p.flattenNum
      · by_cases hcell : j % p.filterNum = i ∧ j / p.filterNum / 256 = db
        · rw [if_pos ⟨hcell.1, hcell.2, hrow⟩, if_pos hrow, if_pos hrow,
            if_pos ⟨hcell.1.symm, hcell.2.symm⟩, BitVec.add_assoc]
        · rw [if_neg fun hc => hcell ⟨hc.1, hc.2.1⟩, if_pos hrow, if_pos hrow,
            if_neg fun hc => hcell ⟨hc.1.symm, hc.2.symm⟩, add_zero]
      · rw [if_neg fun hc => hrow hc.2.2, if_neg hrow, if_neg hrow]
    accesses := by
      show s.accesses ++ _ = _
      rw [h.accesses, List.flatMap_append, List.flatMap_singleton] }

/-- A column block runs through all its row blocks. While there is a next one,
the block before it was full, and `d_ptr` has come to its first row. -/
theorem Ran.filterBlock (h : Ran p R out ps s) (hI : I s.dev) (hmat : Sound matMul I R)
    (hi : i < p.filterNum) (heq : p.filterBlock matMul i fb s = some s') :
    Ran p R out (ps ++ rowBlocks i fb p.dataBlocks) s' ∧ I s'.dev := by
  unfold Product.filterBlock at heq
  have hloop : (Ran p R out (ps ++ rowBlocks i fb p.dataBlocks) s' ∧ I s'.dev) ∧
      (p.dataBlocks < p.dataBlocks →
        s'.dPtr = fb * 128 + p.dataBlocks * 256 * p.filterSize) ∧
      s'.fPtr = fb * p.filterNum * 128 + i + p.dataBlocks * p.blockWidth fb * p.filterNum := by
    -- the invariant: the row blocks so far, and where the two pointers stand
    refine forSome_inv_of_eq (P := fun k (s : Locals σ) =>
      (Ran p R out (ps ++ rowBlocks i fb k) s ∧ I s.dev) ∧
        (k < p.dataBlocks → s.dPtr = fb * 128 + k * 256 * p.filterSize) ∧
        s.fPtr = fb * p.filterNum * 128 + i + k * p.blockWidth fb * p.filterNum)
      p.dataBlocks ⟨⟨?_, ?_⟩, fun _ => ?_, ?_⟩ ?_ heq
    · show Ran p R out (ps ++ []) _
      rw [List.append_nil]
      exact ⟨h.positions, h.filled, h.answered, h.output, h.accesses⟩
    · exact hI
    · show fb * 128 = fb * 128 + 0 * 256 * p.filterSize
      ring
    · show fb * p.filterNum * 128 + i =
        fb * p.filterNum * 128 + i + 0 * p.blockWidth fb * p.filterNum
      ring
    -- both pointers stand where the next row block needs them
    · rintro k hk s s' ⟨⟨hran, hI⟩, hd, hf⟩ heq
      obtain ⟨hran', hI', hd', hf'⟩ := hran.block hI hmat hi (hd hk) hf heq
      refine ⟨⟨?_, hI'⟩, fun hk' => ?_, ?_⟩
      · rw [rowBlocks, List.range_succ, List.map_append, List.map_singleton, ← List.append_assoc]
        exact hran'
      · have hfull : min 256 (p.flattenNum - k * 256) = 256 := by
          unfold dataBlocks at hk'
          omega
        rw [hd', hd hk, hfull]
        ring
      · rw [hf', hf]
        ring
  exact hloop.1

theorem Ran.filter (h : Ran p R out ps s) (hI : I s.dev) (hmat : Sound matMul I R)
    (hi : i < p.filterNum)
    (heq : forSome p.filterBlocks (p.filterBlock matMul i) s = some s') :
    Ran p R out (ps ++ p.columnBlocks i p.filterBlocks) s' ∧ I s'.dev := by
  refine forSome_inv_of_eq (P := fun k (s : Locals σ) =>
    Ran p R out (ps ++ p.columnBlocks i k) s ∧ I s.dev) p.filterBlocks ⟨?_, hI⟩ ?_ heq
  · show Ran p R out (ps ++ []) s
    rwa [List.append_nil]
  · rintro k _ s s' ⟨hran, hI⟩ heq
    rw [columnBlocks, List.range_succ, List.flatMap_append, List.flatMap_singleton,
      ← List.append_assoc]
    exact hran.filterBlock hI hmat hi heq

/-- **Run lemma**: a run that ends has made exactly the calls of all blocks. -/
theorem blockedProduct_ran (hmat : Sound matMul I R) {dev : σ} (hdev : I dev) {beyond : Bytes}
    (heq : p.blockedProduct matMul dev beyond out = some s) :
    Ran p R out (p.positions p.filterNum) s ∧ I s.dev := by
  unfold blockedProduct at heq
  refine forSome_inv_of_eq (P := fun k (s : Locals σ) =>
    Ran p R out (p.positions k) s ∧ I s.dev) p.filterNum ⟨?_, hdev⟩ ?_ heq
  · exact {
      positions := rfl
      filled := fun _ hc => nomatch hc
      answered := fun _ hc => nomatch hc
      output := fun j => by simp [locals, tally]
      accesses := rfl }
  · rintro k hk s s' ⟨hran, hI⟩ heq
    rw [positions, List.range_succ, List.flatMap_append, List.flatMap_singleton]
    exact hran.filter hI hmat hk heq

/-! ## The run ends -/

theorem copyRow_dev (p : Product) (fb db r : Nat) (s : Locals σ) :
    (p.copyRow fb db r s).dev = s.dev := by
  unfold copyRow
  split
  · show (forN 128 (p.copyCell fb r) s).dev = s.dev
    refine forN_inv (P := fun _ (t : Locals σ) => t.dev = s.dev) 128 rfl fun c _ t ht => ?_
    unfold copyCell
    split <;> exact ht
  · exact forN_inv (P := fun _ (t : Locals σ) => t.dev = s.dev) 128 rfl fun _ _ _ ht => ht

/-- The inner loops leave the device alone. -/
theorem copy_dev (p : Product) (fb db : Nat) (s : Locals σ) :
    (forN 128 (p.copyWeight fb) (forN 256 (p.copyRow fb db) s)).dev = s.dev := by
  refine forN_inv (P := fun _ (t : Locals σ) => t.dev = s.dev) 128 ?_ fun c _ t ht => ?_
  · exact forN_inv (P := fun _ (t : Locals σ) => t.dev = s.dev) 256 rfl
      fun r _ t ht => (copyRow_dev p fb db r t).trans ht
  · unfold copyWeight
    split <;> exact ht

theorem addResult_dev (p : Product) (i db : Nat) (s : Locals σ) :
    (forN 256 (p.addResult i db) s).dev = s.dev := by
  refine forN_inv (P := fun _ (t : Locals σ) => t.dev = s.dev) 256 rfl fun r _ t ht => ?_
  unfold addResult
  split <;> exact ht

theorem block_total (hmat : Lawful matMul I R) (hI : I s.dev) :
    ∃ s', p.block matMul i fb db s = some s' ∧ I s'.dev := by
  unfold block callMatMul
  rw [copy_dev]
  obtain ⟨dev', result', hcall, hI', -⟩ := hmat s.dev
    (forN 128 (p.copyWeight fb) (forN 256 (p.copyRow fb db) s)).matBlock
    (forN 128 (p.copyWeight fb) (forN 256 (p.copyRow fb db) s)).result hI
  rw [hcall]
  refine ⟨_, rfl, ?_⟩
  rw [addResult_dev]
  exact hI'

/-- With a lawful `mat_mul` the run ends. -/
theorem blockedProduct_total (p : Product) (hmat : Lawful matMul I R) {dev : σ} (hdev : I dev)
    (beyond : Bytes) (out : Nat → BitVec 16) :
    ∃ s, p.blockedProduct matMul dev beyond out = some s := by
  have hend : ∃ s, p.blockedProduct matMul dev beyond out = some s ∧ I s.dev := by
    refine forSome_inv (P := fun _ (s : Locals σ) => I s.dev) p.filterNum hdev fun i _ s hI => ?_
    refine forSome_inv (P := fun _ (s : Locals σ) => I s.dev) p.filterBlocks hI fun fb _ s hI => ?_
    exact forSome_inv (P := fun _ (s : Locals σ) => I s.dev) p.dataBlocks hI
      fun db _ s hI => block_total hmat hI
  obtain ⟨s, hs, -⟩ := hend
  exact ⟨s, hs⟩

/-- Both together. -/
theorem blockedProduct_spec (p : Product) (hmat : Lawful matMul I R) {dev : σ} (hdev : I dev)
    (beyond : Bytes) (out : Nat → BitVec 16) :
    ∃ s, p.blockedProduct matMul dev beyond out = some s ∧
      Ran p R out (p.positions p.filterNum) s := by
  obtain ⟨s, hs⟩ := blockedProduct_total p hmat hdev beyond out
  exact ⟨s, hs, (blockedProduct_ran hmat.sound hdev hs).1⟩

/-- Both functions return, with the same locals: they share the loops. -/
theorem both_return (p : Product) (hmat : Lawful matMul I R) {dev : σ} (hdev : I dev)
    (beyond tempFmap : Bytes) (out : Nat → BitVec 16) :
    ∃ s cube, p.fullyConnencted matMul dev beyond out = some s ∧
      p.conv matMul dev beyond tempFmap out = some (s, cube) ∧
      Ran p R out (p.positions p.filterNum) s := by
  obtain ⟨s, hs, hran⟩ := blockedProduct_spec p hmat hdev beyond out
  exact ⟨s, _, hs, by rw [conv, hs]; rfl, hran⟩

/-- `s` is what one of the two functions leaves, when it returns. -/
def Returns (p : Product) (matMul : MatMul σ) (dev : σ) (beyond tempFmap : Bytes)
    (out : Nat → BitVec 16) (s : Locals σ) : Prop :=
  p.fullyConnencted matMul dev beyond out = some s ∨
    ∃ cube, p.conv matMul dev beyond tempFmap out = some (s, cube)

/-- What a returning run has done, whatever `mat_mul` does. -/
theorem Returns.ran {dev : σ} {beyond tempFmap : Bytes}
    (h : p.Returns matMul dev beyond tempFmap out s) :
    Ran p (fun _ _ => True) out (p.positions p.filterNum) s := by
  have hsound : Sound matMul (fun _ => True) (fun _ _ => True) :=
    fun _ _ _ _ _ _ _ => ⟨trivial, trivial⟩
  have hblocked : p.blockedProduct matMul dev beyond out = some s := by
    rcases h with h | ⟨cube, h⟩
    · exact h
    · obtain ⟨t, ht, heq⟩ := Option.map_eq_some_iff.mp h
      obtain ⟨rfl, -⟩ := Prod.mk.inj heq
      exact ht
  exact (blockedProduct_ran hsound trivial hblocked).1

end Run

end Product

end DcnnFpga.Nios
