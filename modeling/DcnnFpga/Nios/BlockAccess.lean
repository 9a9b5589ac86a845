import DcnnFpga.Nios.OnSlave

/-!
# The cells `conv` and `fully_connencted` touch

`blockLog` lists the cells a block touches. The data, the block, the result and the
output are always touched inside their arrays (`blockLog_inBounds`), whatever the
sizes. The weights are touched inside `weight_mat` in the first row block only: in
the second one the pointer goes on from where the first one left it, and in the
last column block that is behind the end (`weight_of_second_block`).

The data half of a block is the closed form `dataCell`, whatever an earlier block
left there, and an element of the data is in one block for each filter
(`data_presented`).
-/

namespace DcnnFpga.Nios

open Lib Rtl

namespace Product

variable {σ : Type} {p : Product}

/-- The cell lies in its array. -/
def InBounds (p : Product) : Access → Prop
  | .data j => j < p.flattenNum * p.filterSize
  | .weight j => j < p.filterSize * p.filterNum
  | .matBlock r c => r < 257 ∧ c < 128
  | .result j => j < 256
  | .output j => j < p.flattenNum * p.filterNum

/-! ## In bounds -/

section Log

variable {i fb db : Nat}

theorem rowLog_inBounds {r : Nat} (hr : r < 256) : ∀ a ∈ p.rowLog fb db r, p.InBounds a := by
  intro a ha
  obtain ⟨c, hc, ha⟩ := List.mem_flatMap.mp ha
  have hc' := List.mem_range.mp hc
  have hblock : p.InBounds (.matBlock r c) := ⟨by omega, hc'⟩
  split at ha
  next hin =>
    rcases List.mem_cons.mp ha with rfl | ha
    · exact row_major_lt hin.1 hin.2
    · rw [List.mem_singleton.mp ha]
      exact hblock
  next =>
    rw [List.mem_singleton.mp ha]
    exact hblock

theorem resultLog_inBounds (hi : i < p.filterNum) : ∀ a ∈ p.resultLog i db, p.InBounds a := by
  intro a ha
  obtain ⟨r, hr, ha⟩ := List.mem_flatMap.mp ha
  split at ha
  next hin =>
    rcases List.mem_cons.mp ha with rfl | ha
    · exact List.mem_range.mp hr
    · rw [List.mem_singleton.mp ha]
      exact row_major_lt hin hi
  next => nomatch ha

/-- Where `f_ptr` stands, as a row and a column of the weights. -/
theorem weightIndex_eq (i fb db c : Nat) :
    p.weightIndex i fb db c = (fb * 128 + db * p.blockWidth fb + c) * p.filterNum + i := by
  unfold weightIndex
  ring

/-- The weights of the first row block. -/
theorem weightLog_inBounds (hi : i < p.filterNum) : ∀ a ∈ p.weightLog i fb 0, p.InBounds a := by
  intro a ha
  obtain ⟨c, hc, ha⟩ := List.mem_flatMap.mp ha
  have hblock : p.InBounds (.matBlock 256 c) := ⟨by decide, List.mem_range.mp hc⟩
  split at ha
  next hin =>
    rcases List.mem_cons.mp ha with rfl | ha
    · show p.weightIndex i fb 0 c < p.filterSize * p.filterNum
      rw [weightIndex_eq, Nat.zero_mul, Nat.add_zero]
      exact row_major_lt hin hi
    · rw [List.mem_singleton.mp ha]
      exact hblock
  next =>
    rw [List.mem_singleton.mp ha]
    exact hblock

theorem blockLog_inBounds (hi : i < p.filterNum) : ∀ a ∈ p.blockLog i fb 0, p.InBounds a := by
  intro a ha
  rcases List.mem_append.mp ha with ha | ha
  · rcases List.mem_append.mp ha with ha | ha
    · obtain ⟨r, hr, ha⟩ := List.mem_flatMap.mp ha
      exact rowLog_inBounds (List.mem_range.mp hr) a ha
    · exact weightLog_inBounds hi a ha
  · exact resultLog_inBounds hi a ha

/-- In the last column block the second row block begins behind the weights. -/
theorem weight_of_second_block (hK : 1 ≤ p.filterSize) (i : Nat) :
    Access.weight (p.weightIndex i (p.filterBlocks - 1) 1 0) ∈
        p.blockLog i (p.filterBlocks - 1) 1 ∧
      ¬ p.InBounds (.weight (p.weightIndex i (p.filterBlocks - 1) 1 0)) := by
  have hlast : (p.filterBlocks - 1) * 128 < p.filterSize := by
    unfold filterBlocks
    omega
  constructor
  · refine List.mem_append_left _ (List.mem_append_right _ (List.mem_flatMap.mpr ⟨0, ?_, ?_⟩))
    · exact List.mem_range.mpr (by decide)
    · rw [if_pos (Nat.add_zero _ ▸ hlast)]
      exact List.mem_cons_self
  · -- the first row block has used up the columns that were left
    have hused : (p.filterBlocks - 1) * 128 + 1 * p.blockWidth (p.filterBlocks - 1) + 0 =
        p.filterSize := by
      unfold blockWidth
      unfold filterBlocks at hlast ⊢
      omega
    show ¬ p.weightIndex i (p.filterBlocks - 1) 1 0 < p.filterSize * p.filterNum
    rw [weightIndex_eq, hused]
    omega

end Log

/-- The blocks visited are those of the bounds of the loops. -/
theorem mem_positions {i fb db k : Nat} :
    (i, fb, db) ∈ p.positions k ↔ i < k ∧ fb < p.filterBlocks ∧ db < p.dataBlocks := by
  simp only [positions, columnBlocks, rowBlocks, List.mem_flatMap, List.mem_map, List.mem_range,
    Prod.mk.injEq]
  constructor
  · rintro ⟨_, hi, _, hfb, _, hdb, rfl, rfl, rfl⟩
    exact ⟨hi, hfb, hdb⟩
  · rintro ⟨hi, hfb, hdb⟩
    exact ⟨i, hi, fb, hfb, db, hdb, rfl, rfl, rfl⟩

section Run

variable {R : Bytes → (Nat → BitVec 16) → Prop} {out : Nat → BitVec 16} {s : Locals σ}

/-- One row block, and every access is in bounds. -/
theorem Ran.inBounds (hran : Ran p R out (p.positions p.filterNum) s) (hN : p.flattenNum ≤ 256) :
    ∀ a ∈ s.accesses, p.InBounds a := by
  intro a ha
  rw [hran.accesses] at ha
  obtain ⟨⟨i, fb, db⟩, hq, ha⟩ := List.mem_flatMap.mp ha
  obtain ⟨hi, -, hdb⟩ := mem_positions.mp hq
  have hfirst : db = 0 := by
    unfold dataBlocks at hdb
    omega
  subst hfirst
  exact blockLog_inBounds hi a ha

/-- Two row blocks, and a weight is read from behind the array. -/
theorem Ran.not_inBounds (hran : Ran p R out (p.positions p.filterNum) s)
    (hN : 256 < p.flattenNum) (hK : 1 ≤ p.filterSize) (hF : 1 ≤ p.filterNum) :
    ∃ a ∈ s.accesses, ¬ p.InBounds a := by
  obtain ⟨hmem, hout⟩ := weight_of_second_block hK 0
  refine ⟨_, ?_, hout⟩
  rw [hran.accesses]
  refine List.mem_flatMap.mpr ⟨(0, p.filterBlocks - 1, 1), mem_positions.mpr ⟨hF, ?_, ?_⟩, hmem⟩
  · unfold filterBlocks
    omega
  · unfold dataBlocks
    omega

theorem Ran.inBounds_iff (hran : Ran p R out (p.positions p.filterNum) s)
    (hK : 1 ≤ p.filterSize) (hF : 1 ≤ p.filterNum) :
    (∀ a ∈ s.accesses, p.InBounds a) ↔ p.imageH * p.imageW ≤ 256 := by
  constructor
  · intro h
    by_contra hN
    obtain ⟨a, ha, hout⟩ := hran.not_inBounds (Nat.lt_of_not_le hN) hK hF
    exact hout (h a ha)
  · exact hran.inBounds

end Run

/-- **The accesses stay inside the arrays exactly when there is one row block**, in every
run that returns; and with every lawful `mat_mul` both functions return. -/
theorem accesses_inBounds_iff (hK : 1 ≤ p.filterSize) (hF : 1 ≤ p.filterNum)
    (matMul : MatMul σ) (dev : σ) (beyond tempFmap : Bytes) (out : Nat → BitVec 16) :
    (∀ s, p.Returns matMul dev beyond tempFmap out s →
      ((∀ a ∈ s.accesses, p.InBounds a) ↔ p.imageH * p.imageW ≤ 256)) ∧
    ∀ (I : σ → Prop) (R : Bytes → (Nat → BitVec 16) → Prop), Lawful matMul I R → I dev →
      ∃ s cube, p.fullyConnencted matMul dev beyond out = some s ∧
        p.conv matMul dev beyond tempFmap out = some (s, cube) ∧
        ((∀ a ∈ s.accesses, p.InBounds a) ↔ p.imageH * p.imageW ≤ 256) := by
  refine ⟨fun s hrun => hrun.ran.inBounds_iff hK hF, fun I R hmat hdev => ?_⟩
  obtain ⟨s, cube, hfc, hconv, hran⟩ := p.both_return hmat hdev beyond tempFmap out
  exact ⟨s, cube, hfc, hconv, hran.inBounds_iff hK hF⟩

/-- All bytes 0, at the sizes of the second convolution. -/
def zeroConv : Product := ⟨fun _ => 0, 36, 27, fun _ => 0, 1, 400, 16⟩

/-- One row of 864 columns, on the ideal product: both functions return, inside their
arrays. -/
theorem accesses_inBounds_zeroLayer :
    ∃ s cube, zeroLayer.fullyConnencted (idealMatMul fun x w => x.toInt * w.toInt) ()
        (fun _ => 0) (fun _ => 0) = some s ∧
      zeroLayer.conv (idealMatMul fun x w => x.toInt * w.toInt) () (fun _ => 0) (fun _ => 0)
        (fun _ => 0) = some (s, cube) ∧
      ∀ a ∈ s.accesses, zeroLayer.InBounds a := by
  have hK : 1 ≤ zeroLayer.filterSize := by decide
  have hF : 1 ≤ zeroLayer.filterNum := by decide
  obtain ⟨-, hreturns⟩ := accesses_inBounds_iff hK hF (idealMatMul fun x w => x.toInt * w.toInt)
    () (fun _ => 0) (fun _ => 0) (fun _ => 0)
  obtain ⟨s, cube, hfc, hconv, hiff⟩ := hreturns _ _ (lawful_idealMatMul _) trivial
  exact ⟨s, cube, hfc, hconv, hiff.mpr (by decide)⟩

/-- The second convolution on the slave reads a weight behind its array. -/
theorem accesses_not_inBounds :
    ∃ fuel₀, ∀ fuel, fuel₀ ≤ fuel →
      ∃ s cube, zeroConv.conv (slaveMatMul fuel fun _ => directFabric)
          (TestSlave.afterReset MVM.cleared, 0) (fun _ => 0) (fun _ => 0) (fun _ => 0)
            = some (s, cube) ∧
        ∃ a ∈ s.accesses, ¬ zeroConv.InBounds a := by
  refine ⟨132, fun fuel hfuel => ?_⟩
  obtain ⟨s, hs, hran⟩ := blockedProduct_spec zeroConv
    (lawful_slaveMatMul hfuel fun _ => directFabric) (slaveReady_afterReset MVM.cleared 0)
    (fun _ => 0) (fun _ => 0)
  exact ⟨s, _, by rw [conv, hs]; rfl, hran.not_inBounds (by decide) (by decide) (by decide)⟩

/-! ## The data side -/

/-- Element `[n][k]` of the data belongs to this row and column block. -/
def Presents (c : Call) (n k : Nat) : Prop :=
  c.db * 256 ≤ n ∧ n < c.db * 256 + 256 ∧ c.fb * 128 ≤ k ∧ k < c.fb * 128 + 128

instance (c : Call) (n k : Nat) : Decidable (Presents c n k) :=
  inferInstanceAs (Decidable (_ ∧ _))

theorem presents_iff {c : Call} {n k : Nat} :
    Presents c n k ↔ c.db = n / 256 ∧ c.fb = k / 128 := by
  unfold Presents
  omega

/-- The data half of a filled block. -/
theorem filledBlock_data (p : Product) (i fb db : Nat) (m : Bytes) {r c : Nat} (hr : r < 256)
    (hc : c < 128) :
    p.filledBlock i fb db m (r * 128 + c) = p.dataCell fb (db * 256 + r) c := by
  unfold filledBlock
  rw [row_major_div hc, Nat.mul_add_mod_of_lt hc, if_pos hr]

/-- One block of a filter holds an element of the data. -/
theorem Ran.presented_once {R : Bytes → (Nat → BitVec 16) → Prop} {out : Nat → BitVec 16}
    {s : Locals σ} (hran : Ran p R out (p.positions p.filterNum) s) {i n k : Nat}
    (hi : i < p.filterNum) (hn : n < p.flattenNum) (hk : k < p.filterSize) :
    (s.calls.filter fun c => c.i = i ∧ Presents c n k).length = 1 := by
  have hfb : k / 128 < p.filterBlocks := by
    unfold filterBlocks
    omega
  -- the blocks of this filter and row block, one for each column block
  have hcalls : (s.calls.filter fun c => c.i = i ∧ c.db = n / 256).map Call.position =
      (List.range p.filterBlocks).map fun fb => (i, fb, n / 256) := by
    rw [← filter_positions hi (div_lt_dataBlocks hn), ← hran.positions, List.filter_map]
    rfl
  have hsplit : (s.calls.filter fun c => c.i = i ∧ Presents c n k) =
      (s.calls.filter fun c => c.i = i ∧ c.db = n / 256).filter fun c => c.fb = k / 128 := by
    rw [List.filter_filter]
    refine List.filter_congr fun c _ => ?_
    simp only [presents_iff, ← Bool.decide_and, decide_eq_decide]
    tauto
  calc (s.calls.filter fun c => c.i = i ∧ Presents c n k).length
      = ((s.calls.filter fun c => c.i = i ∧ c.db = n / 256).map Call.position).countP
          fun q => q.2.1 = k / 128 := by
        rw [hsplit, List.countP_map, List.countP_eq_length_filter]
        rfl
    _ = (List.range p.filterBlocks).count (k / 128) := by
        rw [hcalls, List.countP_map, List.count]
        rfl
    _ = 1 := List.count_eq_one_of_mem List.nodup_range (List.mem_range.mpr hfb)

/-- The calls are those of all filters, column blocks and row blocks; each finds the
data of its block in `mat_block`, with zeros around it; each element is presented once
to each filter. -/
structure PresentsData (p : Product) (calls : List Call) : Prop where
  visited : ∀ i fb db, (∃ c ∈ calls, c.i = i ∧ c.fb = fb ∧ c.db = db) ↔
    i < p.filterNum ∧ fb < p.filterBlocks ∧ db < p.dataBlocks
  block : ∀ call ∈ calls, ∀ r < 256, ∀ c < 128, call.block (r * 128 + c) =
    if call.db * 256 + r < p.flattenNum ∧ call.fb * 128 + c < p.filterSize then
      p.dataMat ((call.db * 256 + r) * p.filterSize + (call.fb * 128 + c))
    else 0
  once : ∀ i < p.filterNum, ∀ n < p.flattenNum, ∀ k < p.filterSize,
    (calls.filter fun c => c.i = i ∧ Presents c n k).length = 1

theorem Ran.presentsData {R : Bytes → (Nat → BitVec 16) → Prop} {out : Nat → BitVec 16}
    {s : Locals σ} (hran : Ran p R out (p.positions p.filterNum) s) :
    PresentsData p s.calls where
  visited i fb db := by
    rw [← mem_positions, ← hran.positions, List.mem_map]
    simp only [Call.position, Prod.mk.injEq]
  block call hcall r hr c hc := by
    obtain ⟨m, hm⟩ := hran.filled call hcall
    rw [hm, filledBlock_data p _ _ _ m hr hc]
    rfl
  once _ hi _ hn _ hk := hran.presented_once hi hn hk

/-- **The data side of the blocking**: with every lawful `mat_mul` both functions return,
and their calls have presented the data; so have those of any other run that returns. -/
theorem data_presented (p : Product) (matMul : MatMul σ) (dev : σ) (beyond tempFmap : Bytes)
    (out : Nat → BitVec 16) :
    (∀ (I : σ → Prop) (R : Bytes → (Nat → BitVec 16) → Prop), Lawful matMul I R → I dev →
      ∃ s cube, p.fullyConnencted matMul dev beyond out = some s ∧
        p.conv matMul dev beyond tempFmap out = some (s, cube) ∧ PresentsData p s.calls) ∧
    ∀ s, p.Returns matMul dev beyond tempFmap out s → PresentsData p s.calls := by
  refine ⟨fun I R hmat hdev => ?_, fun s hrun => hrun.ran.presentsData⟩
  obtain ⟨s, cube, hfc, hconv, hran⟩ := p.both_return hmat hdev beyond tempFmap out
  exact ⟨s, cube, hfc, hconv, hran.presentsData⟩

/-- The sizes of the second convolution, with data that count up. -/
def countingConv : Product := ⟨fun j => BitVec.ofNat 8 j, 36, 27, fun _ => 1, 1, 400, 16⟩

/-- `conv` on the slave: the last element, byte 388799, is in the last block of the last
filter, and behind it the block is zero. -/
theorem data_presented_countingConv :
    ∃ fuel₀, ∀ fuel, fuel₀ ≤ fuel →
      ∃ s cube, countingConv.conv (slaveMatMul fuel fun _ => directFabric)
          (TestSlave.afterReset MVM.cleared, 0) (fun _ => 0) (fun _ => 0) (fun _ => 0)
            = some (s, cube) ∧
        (s.calls.filter fun c => c.i = 15 ∧ Presents c 971 399).length = 1 ∧
        ∃ call ∈ s.calls, call.i = 15 ∧ call.block (203 * 128 + 15) = 191 ∧
          call.block (203 * 128 + 16) = 0 := by
  refine ⟨132, fun fuel hfuel => ?_⟩
  obtain ⟨hreturns, -⟩ := data_presented countingConv (slaveMatMul fuel fun _ => directFabric)
    (TestSlave.afterReset MVM.cleared, 0) (fun _ => 0) (fun _ => 0) (fun _ => 0)
  obtain ⟨s, cube, -, hconv, hdata⟩ := hreturns _ _ (lawful_slaveMatMul hfuel _)
    (slaveReady_afterReset MVM.cleared 0)
  obtain ⟨call, hcall, hi, hfb, hdb⟩ := (hdata.visited 15 3 3).mpr (by decide)
  refine ⟨s, cube, hconv, hdata.once 15 (by decide) 971 (by decide) 399 (by decide),
    call, hcall, hi, ?_, ?_⟩
  · rw [hdata.block call hcall 203 (by decide) 15 (by decide), hfb, hdb]
    rfl
  · rw [hdata.block call hcall 203 (by decide) 16 (by decide), hfb, hdb]
    rfl

end Product

end DcnnFpga.Nios
