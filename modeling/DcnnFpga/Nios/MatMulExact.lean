import DcnnFpga.Nios.MatMul
import DcnnFpga.Rtl.Accuracy
import DcnnFpga.Rtl.VectorLaw

/-!
# `mat_mul` is exact

Every transfer of `mat_mul` is answered and takes the ledger one step on
(`iowr_spec`, `iord_spec`), so a call is 128 vectors and a read-out in the
ledger, and the words it reads are the accumulators: `matMul_spec` takes a ready
ledger to a ready ledger and returns the 256 sums. A sequence of calls follows
by induction, from whatever the accumulator array held at the reset.

The sums are those of the single-pass counts `g`; each count is within four
units of the fixed-point product, so a result is within 512 of the exact one
(`Accurate`).
-/

namespace DcnnFpga.Nios

open Lib Rtl

/-- The slave's registers are those of a run with these transfers. -/
def Follows (a : Ledger) (s : TestSlave) : Prop := ∃ n, Coupled a s n

theorem follows_afterReset (mvm : MVM) :
    Follows (Ledger.start false fun _ => 0) (TestSlave.afterReset mvm) :=
  ⟨0, coupled_afterReset mvm _⟩

section Transfers

variable {a : Ledger} {p : Master} {fuel : Nat}

/-- Idle clocks transfer nothing. -/
theorem events_idleInput (s : TestSlave) (ds : List (BitVec 32)) :
    slave.events s (ds.map idleInput) = [] := by
  induction ds generalizing s with
  | nil => rfl
  | cons d rest ih =>
    rw [List.map_cons, Clocked.events_cons, ih]
    simp [slave, idleInput]

theorem follows_idleClocks (h : Follows a p.slave) (f : Fabric) :
    Follows a (idleClocks f p) := by
  obtain ⟨n, hn⟩ := h
  have hrun := coupled_run hn ((f.gap p.transfers).map idleInput) fun i hi => by
    obtain ⟨d, -, rfl⟩ := List.mem_map.mp hi
    rfl
  rw [events_idleInput] at hrun
  exact hrun

/-- A held request is answered in `IDLE`, no transfer before it. -/
theorem hold_idle {s : TestSlave} {i : Input} (h : Follows a s) (hr : i.iRstCtrl = false)
    (hq : (i.iWriteReq || i.iReadReq) = true) (hfuel : 132 ≤ fuel) :
    ∃ s', slave.hold TestSlave.oWaitReq i fuel s = some s' ∧ Follows a s' ∧
      s'.currentStateR = .idle := by
  obtain ⟨n, hn⟩ := h
  have hbound := hn.bound_le
  -- a request that waits is outside `IDLE`, where every clock lowers the bound
  have hstep : ∀ (n : Nat) (s : TestSlave), Coupled a s n → s.oWaitReq i = true →
      ∃ k, k < n ∧ Coupled a (slave.next s i) k := by
    intro n s hn hwait
    have hne : s.currentStateR ≠ .idle := by
      intro hs
      rw [TestSlave.oWaitReq_idle hs, hq] at hwait
      cases hwait
    obtain ⟨k, hk, hlt⟩ := coupled_clock hn hr
    rw [emit_busy hne] at hk
    exact ⟨k, hlt hne, hk⟩
  obtain ⟨s', k, hs', hwait, hk⟩ :=
    slave.hold_spec (R := fun n s => Coupled a s n) hstep fuel hn (by omega)
  exact ⟨s', hs', ⟨k, hk⟩, (oWaitReq_eq_false_iff.mp hwait).1⟩

/-- `IOWR` is answered, and is one write in the ledger. -/
theorem iowr_spec (h : Follows a p.slave) (f : Fabric) (d : BitVec 32)
    (hfuel : 132 ≤ fuel) :
    ∃ p', iowr fuel f p d = some p' ∧ Follows (a.apply (.write d)) p'.slave := by
  obtain ⟨s, hs, ⟨n, hn⟩, hidle⟩ :=
    hold_idle (i := writeInput d) (follows_idleClocks h f) rfl rfl hfuel
  obtain ⟨k, hk, -⟩ := coupled_clock (i := writeInput d) hn rfl
  rw [emit_idle_write hidle rfl] at hk
  exact ⟨⟨s.clock (writeInput d), p.transfers + 1⟩, by rw [iowr, hs]; rfl, k, hk⟩

/-- `IORD` is answered, is one read in the ledger, and returns the accumulator
pair at the read position. -/
theorem iord_spec (h : Follows a p.slave) (hset : a.settled = true) (f : Fabric)
    (hfuel : 132 ≤ fuel) :
    ∃ p', iord fuel f p = some (p',
        a.y (highIndex (a.reads % 128)) ++ a.y (lowIndex (a.reads % 128))) ∧
      Follows (a.apply .read) p'.slave := by
  obtain ⟨s, hs, ⟨n, hn⟩, hidle⟩ :=
    hold_idle (i := readInput (f.readLines p.transfers)) (follows_idleClocks h f) rfl rfl hfuel
  obtain ⟨-, hc, hrest⟩ := hn.at_idle hidle
  have hdata : s.oYData
      = a.y (highIndex (a.reads % 128)) ++ a.y (lowIndex (a.reads % 128)) := by
    rw [oYData_eq hc.rd (by omega), hrest.lanes hset, hrest.lanes hset]
    rfl
  obtain ⟨k, hk, -⟩ := coupled_clock (i := readInput (f.readLines p.transfers)) hn rfl
  rw [emit_idle_read hidle rfl rfl] at hk
  refine ⟨⟨s.clock (readInput (f.readLines p.transfers)), p.transfers + 1⟩, ?_, k, hk⟩
  rw [iord, hs, ← hdata]
  rfl

end Transfers

/-! ## The loops of a call -/

section Call

variable {a : Ledger} {fuel : Nat}

/-- The write loops: 128 vectors in the ledger. -/
theorem writeMatrix_spec {s : TestSlave} (h : Follows a s) (f : Fabric) (matrix : Bytes)
    (hfuel : 132 ≤ fuel) :
    ∃ p, writeMatrix fuel f matrix s = some p ∧
      Follows (a.columns (fun c r => matrix32 matrix r c) 128) p.slave := by
  refine forSome_inv (P := fun c (p : Master) =>
    Follows (a.columns (fun c r => matrix32 matrix r c) c) p.slave) 128 h ?_
  intro c _ p hp
  rw [Ledger.columns_succ]
  exact forSome_inv (P := fun k (p : Master) => Follows (forN k (fun row a =>
      a.apply (.write (matrix32 matrix row c))) (a.columns (fun c r => matrix32 matrix r c) c))
        p.slave)
    65 hp fun k _ p hp => iowr_spec hp f (matrix32 matrix k c) hfuel

theorem toNat_pair (hi lo : BitVec 16) :
    (hi ++ lo : BitVec 32).toNat = hi.toNat * 2 ^ 16 + lo.toNat := by
  show (hi ++ lo).toNat = _
  rw [BitVec.toNat_append, ← Nat.shiftLeft_add_eq_or_of_lt lo.isLt, Nat.shiftLeft_eq]

/-- The casts of `mat_mul` take a result word apart. -/
theorem storeWord_append (result : Nat → BitVec 16) (row : Nat) (hi lo : BitVec 16) :
    storeWord result row (hi ++ lo) = setHalf (setHalf result (2 * row) lo) (2 * row + 1) hi := by
  have h1 := lo.isLt
  have h2 := hi.isLt
  have hlow : ((hi ++ lo : BitVec 32) <<< 16 >>> 16).setWidth 16 = lo := by
    apply BitVec.eq_of_toNat_eq
    rw [BitVec.toNat_setWidth, BitVec.toNat_ushiftRight, BitVec.toNat_shiftLeft, toNat_pair,
      Nat.shiftLeft_eq, Nat.shiftRight_eq_div_pow]
    omega
  have hhigh : ((hi ++ lo : BitVec 32) >>> 16).setWidth 16 = hi := by
    apply BitVec.eq_of_toNat_eq
    rw [BitVec.toNat_setWidth, BitVec.toNat_ushiftRight, toNat_pair,
      Nat.shiftRight_eq_div_pow]
    omega
  rw [storeWord]
  show setHalf (setHalf result (2 * row) (((hi ++ lo : BitVec 32) <<< 16 >>> 16).setWidth 16))
    (2 * row + 1) (((hi ++ lo : BitVec 32) >>> 16).setWidth 16) = _
  rw [hlow, hhigh]

/-- The read loop: the cells `0 ..< 2n` hold the accumulators. -/
theorem readResult_spec {p : Master} (h : Follows a p.slave) (hset : a.settled = true)
    (hrd : a.reads % 128 = 0) (f : Fabric) (result : Nat → BitVec 16) (hfuel : 132 ≤ fuel) :
    ∃ pr, readResult fuel f p result = some pr ∧ Follows (a.readOut 128) pr.1.slave ∧
      ∀ r : Fin DIM, pr.2 r = a.y r := by
  have hloop : ∃ pr, readResult fuel f p result = some pr ∧
      (Follows (a.readOut 128) pr.1.slave ∧ ∀ r : Fin DIM, r.val < 2 * 128 → pr.2 r = a.y r) := by
    refine forSome_inv (P := fun n (pr : Master × (Nat → BitVec 16)) =>
      Follows (a.readOut n) pr.1.slave ∧ ∀ r : Fin DIM, r.val < 2 * n → pr.2 r = a.y r) 128
      ⟨h, fun r hr => absurd hr (Nat.not_lt_zero _)⟩ ?_
    rintro n hn ⟨p, result⟩ ⟨hp, hcells⟩
    -- read `n` finds the read position at `n`, and reads change no accumulator
    obtain ⟨hrd', -, -, hset', hy⟩ := Ledger.readOut_spec hrd (Nat.le_of_lt hn)
    obtain ⟨p', hp', hfollow⟩ := iord_spec hp (hset'.trans hset) f hfuel
    rw [hrd', show (a.reads + n) % 128 = n by omega, hy] at hp'
    refine ⟨_, by rw [hp']; rfl, ?_, ?_⟩
    · rw [Ledger.readOut_succ]
      exact hfollow
    · intro r hr
      have hlow : (lowIndex n).val = 2 * n := Nat.mod_eq_of_lt (by omega)
      have hhigh : (highIndex n).val = 2 * n + 1 := Nat.mod_eq_of_lt (by omega)
      dsimp only
      rw [storeWord_append, setHalf, setHalf]
      by_cases h1 : r.val = 2 * n + 1
      · rw [if_pos h1]
        exact congrArg a.y (Fin.ext (hhigh.trans h1.symm))
      · rw [if_neg h1]
        by_cases h0 : r.val = 2 * n
        · rw [if_pos h0]
          exact congrArg a.y (Fin.ext (hlow.trans h0.symm))
        · rw [if_neg h0]
          exact hcells r (by omega)
  obtain ⟨pr, hpr, hfollow, hcells⟩ := hloop
  exact ⟨pr, hpr, hfollow, fun r => hcells r r.isLt⟩

/-- Lane `r` of the stochastic product of the matrix with its last row. -/
def dot (matrix : Bytes) (r : Nat) : Int :=
  ∑ c ∈ Finset.range 128, g (matrix (r * 128 + c)) (matrix (256 * 128 + c))

/-- The 128 products cannot leave 16 bits. -/
theorem dot_abs_le (matrix : Bytes) (r : Nat) : |dot matrix r| ≤ 16384 := by
  calc |dot matrix r|
      ≤ ∑ c ∈ Finset.range 128, |g (matrix (r * 128 + c)) (matrix (256 * 128 + c))| :=
        Finset.abs_sum_le_sum_abs _ _
    _ ≤ ∑ _c ∈ Finset.range 128, (128 : Int) := Finset.sum_le_sum fun c _ => g_abs_le _ _
    _ = 16384 := by rw [Finset.sum_const, Finset.card_range]; rfl

theorem toInt_ofInt_dot (matrix : Bytes) (r : Nat) :
    (BitVec.ofInt 16 (dot matrix r)).toInt = dot matrix r := by
  have h := abs_le.mp (dot_abs_le matrix r)
  rw [BitVec.toInt_ofInt]
  exact Int.bmod_eq_of_le (by omega) (by omega)

/-- The buffer of column `c` is column `c` of the matrix. -/
theorem vectorOf_matrix32 (matrix : Bytes) {c : Nat} (hc : c < 128) (j : Fin (DIM + 1)) :
    vectorOf (fun r => matrix32 matrix r c) j = matrix (j.val * 128 + c) := by
  have hj : j.val < 257 := j.isLt
  rw [vectorOf, matrix32_eq matrix (by omega) hc, word,
    extract_transform8to32 _ (Nat.mod_lt _ (by decide))]
  congr 1
  omega

/-- **One call**: from a ready ledger `mat_mul` returns the 256 sums, and leaves a
ready ledger behind. -/
theorem matMul_spec {s : TestSlave} (h : Follows a s) (hready : a.Ready) (f : Fabric)
    (matrix : Bytes) (result : Nat → BitVec 16) (hfuel : 132 ≤ fuel) :
    ∃ s' res a', matMul fuel f s matrix result = some (s', res) ∧ Follows a' s' ∧
      a'.Ready ∧ ∀ r, r < 256 → res r = BitVec.ofInt 16 (dot matrix r) := by
  have hmodr := hready.reads
  obtain ⟨p, hp, hfollow⟩ := writeMatrix_spec h f matrix hfuel
  obtain ⟨-, hr, -, hy⟩ := Ledger.columns_spec hready
    (fun c r => matrix32 matrix r c) (Nat.le_refl 128)
  obtain ⟨hset, hlanes⟩ := hy (by omega)
  obtain ⟨pr, hpr, hfollow', hres⟩ := readResult_spec hfollow hset (by omega) f result hfuel
  refine ⟨pr.1.slave, pr.2, _, by rw [matMul, hp, Option.bind_some, hpr]; rfl, hfollow',
    Ledger.ready_after hready _, fun r hr => ?_⟩
  rw [hres ⟨r, hr⟩, hlanes, dot]
  refine congrArg (BitVec.ofInt 16) (Finset.sum_congr rfl fun c hc => ?_)
  have hc' := Finset.mem_range.mp hc
  rw [Ledger.product, vectorOf_matrix32 matrix hc', vectorOf_matrix32 matrix hc',
    Fin.val_last, Fin.val_castSucc]

end Call

/-! ## Sequences of calls -/

/-- A call: the fabric around it, the matrix memory, and what is in `result` before. -/
structure MatMulCall where
  fabric : Fabric
  matrix : Bytes
  result : Nat → BitVec 16

/-- Calls of `mat_mul` one after the other on one slave. -/
def matMulCalls (fuel : Nat) : TestSlave → List MatMulCall →
    Option (TestSlave × List (Nat → BitVec 16))
  | s, [] => some (s, [])
  | s, call :: rest =>
    (matMul fuel call.fabric s call.matrix call.result).bind fun sr =>
      (matMulCalls fuel sr.1 rest).map fun srs => (srs.1, sr.2 :: srs.2)

/-- What a call must return: the exact sums, read as signed 16-bit. -/
def Exact (call : MatMulCall) (res : Nat → BitVec 16) : Prop :=
  ∀ r, r < 256 → (res r).toInt = dot call.matrix r

theorem matMulCalls_spec {a : Ledger} {fuel : Nat} {s : TestSlave} (h : Follows a s)
    (hready : a.Ready) (calls : List MatMulCall) (hfuel : 132 ≤ fuel) :
    ∃ s' results, matMulCalls fuel s calls = some (s', results) ∧
      List.Forall₂ Exact calls results := by
  induction calls generalizing a s with
  | nil => exact ⟨s, [], rfl, .nil⟩
  | cons call rest ih =>
    obtain ⟨s₁, res, a₁, hcall, hfollow, hready₁, hres⟩ :=
      matMul_spec h hready call.fabric call.matrix call.result hfuel
    obtain ⟨s₂, results, hrest, hall⟩ := ih hfollow hready₁
    refine ⟨s₂, res :: results, by rw [matMulCalls, hcall, Option.bind_some, hrest]; rfl,
      .cons (fun r hr => ?_) hall⟩
    rw [hres r hr, toInt_ofInt_dot]

/-- **`mat_mul` is exact** on every call of every sequence of calls after
`i_rst_ctrl`, whatever the accumulator array holds then, whatever the fabric does
between transfers and whatever lies behind the matrices in memory. -/
theorem matMul_exact (mvm : MVM) (calls : List MatMulCall) :
    ∃ fuel₀, ∀ fuel, fuel₀ ≤ fuel →
      ∃ s results, matMulCalls fuel (TestSlave.afterReset mvm) calls = some (s, results) ∧
        List.Forall₂ Exact calls results :=
  ⟨132, fun _ hfuel =>
    matMulCalls_spec (follows_afterReset mvm) (Ledger.ready_start false _) calls hfuel⟩

/-! ## Accuracy -/

/-- The signed product of row `r` with the last row, in 128ths of a result unit. -/
def exactDot (matrix : Bytes) (r : Nat) : Int :=
  ∑ c ∈ Finset.range 128, (matrix (r * 128 + c)).toInt * (matrix (256 * 128 + c)).toInt

/-- 128 columns, at most four units each. -/
theorem dot_accurate (matrix : Bytes) (r : Nat) :
    |128 * dot matrix r - exactDot matrix r| ≤ 128 * 4 * 128 := by
  rw [dot, exactDot, Finset.mul_sum, ← Finset.sum_sub_distrib]
  calc _ ≤ ∑ c ∈ Finset.range 128, |128 * g (matrix (r * 128 + c)) (matrix (256 * 128 + c)) -
          (matrix (r * 128 + c)).toInt * (matrix (256 * 128 + c)).toInt| :=
        Finset.abs_sum_le_sum_abs _ _
    _ ≤ ∑ _c ∈ Finset.range 128, (128 * 4 : Int) :=
        Finset.sum_le_sum fun c _ => g_accurate _ _
    _ = 128 * 4 * 128 := by rw [Finset.sum_const, Finset.card_range]; rfl

/-- What a call must return: each column off by at most four units from the
fixed-point product, and so the whole result by at most 512. -/
def Accurate (call : MatMulCall) (res : Nat → BitVec 16) : Prop :=
  ∀ r, r < 256 →
    (∃ column : Nat → Int, (res r).toInt = ∑ c ∈ Finset.range 128, column c ∧
      ∀ c, |128 * column c - (call.matrix (r * 128 + c)).toInt *
        (call.matrix (256 * 128 + c)).toInt| ≤ 128 * 4) ∧
    |128 * (res r).toInt - exactDot call.matrix r| ≤ 128 * 4 * 128

theorem Exact.accurate {call : MatMulCall} {res : Nat → BitVec 16} (h : Exact call res) :
    Accurate call res := by
  intro r hr
  rw [h r hr]
  exact ⟨⟨_, rfl, fun c => g_accurate _ _⟩, dot_accurate call.matrix r⟩

/-- **Accuracy of `mat_mul`** on every call of every sequence of calls after
`i_rst_ctrl`, for all byte values. -/
theorem matMul_accurate (mvm : MVM) (calls : List MatMulCall) :
    ∃ fuel₀, ∀ fuel, fuel₀ ≤ fuel →
      ∃ s results, matMulCalls fuel (TestSlave.afterReset mvm) calls = some (s, results) ∧
        List.Forall₂ Accurate calls results := by
  refine ⟨132, fun fuel hfuel => ?_⟩
  obtain ⟨s, results, hcalls, hall⟩ :=
    matMulCalls_spec (follows_afterReset mvm) (Ledger.ready_start false _) calls hfuel
  exact ⟨s, results, hcalls, hall.imp fun _ _ h => h.accurate⟩

end DcnnFpga.Nios
