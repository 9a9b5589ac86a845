import DcnnFpga.Rtl.Coupling

/-!
# Bus transfers take effect once and in order

The `n`-th accepted write goes to position `n % 65` of the operand buffer and
the `n`-th accepted read returns word `n % 128`, whatever the interleaving of
requests and idle clocks. The positions are registers that move on one clock
after the acceptance; `Coupled` ties them to the number of transfers accepted,
and `TransferOrder` says what that means at the pins in one clock.
-/

namespace DcnnFpga.Rtl

namespace TestSlave

/-- The write request of this clock is answered. -/
def acceptsWrite (s : TestSlave) (i : Input) : Bool := i.iWriteReq && !s.oWaitReq i

/-- The read request of this clock is answered. -/
def acceptsRead (s : TestSlave) (i : Input) : Bool := i.iReadReq && !s.oWaitReq i

/-- Writes accepted in a run. -/
def writesIn (s : TestSlave) : List Input → Nat
  | [] => 0
  | i :: rest => (s.acceptsWrite i).toNat + (s.clock i).writesIn rest

/-- Reads accepted in a run. -/
def readsIn (s : TestSlave) : List Input → Nat
  | [] => 0
  | i :: rest => (s.acceptsRead i).toNat + (s.clock i).readsIn rest

end TestSlave

/-- The index `2m` of `y_vector`, for a read position `m` in range. -/
def lowIndex (m : Nat) : Fin DIM := ⟨2 * m % 256, Nat.mod_lt _ (by decide)⟩

/-- The index `2m + 1` of `y_vector`. -/
def highIndex (m : Nat) : Fin DIM := ⟨(2 * m + 1) % 256, Nat.mod_lt _ (by decide)⟩

/-- What one clock does at the bus after `nW` accepted writes and `nR` accepted reads. -/
structure TransferOrder (s : TestSlave) (i : Input) (nW nR : Nat) : Prop where
  write : s.acceptsWrite i = true →
    (s.clock i).matrixR = store s.matrixR (nW % 65) i.iData32bCtrl
  /-- the indices of the four assignments, or of the single one at 256 -/
  writeIndex : s.acceptsWrite i = true →
    if nW % 65 = 64 then s.dimCounterR = TestSlave.DIM_WRITE
    else s.dimCounterR ≠ TestSlave.DIM_WRITE ∧ nW % 65 < 64 ∧
      s.finalWrite1.toNat = 4 * (nW % 65) ∧ s.finalWrite2.toNat = 4 * (nW % 65) + 1 ∧
      s.finalWrite3.toNat = 4 * (nW % 65) + 2 ∧ s.finalWrite4.toNat = 4 * (nW % 65) + 3
  still : s.acceptsWrite i = false → (s.clock i).matrixR = s.matrixR
  read : s.acceptsRead i = true →
    s.oYData.extractLsb' 0 16 = s.yVector (lowIndex (nR % 128)) ∧
      s.oYData.extractLsb' 16 16 = s.yVector (highIndex (nR % 128))
  /-- `o_y_data` is driven from inside `y_vector` in every clock -/
  readIndex : s.finalRead1.toNat ≤ 255 ∧ s.finalRead2.toNat ≤ 255
  /-- an answered request is not answered again in the next clock -/
  once : s.acceptsWrite i = true ∨ s.acceptsRead i = true →
    ∀ j, (s.clock i).acceptsWrite j = false ∧ (s.clock i).acceptsRead j = false
  /-- a held request is answered -/
  answered : (i.iWriteReq || i.iReadReq) = true →
    ∃ k, k ≤ 131 ∧ (slave.run s (List.replicate k i)).oWaitReq i = false

/-! ## One clock -/

section Clock

variable {a : Ledger} {s : TestSlave} {i : Input}

/-- Only `IDLE` answers, and it answers any request. -/
theorem oWaitReq_eq_false_iff :
    s.oWaitReq i = false ↔
      s.currentStateR = .idle ∧ (i.iWriteReq || i.iReadReq) = true := by
  by_cases h : s.currentStateR = .idle
  · rw [TestSlave.oWaitReq_idle h, Bool.not_eq_false']
    exact ⟨fun hr => ⟨h, hr⟩, fun hr => hr.2⟩
  · rw [TestSlave.oWaitReq_busy h]
    exact ⟨fun hf => (nomatch hf), fun hr => absurd hr.1 h⟩

theorem idle_of_acceptsWrite (h : s.acceptsWrite i = true) :
    s.currentStateR = .idle ∧ i.iWriteReq = true := by
  rw [TestSlave.acceptsWrite, Bool.and_eq_true, Bool.not_eq_true'] at h
  exact ⟨(oWaitReq_eq_false_iff.mp h.2).1, h.1⟩

theorem idle_of_acceptsRead (h : s.acceptsRead i = true) :
    s.currentStateR = .idle ∧ i.iReadReq = true := by
  rw [TestSlave.acceptsRead, Bool.and_eq_true, Bool.not_eq_true'] at h
  exact ⟨(oWaitReq_eq_false_iff.mp h.2).1, h.1⟩

/-- The operand buffer changes in an accepted write and in no other clock. -/
theorem matrixR_still (hr : i.iRstCtrl = false) (h : s.acceptsWrite i = false) :
    (s.clock i).matrixR = s.matrixR := by
  have hkeep : (s.comb i).matrixW = s.matrixR := by
    rw [TestSlave.comb]
    cases hs : s.currentStateR with
    | idle =>
      have hw : i.iWriteReq = false := by
        cases hw : i.iWriteReq with
        | false => rfl
        | true => simp [TestSlave.acceptsWrite, TestSlave.oWaitReq_idle hs, hw] at h
      dsimp only
      rw [hw, if_neg Bool.false_ne_true]
      split <;> rfl
    | get => dsimp only; split <;> rfl
    | done => dsimp only; split <;> rfl
    | send => rfl
    | wait => rfl
    | unused _ => rfl
  rw [TestSlave.clock, hr, if_neg Bool.false_ne_true]
  exact hkeep

/-- No request is answered two clocks in a row. -/
theorem not_idle_after_accept (hr : i.iRstCtrl = false)
    (h : s.acceptsWrite i = true ∨ s.acceptsRead i = true) :
    (s.clock i).currentStateR ≠ .idle := by
  cases hw : i.iWriteReq with
  | true =>
    have hidle : s.currentStateR = .idle :=
      h.elim (fun h => (idle_of_acceptsWrite h).1) fun h => (idle_of_acceptsRead h).1
    rw [TestSlave.clock_idle_write hidle hr hw]
    exact fun h => nomatch h
  | false =>
    have hread : s.currentStateR = .idle ∧ i.iReadReq = true := by
      -- without a write request it was a read that was answered
      rcases h with h | h
      · rw [(idle_of_acceptsWrite h).2] at hw
        cases hw
      · exact idle_of_acceptsRead h
    rw [TestSlave.clock_idle_read hread.1 hr hw hread.2]
    exact fun h => nomatch h

/-- The read position never leaves its range, not even between transfers. -/
theorem Coupled.readCounter_lt {n : Nat} (h : Coupled a s n) : s.readCounterR.toNat < 128 := by
  have hmod : ∀ k : Nat, (BitVec.ofNat 10 (k % 128)).toNat < 128 := by
    intro k
    rw [BitVec.toNat_ofNat]
    omega
  cases h with
  | idle _ _ hc _ => rw [hc.rd]; exact hmod _
  | send _ _ _ hc _ => rw [hc.rd]; exact hmod _
  | get _ _ _ hc _ => rw [hc.rd]; exact hmod _
  | full _ _ _ _ _ _ hc _ _ _ _ => rw [hc.rd]; exact hmod _
  | wait _ _ _ _ _ _ hc _ _ _ => rw [hc.rd]; exact hmod _
  | done _ _ _ _ _ hc _ => rw [hc.rd]; exact hmod _

/-- The two read indices, for any read position in range. -/
theorem finalRead_toNat (h : s.readCounterR.toNat < 128) :
    s.finalRead1.toNat = 2 * s.readCounterR.toNat ∧
      s.finalRead2.toNat = 2 * s.readCounterR.toNat + 1 := by
  have h1 : s.finalRead1.toNat = s.readCounterR.toNat * 2 := by
    show (s.readCounterR <<< 1).toNat = _
    rw [BitVec.toNat_shiftLeft, Nat.shiftLeft_eq]
    omega
  refine ⟨by omega, ?_⟩
  show (s.finalRead1 + 1).toNat = _
  rw [BitVec.toNat_add, h1]
  show (_ + 1) % 2 ^ 10 = _
  omega

/-- `o_y_data` is the accumulator pair at the read position. -/
theorem oYData_eq {m : Nat} (h : s.readCounterR = BitVec.ofNat 10 m) (hm : m < 128) :
    s.oYData = s.yVector (highIndex m) ++ s.yVector (lowIndex m) := by
  have hval : s.readCounterR.toNat = m := by
    rw [h, BitVec.toNat_ofNat]
    omega
  obtain ⟨h1, h2⟩ := finalRead_toNat (s := s) (by omega)
  have hlt1 : s.finalRead1.toNat < DIM := by
    show _ < 256
    omega
  have hlt2 : s.finalRead2.toNat < DIM := by
    show _ < 256
    omega
  have hlow : (⟨s.finalRead1.toNat, hlt1⟩ : Fin DIM) = lowIndex m := by
    apply Fin.ext
    show s.finalRead1.toNat = 2 * m % 256
    omega
  have hhigh : (⟨s.finalRead2.toNat, hlt2⟩ : Fin DIM) = highIndex m := by
    apply Fin.ext
    show s.finalRead2.toNat = (2 * m + 1) % 256
    omega
  rw [TestSlave.oYData, TestSlave.yAt, TestSlave.yAt, dif_pos hlt1, dif_pos hlt2, hlow, hhigh]

/-- A held request reaches `IDLE` within the bound. -/
theorem Coupled.idle_within {n : Nat} (h : Coupled a s n) (hr : i.iRstCtrl = false) :
    ∃ k, k ≤ n ∧ (slave.run s (List.replicate k i)).currentStateR = .idle := by
  have hstep : ∀ (n : Nat) (s : TestSlave) (j : Input), j.iRstCtrl = false →
      (∃ a, Coupled a s n) → ¬ s.currentStateR = .idle →
        ∃ k, k < n ∧ ∃ a, Coupled a (slave.next s j) k := by
    rintro n s j hj ⟨a, hn⟩ hs
    obtain ⟨k, hk, hlt⟩ := coupled_clock hn hj
    exact ⟨k, hlt hs, _, hk⟩
  obtain ⟨k, hk, hidle⟩ := slave.reaches hstep ⟨a, h⟩ (fun _ => i) fun _ => hr
  rw [slave.after_eq_run, List.map_const', List.length_range] at hidle
  exact ⟨k, hk, hidle⟩

/-- Everything `TransferOrder` asks for, from the relation. -/
theorem Coupled.transferOrder {n : Nat} (h : Coupled a s n) (hr : i.iRstCtrl = false) :
    TransferOrder s i a.writes a.reads where
  write ha := by
    obtain ⟨hs, hw⟩ := idle_of_acceptsWrite ha
    obtain ⟨-, hc, -⟩ := h.at_idle hs
    rw [TestSlave.clock_idle_write hs hr hw]
    exact writeMatrix_eq hc.dim (by omega) _
  writeIndex ha := by
    obtain ⟨hs, -⟩ := idle_of_acceptsWrite ha
    have hdim := (h.at_idle hs).2.1.dim
    split
    next h64 => rw [hdim, h64]; rfl
    next h64 =>
      have hlt : a.writes % 65 < 64 := by omega
      exact ⟨dimCounterR_ne hdim hlt, hlt, finalWrite_toNat hdim hlt⟩
  still ha := matrixR_still hr ha
  read ha := by
    obtain ⟨hs, -⟩ := idle_of_acceptsRead ha
    rw [oYData_eq (h.at_idle hs).2.1.rd (by omega)]
    exact ⟨BitVec.extractLsb'_append_eq_right, BitVec.extractLsb'_append_eq_left⟩
  readIndex := by
    have hlt := h.readCounter_lt
    obtain ⟨h1, h2⟩ := finalRead_toNat hlt
    omega
  once ha j := by
    have hne := not_idle_after_accept hr ha
    rw [TestSlave.acceptsWrite, TestSlave.acceptsRead, TestSlave.oWaitReq_busy hne]
    exact ⟨Bool.and_false _, Bool.and_false _⟩
  answered hq := by
    obtain ⟨k, hk, hidle⟩ := h.idle_within (i := i) hr
    exact ⟨k, hk.trans h.bound_le, oWaitReq_eq_false_iff.mpr ⟨hidle, hq⟩⟩

end Clock

/-! ## Runs -/

/-- The ledger counts exactly the requests answered at the pins, as long as the
two kinds never come at once. -/
theorem ledger_counts (a : Ledger) (s : TestSlave) (ins : List Input)
    (hone : ∀ i ∈ ins, (i.iWriteReq && i.iReadReq) = false) :
    ((slave.events s ins).foldl Ledger.apply a).writes = a.writes + s.writesIn ins ∧
      ((slave.events s ins).foldl Ledger.apply a).reads = a.reads + s.readsIn ins := by
  induction ins generalizing a s with
  | nil => exact ⟨rfl, rfl⟩
  | cons i rest ih =>
    have hi := hone i List.mem_cons_self
    have hclock : ((slave.emit s i).foldl Ledger.apply a).writes
          = a.writes + (s.acceptsWrite i).toNat ∧
        ((slave.emit s i).foldl Ledger.apply a).reads
          = a.reads + (s.acceptsRead i).toNat := by
      -- in one clock there is one transfer at most, of the kind requested
      cases hb : s.oWaitReq i with
      | true => simp [slave, TestSlave.acceptsWrite, TestSlave.acceptsRead, hb]
      | false =>
        cases hw : i.iWriteReq with
        | true =>
          rw [hw, Bool.true_and] at hi
          have hemit : slave.emit s i = [.write i.iData32bCtrl] := by simp [slave, hb, hw]
          rw [hemit, TestSlave.acceptsWrite, TestSlave.acceptsRead, hb, hw, hi]
          rw [List.foldl_cons, List.foldl_nil, Ledger.apply]
          split <;> exact ⟨rfl, rfl⟩
        | false =>
          cases hq : i.iReadReq <;>
            simp [slave, TestSlave.acceptsWrite, TestSlave.acceptsRead, Ledger.apply, hb, hw, hq]
    obtain ⟨ihw, ihr⟩ := ih ((slave.emit s i).foldl Ledger.apply a) (s.clock i)
      fun j hj => hone j (List.mem_cons_of_mem _ hj)
    rw [Lib.Clocked.events_cons, List.foldl_append]
    refine ⟨ihw.trans ?_, ihr.trans ?_⟩
    · rw [hclock.1, TestSlave.writesIn, Nat.add_assoc]
    · rw [hclock.2, TestSlave.readsIn, Nat.add_assoc]

/-- **Transfers take effect once and in order**: in every clock of every run
from a reset, whatever the accumulator array held at the reset. -/
theorem transfers_in_order (mvm : MVM) (ins : List Input) (i : Input)
    (hr : ∀ j ∈ ins ++ [i], j.iRstCtrl = false)
    (hone : ∀ j ∈ ins ++ [i], (j.iWriteReq && j.iReadReq) = false) :
    TransferOrder (slave.run (TestSlave.afterReset mvm) ins) i
      ((TestSlave.afterReset mvm).writesIn ins) ((TestSlave.afterReset mvm).readsIn ins) := by
  obtain ⟨n, hn⟩ := coupled_run (coupled_afterReset mvm fun _ => 0) ins
    fun j hj => hr j (List.mem_append_left _ hj)
  obtain ⟨hw, hd⟩ := ledger_counts (Ledger.start false fun _ => 0) (TestSlave.afterReset mvm) ins
    fun j hj => hone j (List.mem_append_left _ hj)
  have hlast : i ∈ ins ++ [i] := List.mem_append_right _ List.mem_cons_self
  have horder := hn.transferOrder (hr i hlast)
  rw [hw, hd] at horder
  simpa only [Ledger.start, Nat.zero_add] using horder

/-- Writes of threes, each with the clock its answer takes. -/
def threes (n : Nat) : List Input :=
  (List.range n).flatMap fun _ =>
    [⟨false, false, true, 0x03030303⟩, ⟨false, false, false, 0⟩]

/-- Two writes and a read, each with the clock its answer takes. -/
def threeTransfers : List Input :=
  [⟨false, false, true, 0x04030201⟩, ⟨false, false, false, 0⟩,
    ⟨false, true, false, 0⟩, ⟨false, false, false, 0⟩,
    ⟨false, false, true, 0x08070605⟩, ⟨false, false, false, 0⟩]

/-- The third write, behind them: its word goes to position 2. -/
theorem transfers_in_order_third_write :
    let s := slave.run (TestSlave.afterReset MVM.cleared) threeTransfers
    let i : Input := ⟨false, false, true, 0x0c0b0a09⟩
    TransferOrder s i 2 1 ∧ s.acceptsWrite i = true ∧
      (s.clock i).matrixR = store s.matrixR 2 0x0c0b0a09 := by
  intro s i
  have horder := transfers_in_order MVM.cleared threeTransfers i (by decide) (by decide)
  have hwrites : (TestSlave.afterReset MVM.cleared).writesIn threeTransfers = 2 := by decide
  have hreads : (TestSlave.afterReset MVM.cleared).readsIn threeTransfers = 1 := by decide
  rw [hwrites, hreads] at horder
  have haccepts : s.acceptsWrite i = true := by decide
  exact ⟨horder, haccepts, horder.write haccepts⟩

end DcnnFpga.Rtl
