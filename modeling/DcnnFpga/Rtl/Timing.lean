import DcnnFpga.Lib.Handshake
import DcnnFpga.Rtl.BusOrder
import DcnnFpga.Rtl.Schedule

/-!
# How long the slave is busy

`Coupled` bounds the clocks until `test_slave` is in `IDLE` again; here they are
counted. A word inside a vector and a read close the bus for one clock. The last
word of a vector closes it for as long as its pass takes and the handshake around
it, which depends on the two vector counters as the product does: the long start
route costs a clock more than the short one, and a clear that swallows the start
pulse leaves no pass to wait for (`startClocks`).

The data bytes have no influence on the time, and neither have the inputs of the
clocks in which the bus is closed. `transfer_clocks` says so of every run after a
reset; `slave_timed` is the same as a rule about masters.
-/

namespace DcnnFpga.Rtl

open Lib MVM NumTransformer

/-- `test_slave` is in `IDLE` after exactly `n` clocks, and not before, whatever
comes in meanwhile. -/
def IdleIn (n : Nat) (s : TestSlave) : Prop :=
  slave.ReadyIn (fun i => i.iRstCtrl = false) (fun s => s.currentStateR = .idle) n s

theorem IdleIn.succ {n : Nat} {s : TestSlave} (hne : s.currentStateR ≠ .idle)
    (h : ∀ i : Input, i.iRstCtrl = false → IdleIn n (s.clock i)) : IdleIn (n + 1) s :=
  ⟨hne, h⟩

/-! ## Register shapes -/

section Shapes

variable {s : TestSlave}

theorem idleIn_send (h : s.currentStateR = .send) : IdleIn 1 s := by
  apply IdleIn.succ (by rw [h]; decide)
  intro i hr
  rw [TestSlave.clock_send h hr]
  exact (rfl : (.idle : TestSlave.St) = .idle)

/-- The clock after a word inside a vector. -/
theorem idleIn_get (h : s.currentStateR = .get) (hd : s.dimCounterR ≠ TestSlave.DIM_WRITE) :
    IdleIn 1 s := by
  apply IdleIn.succ (by rw [h]; decide)
  intro i hr
  rw [TestSlave.clock_get h hr hd]
  exact (rfl : (.idle : TestSlave.St) = .idle)

/-- `TOP_MVM` has left `CAL`. -/
theorem idleIn_dummy (h : s.currentStateR = .done) (ht : s.topMvm.currentStateR = .dummy) :
    IdleIn 1 s := by
  apply IdleIn.succ (by rw [h]; decide)
  intro i hr
  rw [TestSlave.clock_done_free h hr (by rw [TopMvm.isAcc, ht]; rfl)]
  exact (rfl : (.idle : TestSlave.St) = .idle)

/-- `WAIT` and `DONE`, the states in which a pass is waited for. -/
def TestSlave.Waits (s : TestSlave) : Prop := s.currentStateR = .wait ∨ s.currentStateR = .done

theorem TestSlave.Waits.ne_idle (h : s.Waits) : s.currentStateR ≠ .idle := by
  rcases h with h | h <;> rw [h] <;> decide

/-- With `TOP_MVM` in `CAL` both lead to `DONE`; `TOP_MVM` does not look at
`mat_start` there. -/
theorem TestSlave.Waits.clock_cal (h : s.Waits) (ht : s.topMvm.currentStateR = .cal) {i : Input}
    (hr : i.iRstCtrl = false) :
    ∃ start, (s.clock i).currentStateR = .done ∧ (s.clock i).matrixR = s.matrixR ∧
      (s.clock i).topMvm = s.topMvm.clock false false start s.matrixR := by
  rcases h with h | h
  · rw [TestSlave.clock_wait h hr]
    exact ⟨_, rfl, rfl, rfl⟩
  · rw [TestSlave.clock_done_busy h hr (by rw [TopMvm.isAcc, ht]; rfl)]
    exact ⟨_, h, rfl, rfl⟩

/-- `CAL` with the array at rest. -/
theorem idleIn_cal (h : s.Waits) (ht : s.topMvm.currentStateR = .cal)
    (hm : Quiet s.topMvm.mvm ∨ Draining s.topMvm.mvm) : IdleIn 2 s := by
  apply IdleIn.succ h.ne_idle
  intro i hr
  obtain ⟨start, hdone, -, htop⟩ := h.clock_cal ht hr
  apply idleIn_dummy hdone
  rw [htop, TopMvm.clock_cal_done ht (fsmGen_at_rest hm _)]

/-- A pass of which `rem` clocks are to come. -/
theorem idleIn_running {j rem : Nat} (h : s.Waits) (ht : s.topMvm.currentStateR = .cal)
    (hrun : Running s.topMvm.mvm (oWtNumTran (TopMvm.iWt s.matrixR)) j rem) :
    IdleIn (rem + 2) s := by
  induction rem generalizing s j with
  | zero =>
    apply IdleIn.succ h.ne_idle
    intro i hr
    obtain ⟨start, hdone, -, htop⟩ := h.clock_cal ht hr
    obtain ⟨hgen, -⟩ := hrun.last (x := TopMvm.iXVector s.matrixR) rfl
    apply idleIn_dummy hdone
    rw [htop, TopMvm.clock_cal_done ht hgen]
  | succ rem ih =>
    apply IdleIn.succ h.ne_idle
    intro i hr
    obtain ⟨start, hdone, hmat, htop⟩ := h.clock_cal ht hr
    obtain ⟨hgen, hrun', -⟩ := hrun.step (x := TopMvm.iXVector s.matrixR) rfl
    rw [TopMvm.clock_cal_gen ht hgen] at htop
    apply ih (.inr hdone)
    · rw [htop]
    · rw [htop, hmat]
      exact hrun'

/-- The long route, before its pass. -/
theorem idleIn_first (h : s.currentStateR = .wait) (ht : s.topMvm.currentStateR = .wait)
    (hstart : s.topMvm.startMvmR = true) (hq : Quiet s.topMvm.mvm) :
    IdleIn (passLen (TopMvm.iWt s.matrixR) + 2) s := by
  have hpos := passLen_pos (TopMvm.iWt s.matrixR)
  have hlast : IdleIn (passLen (TopMvm.iWt s.matrixR) - 1 + 2 + 1) s := by
    apply IdleIn.succ (by rw [h]; decide)
    intro i hr
    rw [TestSlave.clock_wait h hr, TopMvm.clock_wait ht hstart]
    exact idleIn_running (.inr rfl) rfl hq.begin
  rwa [show passLen (TopMvm.iWt s.matrixR) - 1 + 2 + 1 = passLen (TopMvm.iWt s.matrixR) + 2 by
    omega] at hlast

/-- The long route without a clear: the pulse is still up in the first clock of the
pass, and takes a clock of its own. -/
theorem idleIn_doubled {rem : Nat} (h : s.currentStateR = .wait)
    (ht : s.topMvm.currentStateR = .wait) (hstart : s.topMvm.startMvmR = true)
    (hrun : Running s.topMvm.mvm (oWtNumTran (TopMvm.iWt s.matrixR)) 1 rem)
    (hrem : rem + 1 = passLen (TopMvm.iWt s.matrixR)) : IdleIn (rem + 3) s := by
  apply IdleIn.succ (by rw [h]; decide)
  intro i hr
  rw [TestSlave.clock_wait h hr, TopMvm.clock_wait ht hstart]
  by_cases hmag : mag (TopMvm.iWt s.matrixR) = 0
  · have hz : oWtNumTran (TopMvm.iWt s.matrixR) = 0 := BitVec.eq_of_toNat_eq hmag
    obtain ⟨-, hdrain⟩ := Running.restart_zero (x := TopMvm.iXVector s.matrixR) (hz ▸ hrun) hz
    have hrem' : rem = 0 := by
      rw [passLen, hmag] at hrem
      exact Nat.succ.inj hrem
    rw [hrem']
    exact idleIn_cal (.inr rfl) rfl (.inr hdrain)
  · have hz : oWtNumTran (TopMvm.iWt s.matrixR) ≠ 0 := fun h0 => hmag (congrArg BitVec.toNat h0)
    obtain ⟨-, hrun', -⟩ := hrun.restart (x := TopMvm.iXVector s.matrixR) rfl hz
    exact idleIn_running (.inr rfl) rfl hrun'

/-! ## The start of a vector -/

/-- The clocks the bus is closed after the last word of a vector of this weight.
`clear` and `first` are the two counters, as for `Ledger.contribution`. -/
def startClocks (clear first : Bool) (w : BitVec 8) : Nat :=
  match clear, first with
  | _, true => passLen w + 3
  | false, false => passLen w + 2
  | true, false => 3

/-- Each of the four starts. -/
theorem idleIn_start {k : Nat} (h : s.Starts) (htop : s.topMvm.Resting k)
    (hquiet : s.vectorCounterR ≠ 0 → Quiet s.topMvm.mvm) :
    IdleIn (startClocks (s.vectorCounterR == 0) (k % 128 == 0) (TopMvm.iWt s.matrixR)) s := by
  obtain ⟨hget, hdim⟩ := h
  have hne : s.currentStateR ≠ .idle := by rw [hget]; decide
  have hpos := passLen_pos (TopMvm.iWt s.matrixR)
  have hstate := htop.state
  by_cases hk : k % 128 = 0
  · rw [if_pos hk] at hstate
    rw [hk]
    apply IdleIn.succ hne
    intro i hr
    rw [TestSlave.clock_get_full hget hr hdim, TopMvm.clock_idle_start hstate]
    by_cases hv : s.vectorCounterR = 0
    · rw [hv]
      exact idleIn_first rfl rfl rfl quiet_cleared
    · have hq := hquiet hv
      rw [beq_false_of_ne hv, show passLen (TopMvm.iWt s.matrixR) + 2
        = passLen (TopMvm.iWt s.matrixR) - 1 + 3 by omega]
      exact idleIn_doubled rfl rfl rfl hq.begin (Nat.sub_add_cancel hpos)
  · rw [if_neg hk] at hstate
    rw [beq_false_of_ne hk]
    have hdummy : s.topMvm.clock false (s.vectorCounterR == 0) true s.matrixR = _ :=
      TopMvm.clock_dummy_start hstate.1 (htop.counterR_ne hk)
    by_cases hv : s.vectorCounterR = 0
    · rw [hv] at hdummy ⊢
      apply IdleIn.succ hne
      intro i hr
      rw [TestSlave.clock_get_full hget hr hdim, hv, hdummy]
      exact idleIn_cal (.inl rfl) rfl (.inl quiet_cleared)
    · have hq := hquiet hv
      rw [beq_false_of_ne hv] at hdummy ⊢
      apply IdleIn.succ hne
      intro i hr
      rw [TestSlave.clock_get_full hget hr hdim, beq_false_of_ne hv, hdummy,
        show passLen (TopMvm.iWt s.matrixR) + 1 = passLen (TopMvm.iWt s.matrixR) - 1 + 2 by omega]
      exact idleIn_running (.inl rfl) rfl hq.begin

end Shapes

/-! ## Transfers -/

/-- The clocks the bus is closed after this transfer. -/
def Ledger.clocks (a : Ledger) : Transfer → Nat
  | .write d =>
    if a.writes % 65 = 64 then startClocks a.clears a.isFirst (d.extractLsb' 0 8) else 1
  | .read => 1

theorem Ledger.clocks_le (a : Ledger) (t : Transfer) : a.clocks t ≤ 131 := by
  cases t with
  | read => exact (by decide : 1 ≤ 131)
  | write d =>
    have hlen := passLen_le (d.extractLsb' 0 8)
    rw [clocks]
    split
    · cases a.clears <;> cases a.isFirst <;> simp only [startClocks] <;> omega
    · omega

/-- The transfer a request asks for: a write wins. -/
def Input.transfer (i : Input) : Transfer :=
  if i.iWriteReq then .write i.iData32bCtrl else .read

theorem emit_idle_request {s : TestSlave} {i : Input} (h : s.currentStateR = .idle)
    (hq : (i.iWriteReq || i.iReadReq) = true) : slave.emit s i = [i.transfer] := by
  cases hw : i.iWriteReq with
  | true => rw [emit_idle_write h hw, Input.transfer, if_pos hw]
  | false =>
    rw [hw, Bool.false_or] at hq
    rw [emit_idle_read h hw hq, Input.transfer, hw, if_neg Bool.false_ne_true]

section Taken

variable {a : Ledger} {s : TestSlave} {n : Nat} {i : Input}

/-- A write that completes a vector leaves the slave at the start of it. -/
theorem Coupled.last_word (h : Coupled a s n) (hs : s.currentStateR = .idle)
    (hr : i.iRstCtrl = false) (hw : i.iWriteReq = true) (hlast : a.writes % 65 = 64) :
    IdleIn (startClocks a.clears a.isFirst (i.iData32bCtrl.extractLsb' 0 8)) (s.clock i) := by
  obtain ⟨hm, hc, hrest⟩ := h.at_idle hs
  have hdim : s.dimCounterR = TestSlave.DIM_WRITE := by rw [hc.dim, hlast]; rfl
  have hrest' := hrest.clock s.matrixR
  have hquiet : s.vectorCounterR ≠ 0 → Quiet
      (s.topMvm.clock false false false s.matrixR).mvm := by
    intro hv
    apply hrest'.quiet
    cases hset : a.settled with
    | true => rfl
    | false =>
      rw [hc.vec, (hrest.fresh hset).2] at hv
      exact absurd rfl hv
  have hweight : TopMvm.iWt (s.writeMatrix i.iData32bCtrl) = i.iData32bCtrl.extractLsb' 0 8 := by
    rw [TopMvm.iWt, TestSlave.writeMatrix, hdim]
    rfl
  rw [TestSlave.clock_idle_write hs hr hw, hm]
  have hstart := idleIn_start (s := { s with
    currentStateR := .get, matrixR := s.writeMatrix i.iData32bCtrl, matStartR := false,
    topMvm := s.topMvm.clock false false false s.matrixR }) ⟨rfl, hdim⟩ hrest'.top hquiet
  rw [Ledger.clears, ← hc.vec, Ledger.isFirst, ← hweight]
  exact hstart

/-- What the ledger says of a request is what the slave does. -/
theorem Coupled.taken (h : Coupled a s n) (hs : s.currentStateR = .idle)
    (hr : i.iRstCtrl = false) (hq : (i.iWriteReq || i.iReadReq) = true) :
    IdleIn (a.clocks i.transfer) (s.clock i) := by
  obtain ⟨-, hc, -⟩ := h.at_idle hs
  cases hw : i.iWriteReq with
  | true =>
    rw [Input.transfer, if_pos hw, Ledger.clocks]
    by_cases hlast : a.writes % 65 = 64
    · rw [if_pos hlast]
      exact h.last_word hs hr hw hlast
    · rw [if_neg hlast]
      rw [TestSlave.clock_idle_write hs hr hw]
      exact idleIn_get rfl (dimCounterR_ne hc.dim (by omega))
  | false =>
    rw [hw, Bool.false_or] at hq
    rw [Input.transfer, hw, if_neg Bool.false_ne_true, TestSlave.clock_idle_read hs hr hw hq]
    exact idleIn_send rfl

end Taken

/-- **How long a transfer closes the bus**, in every run after a reset, whatever comes
in while it is closed. -/
theorem transfer_clocks (mvm : MVM) {ins : List Input} (hr : ∀ i ∈ ins, i.iRstCtrl = false)
    {i : Input} (hi : i.iRstCtrl = false) {t : Transfer}
    (ht : slave.emit (slave.run (TestSlave.afterReset mvm) ins) i = [t]) :
    IdleIn (((slave.events (TestSlave.afterReset mvm) ins).foldl Ledger.apply
      (Ledger.start false fun _ => 0)).clocks t)
      ((slave.run (TestSlave.afterReset mvm) ins).clock i) := by
  obtain ⟨n, h⟩ := coupled_run (coupled_afterReset mvm fun _ => 0) ins hr
  have hwait : (slave.run (TestSlave.afterReset mvm) ins).oWaitReq i = false := by
    cases hw : (slave.run (TestSlave.afterReset mvm) ins).oWaitReq i with
    | false => rfl
    | true =>
      have hnone : slave.emit (slave.run (TestSlave.afterReset mvm) ins) i = [] := if_pos hw
      rw [hnone] at ht
      cases ht
  obtain ⟨hs, hq⟩ := oWaitReq_eq_false_iff.mp hwait
  rw [emit_idle_request hs hq] at ht
  cases ht
  exact h.taken hs hi hq

set_option maxRecDepth 10000 in
/-- The last word of the first vector, one of threes: the pass takes three clocks, and the
start after a reset three more. -/
theorem transfer_clocks_threes :
    IdleIn 6 ((slave.run (TestSlave.afterReset MVM.cleared) (threes 64)).clock
      ⟨false, false, true, 0x03030303⟩) := by
  have hclocks : ((slave.events (TestSlave.afterReset MVM.cleared) (threes 64)).foldl Ledger.apply
      (Ledger.start false fun _ => 0)).clocks (.write 0x03030303) = 6 := by decide
  have htaken : slave.emit (slave.run (TestSlave.afterReset MVM.cleared) (threes 64))
      ⟨false, false, true, 0x03030303⟩ = [.write 0x03030303] := rfl
  rw [← hclocks]
  exact transfer_clocks MVM.cleared (by decide) rfl htaken

/-- The slave as a timed design: whatever a master does, the ledger of its requests
tells the time it takes. -/
theorem slave_timed : slave.Timed TestSlave.oWaitReq (fun i => i.iRstCtrl = false)
    (fun i => i.iRstCtrl = false ∧ (i.iWriteReq || i.iReadReq) = false)
    (fun i => i.iRstCtrl = false ∧ (i.iWriteReq || i.iReadReq) = true)
    (fun s => s.currentStateR = .idle) (fun a s => ∃ n, Coupled a s n)
    (fun a i => a.apply i.transfer) (fun a i => a.clocks i.transfer) where
  idle _ h := h.1
  request _ h := h.1
  wait s i hi := by
    rw [← Bool.not_eq_false, oWaitReq_eq_false_iff]
    exact not_congr ⟨fun h => h.1, fun h => ⟨h, hi.2⟩⟩
  keep a s i hR hA hidle := by
    obtain ⟨n, hn⟩ := hR
    obtain ⟨k, hk, -⟩ := coupled_clock hn hA
    by_cases hs : s.currentStateR = .idle
    · obtain ⟨hw, hq⟩ := Bool.or_eq_false_iff.mp (hidle hs).2
      rw [emit_idle_rest hs hw hq] at hk
      exact ⟨k, hk⟩
    · rw [emit_busy hs] at hk
      exact ⟨k, hk⟩
  stay s i hs hi := by
    obtain ⟨hw, hq⟩ := Bool.or_eq_false_iff.mp hi.2
    show (s.clock i).currentStateR = .idle
    rw [TestSlave.clock_idle_rest hs hi.1 hw hq]
    exact hs
  take a s i hR hs hi := by
    obtain ⟨n, hn⟩ := hR
    obtain ⟨k, hk, -⟩ := coupled_clock hn hi.1
    rw [emit_idle_request hs hi.2] at hk
    exact ⟨⟨k, hk⟩, hn.taken hs hi.1 hi.2⟩

end DcnnFpga.Rtl
