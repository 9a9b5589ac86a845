import DcnnFpga.Rtl.BusOrder

/-!
# The slave cannot hang

From *any* contents of the registers, unused encodings and corrupt counters
included, `test_slave` comes to `IDLE`. The measure spans three machines: in
`DONE` `test_slave` waits for `TOP_MVM` to leave `CAL`, `TOP_MVM` waits for the
enable to fall, and `FSM_MUX` drops it when its own counter has come to 255,
whatever `DCounter` does (`genLeft`). No request can raise the measure: outside
`IDLE` the inputs are not looked at.
-/

namespace DcnnFpga.Rtl

open NumTransformer MVM

/-- At most this many more clocks have the enable up, without a start pulse. -/
def MVM.genLeft (m : MVM) : Nat :=
  if m.fsmMux.currentStateR = .gen then 255 - m.fsmMux.counterR.toNat else 0

/-- A clock with the enable up and no start pulse takes one of them. -/
theorem MVM.genLeft_drive {m : MVM} {x : Fin DIM → BitVec 8} {w : BitVec 8}
    (h : m.fsmGen false (oWtNumTran w) = true) :
    (m.drive false false x w).genLeft < m.genLeft := by
  unfold genLeft
  rw [drive_fsmMux]
  unfold fsmGen FSMMux.oIsgen at h
  generalize m.fsmMuxStop false (oWtNumTran w) = stop at h ⊢
  cases hs : m.fsmMux.currentStateR with
  | idle => rw [FSMMux.next_idle_rest hs] at h; cases h
  | gen =>
    cases stop with
    | true => rw [FSMMux.next_gen_stop hs] at h; cases h
    | false =>
      -- the enable is up, so the counter is short of its last value
      have hlt : m.fsmMux.counterR.toNat < 255 := by
        by_contra hge
        have hle := m.fsmMux.counterR.isLt
        have hfull : m.fsmMux.counterR = 255 := by
          apply BitVec.eq_of_toNat_eq
          show _ = 255
          omega
        rw [FSMMux.next, hs, hfull] at h
        cases h
      rw [FSMMux.next_gen_go hs hlt]
      dsimp only
      rw [hs, if_pos rfl, if_pos rfl, BitVec.toNat_add]
      show 255 - (_ + 1) % 2 ^ 8 < _
      omega
  | wait => rw [FSMMux.next, hs] at h; cases h
  | unused => rw [FSMMux.next, hs] at h; cases h

/-- The clocks `test_slave` may still need to come to `IDLE`. -/
def TestSlave.rank (s : TestSlave) : Nat :=
  match s.currentStateR with
  | .idle => 0
  | .send | .unused _ => 1
  | .done => if s.topMvm.isAcc then s.topMvm.mvm.genLeft + 2 else 1
  | .wait => 258
  | .get => 259

theorem MVM.genLeft_le (m : MVM) : m.genLeft ≤ 255 := by
  unfold genLeft
  split <;> omega

/-- In `DONE` the measure is at most that of the longest stretch of the enable. -/
theorem TestSlave.rank_done {s : TestSlave} (h : s.currentStateR = .done) : s.rank ≤ 257 := by
  have hleft := s.topMvm.mvm.genLeft_le
  rw [rank, h]
  dsimp only
  split <;> omega

theorem TestSlave.rank_le (s : TestSlave) : s.rank ≤ 259 := by
  cases hs : s.currentStateR with
  | done => exact (rank_done hs).trans (by omega)
  | idle => simp [rank, hs]
  | send => simp [rank, hs]
  | get => simp [rank, hs]
  | wait => simp [rank, hs]
  | unused _ => simp [rank, hs]

/-- **Step lemma**: outside `IDLE` every clock lowers the measure. -/
theorem TestSlave.rank_clock (s : TestSlave) {i : Input} (hr : i.iRstCtrl = false)
    (hne : s.currentStateR ≠ .idle) : (s.clock i).rank < s.rank := by
  cases hs : s.currentStateR with
  | idle => exact absurd hs hne
  | send =>
    rw [clock_send hs hr, rank, rank, hs]
    exact Nat.one_pos
  | unused code =>
    have hclock : (s.clock i).currentStateR = .idle := by simp [clock, comb, defaults, hs, hr]
    rw [rank, rank, hclock, hs]
    exact Nat.one_pos
  | get =>
    have hrank : s.rank = 259 := by rw [rank, hs]
    by_cases hd : s.dimCounterR = DIM_WRITE
    · rw [clock_get_full hs hr hd, hrank]
      exact (show 258 < 259 by omega)
    · rw [clock_get hs hr hd, hrank]
      exact (show 0 < 259 by omega)
  | wait =>
    have hrank : s.rank = 258 := by rw [rank, hs]
    have hnext : (s.clock i).currentStateR = .done := by rw [clock_wait hs hr]
    have hle := rank_done hnext
    omega
  | done =>
    cases ha : s.topMvm.isAcc with
    | false =>
      rw [clock_done_free hs hr ha, rank, rank, hs, ha]
      exact Nat.one_pos
    | true =>
      have hcal : s.topMvm.currentStateR = .cal := by
        rw [TopMvm.isAcc, beq_iff_eq] at ha
        exact ha
      rw [clock_done_busy hs hr ha, rank, rank, hs]
      dsimp only
      rw [ha, if_pos rfl]
      cases hg : s.topMvm.gen false s.matrixR with
      | true =>
        have hlt := MVM.genLeft_drive (x := TopMvm.iXVector s.matrixR) hg
        rw [TopMvm.clock_cal_gen hcal hg]
        dsimp only
        split <;> omega
      | false =>
        rw [TopMvm.clock_cal_done hcal hg]
        exact (show 1 < s.topMvm.mvm.genLeft + 2 by omega)

/-- **The slave cannot hang**: from any registers, under any stream of inputs
without a reset, at any time it is in `IDLE` within 259 clocks, and a request
that is up there is answered. -/
theorem no_hang (s : TestSlave) (ins : Nat → Input) (hr : ∀ k, (ins k).iRstCtrl = false)
    (n : Nat) :
    ∃ k, n ≤ k ∧ k ≤ n + 259 ∧ (slave.after s ins k).currentStateR = .idle ∧
      (((ins k).iWriteReq || (ins k).iReadReq) = true →
        (slave.after s ins k).oWaitReq (ins k) = false) := by
  have hstep : ∀ (b : Nat) (s : TestSlave) (i : Input), i.iRstCtrl = false → s.rank ≤ b →
      ¬ s.currentStateR = .idle → ∃ k, k < b ∧ (slave.next s i).rank ≤ k := by
    intro b s i hi hb hne
    exact ⟨_, (s.rank_clock hi hne).trans_le hb, Nat.le_refl _⟩
  obtain ⟨k, hk, hidle⟩ := slave.reaches hstep (slave.after s ins n).rank_le
    (fun j => ins (n + j)) fun j => hr (n + j)
  rw [← slave.after_add] at hidle
  exact ⟨n + k, by omega, by omega, hidle,
    fun hq => oWaitReq_eq_false_iff.mpr ⟨hidle, hq⟩⟩

/-- Registers no run from a reset reaches: `DCounter` is past its target, and both
selector states disagree. -/
def corrupt : TestSlave where
  currentStateR := .done
  dimCounterR := 999
  vectorCounterR := 7
  readCounterR := 1023
  matStartR := true
  matrixR := fun _ => 3
  topMvm := ⟨.cal, 30000, true, ⟨.gen, 200, true, true, false, ⟨255, false⟩⟩, ⟨77, true⟩,
    fun _ => ⟨0x8000, true⟩⟩

/-- A read held from these registers on. -/
theorem no_hang_corrupt :
    ∃ k, 0 ≤ k ∧ k ≤ 0 + 259 ∧
      (slave.after corrupt (fun _ => ⟨false, true, false, 0⟩) k).currentStateR = .idle ∧
      ((false || true) = true →
        (slave.after corrupt (fun _ => ⟨false, true, false, 0⟩) k).oWaitReq
          ⟨false, true, false, 0⟩ = false) :=
  no_hang corrupt (fun _ => ⟨false, true, false, 0⟩) (fun _ => rfl) 0

end DcnnFpga.Rtl
