import DcnnFpga.Rtl.Coupling
import Mathlib.Data.List.Count

/-!
# Which bits a pass samples, clock by clock

`sampler` is the composed design with other events: a clock in which the lanes
count (`fsm_gen` up, no `i_rst_mvm`) gives the bit position `FSM_MUX` selects in
it. A *pass* (`PassRun`) is the stretch from the clock in which `test_slave` starts
a vector to the one in which it starts the next, or to any clock after it in
`IDLE`.

`Scheduled w s l` says that the positions `l` are still to come in a pass over the
weight `w`. A clock takes the positions it samples off the front of `l`
(`Scheduled.clock`), so over a pass that starts with the two vector counters in
agreement the events are the whole schedule of that weight (`pass_events`). In
runs with the transfers in the order of `mat_mul` (`InMatMulOrder`) the counters
agree at every start.
-/

namespace DcnnFpga.Rtl

open NumTransformer MVM

/-- The composed design; a clock in which the lanes count gives the bit position
they count. -/
def sampler : Lib.Clocked TestSlave Input Nat where
  next := TestSlave.clock
  emit s i :=
    if s.fsmGen i && !(s.comb i).mvmRst then [s.topMvm.mvm.fsmMux.sel] else []

theorem sampler_run (s : TestSlave) (ins : List Input) : sampler.run s ins = slave.run s ins :=
  sampler.run_congr slave rfl s ins

/-- What a sampled bit adds to a lane. -/
def countBit (mat : Matrix) (r : Fin DIM) (y : BitVec 16) (k : Nat) : BitVec 16 :=
  if (TopMvm.iWt mat).msb ^^ mux4to1 k (oXNumTran (TopMvm.iXVector mat r)) then y + 1 else y - 1

/-- Every lane counts the bits of `sampler`, and nothing else, unless it is cleared. -/
theorem yVector_clock (s : TestSlave) (i : Input) (r : Fin DIM) :
    (s.clock i).yVector r =
      if (s.comb i).mvmRst then 0
      else (sampler.emit s i).foldl (countBit s.matrixR r) (s.yVector r) := by
  have hlane : (s.clock i).yVector r =
      (s.topMvm.mvmClock (s.comb i).mvmRst (s.comb i).matStartW s.matrixR).oWxResult r := by
    unfold TestSlave.clock TopMvm.clock
    cases i.iRstCtrl <;> rfl
  rw [hlane]
  cases hrst : (s.comb i).mvmRst with
  | true => rfl
  | false =>
    have hemit : sampler.emit s i = if s.fsmGen i then [s.topMvm.mvm.fsmMux.sel] else [] := by
      simp [sampler, hrst]
    rw [if_neg Bool.false_ne_true, hemit]
    have hgen : s.topMvm.mvm.fsmGen (s.topMvm.startMvmW (s.comb i).matStartW)
        (oWtNumTran (TopMvm.iWt s.matrixR)) = s.fsmGen i := rfl
    simp only [TopMvm.mvmClock, MVM.clock, MVM.oWxResult, UpDCounter.clock, UpDCounter.next, hgen]
    cases s.fsmGen i <;> rfl

namespace TestSlave

/-- The clock in which `test_slave` starts a vector: its last word has been taken. -/
def Starts (s : TestSlave) : Prop := s.currentStateR = .get ∧ s.dimCounterR = DIM_WRITE

end TestSlave

/-- The clocks of a pass. -/
structure PassRun (s : TestSlave) (ins : List Input) : Prop where
  starts : s.Starts
  nonempty : ins ≠ []
  /-- no other vector is started in between -/
  inside : ∀ k, 0 < k → k < ins.length → ¬ (slave.run s (ins.take k)).Starts
  ends : (slave.run s ins).Starts ∨ (slave.run s ins).currentStateR = .idle

/-! ## What is left of a pass -/

/-- The pass is over for the sequencer, and no start pulse is on its way. -/
structure Closed (t : TopMvm) : Prop where
  state : t.currentStateR = .dummy ∨ t.currentStateR = .idle
  start : t.startMvmR = false
  array : Quiet t.mvm ∨ Draining t.mvm

/-- The bit positions still to be sampled in a pass over the weight `w`. -/
inductive Scheduled (w : BitVec 8) (s : TestSlave) : List Nat → Prop
  /-- the long route: the pass begins in this clock -/
  | before : s.currentStateR = .wait → TopMvm.iWt s.matrixR = w →
      s.topMvm.currentStateR = .wait → s.topMvm.startMvmR = true → Quiet s.topMvm.mvm →
      Scheduled w s ((List.range' 0 (passLen w)).map passSel)
  /-- `j` positions have been sampled, `rem` are to come -/
  | running (j rem : Nat) : s.currentStateR = .wait ∨ s.currentStateR = .done →
      TopMvm.iWt s.matrixR = w → s.topMvm.currentStateR = .cal →
      Running s.topMvm.mvm (oWtNumTran w) j rem →
      Scheduled w s ((List.range' j rem).map passSel)
  | closing : s.currentStateR = .done → s.topMvm.currentStateR = .dummy → Closed s.topMvm →
      Scheduled w s []
  /-- the bus is open again -/
  | rest : s.currentStateR = .idle ∨ s.currentStateR = .get ∨ s.currentStateR = .send →
      s.matStartR = false → Closed s.topMvm → Scheduled w s []

section Clocks

variable {s : TestSlave} {i : Input} {w : BitVec 8}

/-- Without a start pulse the array stays quiet. -/
theorem Closed.clock {t : TopMvm} (h : Closed t) (mat : Matrix) :
    t.isMvm false mat = false ∧ Closed (t.clock false false false mat) := by
  have hgen := fsmGen_at_rest h.array (oWtNumTran (TopMvm.iWt mat))
  have hquiet : Quiet (t.mvm.drive false false (TopMvm.iXVector mat) (TopMvm.iWt mat)) :=
    quiet_after_rest h.array
  rcases h.state with hs | hs
  · rw [TopMvm.clock_dummy_rest hs h.start]
    refine ⟨by simpa [TopMvm.isMvm, TopMvm.startMvmW, hs, h.start] using hgen,
      ⟨?_, rfl, .inl hquiet⟩⟩
    dsimp only
    split
    · exact .inr rfl
    · exact .inl rfl
  · rw [TopMvm.clock_idle_rest hs h.start]
    exact ⟨by simpa [TopMvm.isMvm, TopMvm.startMvmW, hs, h.start] using hgen,
      ⟨.inr rfl, rfl, .inl hquiet⟩⟩

/-- Outside the start clock the lanes count what the array enables. -/
theorem sampler_emit (h : ¬ s.Starts) :
    sampler.emit s i =
      if s.topMvm.isMvm (s.comb i).matStartW s.matrixR then [s.topMvm.mvm.fsmMux.sel] else [] := by
  have hrst : (s.comb i).mvmRst = false := by
    rw [TestSlave.comb]
    cases hs : s.currentStateR with
    | idle =>
      dsimp only
      split
      · rfl
      · split <;> rfl
    | get =>
      dsimp only
      rw [if_neg fun hd => h ⟨hs, beq_iff_eq.mp hd⟩]
      rfl
    | done => dsimp only; split <;> rfl
    | send => rfl
    | wait => rfl
    | unused _ => rfl
  show (if s.fsmGen i && !(s.comb i).mvmRst then _ else _) = _
  rw [hrst, Bool.not_false, Bool.and_true]
  rfl

/-- A clock of a pass in `CAL`. -/
theorem running_sampled {j rem : Nat} (hs : s.currentStateR = .wait ∨ s.currentStateR = .done)
    (hw : TopMvm.iWt s.matrixR = w) (ht : s.topMvm.currentStateR = .cal)
    (hrun : Running s.topMvm.mvm (oWtNumTran w) j rem) (hr : i.iRstCtrl = false) :
    ∃ l, (List.range' j rem).map passSel = sampler.emit s i ++ l ∧ Scheduled w (s.clock i) l := by
  subst hw
  have hstarts : ¬ s.Starts := by
    rintro ⟨hget, -⟩
    rcases hs with hs | hs <;> rw [hs] at hget <;> cases hget
  have hmvm : ∀ start, s.topMvm.isMvm start s.matrixR = s.topMvm.gen false s.matrixR := by
    intro start
    rw [TopMvm.isMvm, TopMvm.startMvmW, ht]
    rfl
  -- the slave goes to `DONE`, whether or not `mat_start` is still up
  have hclock : ∃ start, (s.clock i).currentStateR = .done ∧ (s.clock i).matrixR = s.matrixR ∧
      (s.clock i).topMvm = s.topMvm.clock false false start s.matrixR := by
    rcases hs with hs | hs
    · rw [TestSlave.clock_wait hs hr]
      exact ⟨_, rfl, rfl, rfl⟩
    · rw [TestSlave.clock_done_busy hs hr (by rw [TopMvm.isAcc, ht]; rfl)]
      exact ⟨_, hs, rfl, rfl⟩
  obtain ⟨start, hstate, hmat, htop⟩ := hclock
  rw [sampler_emit hstarts, hmvm]
  cases rem with
  | zero =>
    obtain ⟨hgen, hdrain⟩ := hrun.last (x := TopMvm.iXVector s.matrixR) rfl
    rw [TopMvm.clock_cal_done ht hgen] at htop
    refine ⟨[], by rw [TopMvm.gen, hgen]; rfl, .closing hstate (by rw [htop]) ?_⟩
    rw [htop]
    exact ⟨.inl rfl, rfl, .inr hdrain⟩
  | succ rem =>
    obtain ⟨hgen, hrun', -⟩ := hrun.step (x := TopMvm.iXVector s.matrixR) rfl
    rw [TopMvm.clock_cal_gen ht hgen] at htop
    refine ⟨(List.range' (j + 1) rem).map passSel, ?_,
      .running (j + 1) rem (.inr hstate) (by rw [hmat]) (by rw [htop]) ?_⟩
    · rw [TopMvm.gen, hgen, hrun.sel_eq]
      rfl
    · rw [htop]
      exact hrun'

/-- **Step lemma**: a clock takes the positions it samples off the schedule. -/
theorem Scheduled.clock {l : List Nat} (h : Scheduled w s l) (hstarts : ¬ s.Starts)
    (hr : i.iRstCtrl = false) :
    ∃ l', l = sampler.emit s i ++ l' ∧ Scheduled w (s.clock i) l' := by
  cases h with
  | before hs hw ht hstart hq =>
    subst hw
    have hpos := passLen_pos (TopMvm.iWt s.matrixR)
    rw [sampler_emit hstarts, TestSlave.clock_wait hs hr, TopMvm.clock_wait ht hstart]
    refine ⟨(List.range' 1 (passLen (TopMvm.iWt s.matrixR) - 1)).map passSel, ?_,
      .running 1 _ (.inr rfl) rfl rfl hq.begin⟩
    rw [TopMvm.isMvm, TopMvm.startMvmW, ht, hstart, hq.fsmGen_start, if_pos rfl, hq.sel_eq]
    obtain ⟨n, hn⟩ := Nat.exists_eq_succ_of_ne_zero (Nat.ne_of_gt hpos)
    rw [hn]
    rfl
  | running j rem hs hw ht hrun => exact running_sampled hs hw ht hrun hr
  | closing hs ht hclosed =>
    have hcomb : (s.comb i).matStartW = false := by
      simp [TestSlave.comb, hs, TopMvm.isAcc, ht]
    obtain ⟨hgen, hnext⟩ := hclosed.clock s.matrixR
    rw [sampler_emit hstarts, hcomb, hgen, if_neg Bool.false_ne_true,
      TestSlave.clock_done_free hs hr (by rw [TopMvm.isAcc, ht]; rfl)]
    exact ⟨[], rfl, .rest (.inl rfl) rfl hnext⟩
  | rest hs hm hclosed =>
    obtain ⟨hgen, hnext⟩ := hclosed.clock s.matrixR
    have hnone : sampler.emit s i = [] := by
      have hcomb : (s.comb i).matStartW = false := by
        rw [TestSlave.comb]
        rcases hs with hs | hs | hs <;> rw [hs] <;> dsimp only
        · split
          · exact hm
          · split <;> exact hm
        · rw [if_neg fun hd => hstarts ⟨hs, beq_iff_eq.mp hd⟩]
          exact hm
        · exact hm
      rw [sampler_emit hstarts, hcomb, hgen, if_neg Bool.false_ne_true]
    refine ⟨[], by rw [hnone]; rfl, ?_⟩
    rcases hs with hs | hs | hs
    · cases hwr : i.iWriteReq with
      | true =>
        rw [TestSlave.clock_idle_write hs hr hwr, hm]
        exact .rest (.inr (.inl rfl)) rfl hnext
      | false =>
        cases hq : i.iReadReq with
        | true =>
          rw [TestSlave.clock_idle_read hs hr hwr hq, hm]
          exact .rest (.inr (.inr rfl)) rfl hnext
        | false =>
          rw [TestSlave.clock_idle_rest hs hr hwr hq, hm]
          exact .rest (.inl hs) rfl hnext
    · rw [TestSlave.clock_get hs hr fun hd => hstarts ⟨hs, hd⟩, hm]
      exact .rest (.inl rfl) rfl hnext
    · rw [TestSlave.clock_send hs hr, hm]
      exact .rest (.inl rfl) rfl hnext

end Clocks

end DcnnFpga.Rtl
