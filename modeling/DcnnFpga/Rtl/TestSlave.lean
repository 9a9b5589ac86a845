import DcnnFpga.Rtl.TopMvm

/-!
# The bus slave (`test_slave.sv`)

`test_slave` takes 32-bit writes and reads, fills the operand buffer
`matrix_r` four bytes at a time, starts `TOP_MVM` after every 65th write, and
holds the bus (`o_wait_req`) until the accumulation is over. `TestSlave` is the
whole composed design: its `clock` is one clock of all seven modules.
-/

namespace DcnnFpga.Rtl

/-- The three-bit state register of `test_slave`; `unused` are the encodings 5, 6, 7. -/
inductive TestSlave.St where
  | idle | get | send | done | wait | unused (code : Fin 3)
deriving Repr, DecidableEq

/-- The inputs of the composed design in one clock. -/
structure Input where
  iRstCtrl : Bool
  iReadReq : Bool
  iWriteReq : Bool
  iData32bCtrl : BitVec 32
deriving Repr, DecidableEq

/-- Registers of `test_slave`, with those of its `TOP_MVM` instance. -/
structure TestSlave where
  currentStateR : TestSlave.St
  dimCounterR : BitVec 10
  vectorCounterR : BitVec 10
  readCounterR : BitVec 10
  matStartR : Bool
  matrixR : Matrix
  topMvm : TopMvm

namespace TestSlave

def DIM_WRITE : BitVec 10 := 64
def DIM_SHRINK : BitVec 10 := 128

/-- The registers under `i_rst_ctrl`. The reset does not reach the `MVM` side. -/
def afterReset (mvm : MVM) : TestSlave :=
  ⟨.idle, 0, 0, 0, false, fun _ => 0, TopMvm.afterReset mvm⟩

def writeShift (s : TestSlave) : BitVec 10 := s.dimCounterR <<< 2
def readShift (s : TestSlave) : BitVec 10 := s.readCounterR <<< 1
def finalWrite1 (s : TestSlave) : BitVec 10 := s.writeShift
def finalWrite2 (s : TestSlave) : BitVec 10 := s.writeShift + 1
def finalWrite3 (s : TestSlave) : BitVec 10 := s.writeShift + 2
def finalWrite4 (s : TestSlave) : BitVec 10 := s.writeShift + 3
def finalRead1 (s : TestSlave) : BitVec 10 := s.readShift
def finalRead2 (s : TestSlave) : BitVec 10 := s.readShift + 1

/-- `y_vector[i]`. -/
def yVector (s : TestSlave) (i : Fin DIM) : BitVec 16 := s.topMvm.mvm.oWxResult i

/-- A read of `y_vector` at a 10-bit index; outside the array the source reads
an unknown value, here 0. -/
def yAt (s : TestSlave) (i : BitVec 10) : BitVec 16 :=
  if h : i.toNat < DIM then s.yVector ⟨i.toNat, h⟩ else 0

/-- `o_y_data`. -/
def oYData (s : TestSlave) : BitVec 32 := s.yAt s.finalRead2 ++ s.yAt s.finalRead1

/-- One assignment `matrix_w[i] = v`; outside the array it has no effect. -/
def setMatrix (m : Matrix) (i : BitVec 10) (v : BitVec 8) : Matrix :=
  fun j => if j.val = i.toNat then v else m j

/-- `matrix_w` when a write is taken in `IDLE`. -/
def writeMatrix (s : TestSlave) (d : BitVec 32) : Matrix :=
  if s.dimCounterR == DIM_WRITE then
    setMatrix s.matrixR 256 (d.extractLsb' 0 8)
  else
    setMatrix (setMatrix (setMatrix (setMatrix s.matrixR
      s.finalWrite1 (d.extractLsb' 0 8))
      s.finalWrite2 (d.extractLsb' 8 8))
      s.finalWrite3 (d.extractLsb' 16 8))
      s.finalWrite4 (d.extractLsb' 24 8)

/-- The wires of the main `always_comb` block. -/
structure Wires where
  currentStateW : St
  dimCounterW : BitVec 10
  vectorCounterW : BitVec 10
  readCounterW : BitVec 10
  matStartW : Bool
  matrixW : Matrix
  oWaitReq : Bool
  mvmRst : Bool

/-- The defaults at the head of the block. -/
def defaults (s : TestSlave) : Wires where
  currentStateW := s.currentStateR
  dimCounterW := s.dimCounterR
  vectorCounterW := s.vectorCounterR
  readCounterW := s.readCounterR
  matStartW := s.matStartR
  matrixW := s.matrixR
  oWaitReq := true
  mvmRst := false

/-- The main `always_comb` block. -/
def comb (s : TestSlave) (i : Input) : Wires :=
  let w := s.defaults
  match s.currentStateR with
  | .idle =>
    -- a write wins over a read requested in the same clock
    if i.iWriteReq then
      { w with
        currentStateW := .get, oWaitReq := false,
        matrixW := s.writeMatrix i.iData32bCtrl }
    else if i.iReadReq then
      { w with
        vectorCounterW := if s.readCounterR == 0 then 0 else s.vectorCounterR,
        currentStateW := .send, oWaitReq := false }
    else w
  | .get =>
    -- the word taken was the weight: start, and clear first if no vector came
    -- since word 0 was read
    if s.dimCounterR == DIM_WRITE then
      { w with
        oWaitReq := true, vectorCounterW := s.vectorCounterR + 1,
        currentStateW := .wait, dimCounterW := 0, matStartW := true,
        mvmRst := s.vectorCounterR == 0 }
    else
      { w with
        oWaitReq := true, dimCounterW := s.dimCounterR + 1,
        currentStateW := .idle }
  | .wait => { w with currentStateW := .done }
  | .done =>
    -- `mat_start` was up for `GET` and `WAIT`, and falls in any case
    if s.topMvm.isAcc then { w with matStartW := false, oWaitReq := true }
    else { w with matStartW := false, currentStateW := .idle }
  | .send =>
    { w with
      oWaitReq := true, currentStateW := .idle,
      readCounterW :=
        if s.readCounterR == DIM_SHRINK - 1 then 0 else s.readCounterR + 1 }
  | .unused _ => { w with currentStateW := .idle }

def oWaitReq (s : TestSlave) (i : Input) : Bool := (s.comb i).oWaitReq

/-- One clock of the composed design. -/
def clock (s : TestSlave) (i : Input) : TestSlave :=
  let w := s.comb i
  let top := s.topMvm.clock i.iRstCtrl w.mvmRst w.matStartW s.matrixR
  if i.iRstCtrl then
    { currentStateR := .idle, dimCounterR := 0, vectorCounterR := 0,
      readCounterR := 0, matStartR := false, matrixR := fun _ => 0,
      topMvm := top }
  else
    { currentStateR := w.currentStateW, dimCounterR := w.dimCounterW,
      vectorCounterR := w.vectorCounterW, readCounterR := w.readCounterW,
      matStartR := w.matStartW, matrixR := w.matrixW, topMvm := top }

/-- `fsm_gen` in one clock of the composed design. -/
def fsmGen (s : TestSlave) (i : Input) : Bool :=
  s.topMvm.isMvm (s.comb i).matStartW s.matrixR

/-- A reset clock leaves `afterReset`, whatever the registers held before. -/
theorem clock_reset (s : TestSlave) {i : Input} (h : i.iRstCtrl = true) :
    s.clock i = afterReset (s.topMvm.mvmClock (s.comb i).mvmRst (s.comb i).matStartW s.matrixR) := by
  simp [clock, TopMvm.clock, afterReset, h]

/-! ## What a clock does in each state -/

section Clocks

variable {s : TestSlave} {i : Input}

/-- An accepted write: the bytes go to the buffer. -/
theorem clock_idle_write (h : s.currentStateR = .idle) (hr : i.iRstCtrl = false)
    (hw : i.iWriteReq = true) :
    s.clock i =
      { s with
        currentStateR := .get, matrixR := s.writeMatrix i.iData32bCtrl,
        topMvm := s.topMvm.clock false false s.matStartR s.matrixR } := by
  simp [clock, comb, defaults, h, hr, hw]

/-- An accepted read: only the vector counter may change. -/
theorem clock_idle_read (h : s.currentStateR = .idle) (hr : i.iRstCtrl = false)
    (hw : i.iWriteReq = false) (hq : i.iReadReq = true) :
    s.clock i =
      { s with
        currentStateR := .send
        vectorCounterR := if s.readCounterR = 0 then 0 else s.vectorCounterR
        topMvm := s.topMvm.clock false false s.matStartR s.matrixR } := by
  simp [clock, comb, defaults, h, hr, hw, hq]

theorem clock_idle_rest (h : s.currentStateR = .idle) (hr : i.iRstCtrl = false)
    (hw : i.iWriteReq = false) (hq : i.iReadReq = false) :
    s.clock i =
      { s with topMvm := s.topMvm.clock false false s.matStartR s.matrixR } := by
  simp [clock, comb, defaults, h, hr, hw, hq]

theorem clock_get (h : s.currentStateR = .get) (hr : i.iRstCtrl = false)
    (hd : s.dimCounterR ≠ DIM_WRITE) :
    s.clock i =
      { s with
        currentStateR := .idle, dimCounterR := s.dimCounterR + 1,
        topMvm := s.topMvm.clock false false s.matStartR s.matrixR } := by
  simp [clock, comb, defaults, h, hr, hd]

/-- The vector is complete: start, and clear if it is the first one. -/
theorem clock_get_full (h : s.currentStateR = .get) (hr : i.iRstCtrl = false)
    (hd : s.dimCounterR = DIM_WRITE) :
    s.clock i =
      { s with
        currentStateR := .wait, vectorCounterR := s.vectorCounterR + 1,
        dimCounterR := 0, matStartR := true,
        topMvm := s.topMvm.clock false (s.vectorCounterR == 0) true s.matrixR } := by
  simp [clock, comb, defaults, h, hr, hd]

theorem clock_wait (h : s.currentStateR = .wait) (hr : i.iRstCtrl = false) :
    s.clock i =
      { s with
        currentStateR := .done,
        topMvm := s.topMvm.clock false false s.matStartR s.matrixR } := by
  simp [clock, comb, defaults, h, hr]

theorem clock_done_busy (h : s.currentStateR = .done) (hr : i.iRstCtrl = false)
    (ha : s.topMvm.isAcc = true) :
    s.clock i =
      { s with
        matStartR := false, topMvm := s.topMvm.clock false false false s.matrixR } := by
  simp [clock, comb, defaults, h, hr, ha]

theorem clock_done_free (h : s.currentStateR = .done) (hr : i.iRstCtrl = false)
    (ha : s.topMvm.isAcc = false) :
    s.clock i =
      { s with
        currentStateR := .idle, matStartR := false,
        topMvm := s.topMvm.clock false false false s.matrixR } := by
  simp [clock, comb, defaults, h, hr, ha]

theorem clock_send (h : s.currentStateR = .send) (hr : i.iRstCtrl = false) :
    s.clock i =
      { s with
        currentStateR := .idle
        readCounterR := if s.readCounterR = DIM_SHRINK - 1 then 0 else s.readCounterR + 1
        topMvm := s.topMvm.clock false false s.matStartR s.matrixR } := by
  simp [clock, comb, defaults, h, hr]

/-- `o_wait_req` falls in `IDLE` only, and there for any request. -/
theorem oWaitReq_idle (h : s.currentStateR = .idle) :
    s.oWaitReq i = !(i.iWriteReq || i.iReadReq) := by
  cases hw : i.iWriteReq <;> cases hq : i.iReadReq <;>
    simp [oWaitReq, comb, defaults, h, hw, hq]

theorem oWaitReq_busy (h : s.currentStateR ≠ .idle) : s.oWaitReq i = true := by
  rw [oWaitReq, comb]
  cases hs : s.currentStateR with
  | idle => exact absurd hs h
  | get => dsimp only; split <;> rfl
  | done => dsimp only; split <;> rfl
  | send => rfl
  | wait => rfl
  | unused _ => rfl

end Clocks

end TestSlave

end DcnnFpga.Rtl
