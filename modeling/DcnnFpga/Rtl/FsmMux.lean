import Mathlib.Data.BitVec

/-!
# The stochastic bit selector (`fsm_mux.sv`)

`FSM_16_state` walks a counter and turns its trailing one bits into a bit
position; `MUX_4to1` picks that bit of a data byte; `FSM_MUX` starts and stops
the walk and raises `o_isgen` while bits are being generated.

Every module is a register record together with

- `next`: the `_w` values of its `always_comb` block (a register record again,
  since each `_w` wire is what the register of the same name loads), and
- `clock`: the `always_ff` block, i.e. `next` unless the reset input is high.

Wires a module drives out are read off `next`, as the source does
(`assign o_isgen = gen_w`).
-/

namespace DcnnFpga.Rtl

/-- Registers of `FSM_16_state`. -/
structure FSM16State where
  counterR : BitVec 8
  startR : Bool
deriving Repr, DecidableEq

namespace FSM16State

/-- The registers under `i_rst_fsm`. -/
def cleared : FSM16State := ⟨0, false⟩

/-- The second `always_comb` block (`counter_w`, `start_w`). -/
def next (r : FSM16State) (iStartFsm iStopFsm : Bool) : FSM16State :=
  -- a start wins over a stop in the same clock
  if iStartFsm then
    { startR := true, counterR := 0 }
  else if r.startR then
    if iStopFsm then
      { startR := false, counterR := 0 }
    else
      { r with counterR := r.counterR + 1 }
  else r

/-- The selector table on `counter_w`. -/
def sel (counterW : BitVec 8) : Nat :=
  if counterW.toNat % 2 = 0 then 7
  else if counterW.toNat % 4 = 1 then 6
  else if counterW.toNat % 8 = 3 then 5
  else if counterW.toNat % 16 = 7 then 4
  else if counterW.toNat % 32 = 15 then 3
  else if counterW.toNat % 64 = 31 then 2
  else if counterW.toNat % 128 = 63 then 1
  else 0

/-- `o_sel`: the table is read at the combinational counter, not the register. -/
def oSel (r : FSM16State) (iStartFsm iStopFsm : Bool) : Nat :=
  sel (r.next iStartFsm iStopFsm).counterR

def clock (r : FSM16State) (iRstFsm iStartFsm iStopFsm : Bool) : FSM16State :=
  if iRstFsm then cleared else r.next iStartFsm iStopFsm

end FSM16State

/-- `MUX_4to1`: `i_data[i_sel+:1]`. -/
def mux4to1 (iSel : Nat) (iData : BitVec 8) : Bool := iData.getLsbD iSel

/-- The two-bit state register of `FSM_MUX`. `wait` is declared but has no case
of its own, `unused` is the encoding `2'b11`. -/
inductive FSMMux.St where
  | idle | gen | wait | unused
deriving Repr, DecidableEq

/-- Registers of `FSM_MUX`, with those of its `FSM_16_state` instance. -/
structure FSMMux where
  currentStateR : FSMMux.St
  counterR : BitVec 8
  startFsmR : Bool
  stopFsmR : Bool
  genR : Bool
  fsm : FSM16State
deriving Repr, DecidableEq

namespace FSMMux

/-- The registers under `i_rst_fsm_mux`. -/
def cleared : FSMMux := ⟨.idle, 0, false, false, false, FSM16State.cleared⟩

/-- The `always_comb` block; `genR` of the result is the wire `gen_w`. The
registers of the `fsm` instance are clocked in `clock`. -/
def next (r : FSMMux) (iStartFsmMux iStopFsmMux : Bool) : FSMMux :=
  match r.currentStateR with
  | .idle =>
    if iStartFsmMux then
      { r with
        currentStateR := .gen, startFsmR := true, stopFsmR := false,
        counterR := 0, genR := true }
    else { r with genR := false }
  | .gen =>
    -- the source compares `counter_w` before it is assigned, i.e. `counter_r`
    if iStopFsmMux || r.counterR == 2 ^ 8 - 1 then
      { r with
        currentStateR := .idle, startFsmR := false, stopFsmR := true,
        genR := false }
    else
      { r with startFsmR := false, counterR := r.counterR + 1, genR := true }
  | _ => { r with currentStateR := .idle, genR := false }

/-- `o_isgen`. -/
def oIsgen (r : FSMMux) (iStartFsmMux iStopFsmMux : Bool) : Bool :=
  (r.next iStartFsmMux iStopFsmMux).genR

/-- `sel`: the selector instance sees the *registered* start and stop. -/
def sel (r : FSMMux) : Nat := r.fsm.oSel r.startFsmR r.stopFsmR

/-- `o_sn_bit` of one lane. -/
def oSnBit (r : FSMMux) (iXBn : BitVec 8) : Bool := mux4to1 r.sel iXBn

def clock (r : FSMMux) (iRstFsmMux iStartFsmMux iStopFsmMux : Bool) : FSMMux :=
  if iRstFsmMux then cleared
  else
    { r.next iStartFsmMux iStopFsmMux with
      fsm := r.fsm.clock iRstFsmMux r.startFsmR r.stopFsmR }

theorem next_idle_start {r : FSMMux} (h : r.currentStateR = .idle) (stop : Bool) :
    r.next true stop =
      { r with
        currentStateR := .gen, startFsmR := true, stopFsmR := false,
        counterR := 0, genR := true } := by
  simp [next, h]

theorem next_idle_rest {r : FSMMux} (h : r.currentStateR = .idle) (stop : Bool) :
    r.next false stop = { r with genR := false } := by
  simp [next, h]

theorem next_gen_stop {r : FSMMux} (h : r.currentStateR = .gen) (start : Bool) :
    r.next start true =
      { r with
        currentStateR := .idle, startFsmR := false, stopFsmR := true,
        genR := false } := by
  simp [next, h]

/-- The second stop condition, the counter's last value, is short-circuited by
the first; short of both the generator goes on. -/
theorem next_gen_go {r : FSMMux} (h : r.currentStateR = .gen)
    (hc : r.counterR.toNat < 255) (start : Bool) :
    r.next start false =
      { r with startFsmR := false, counterR := r.counterR + 1, genR := true } := by
  have hfull : ¬ r.counterR = 2 ^ 8 - 1 := by
    intro heq
    have hmax : (2 ^ 8 - 1 : BitVec 8).toNat = 255 := by decide
    rw [heq, hmax] at hc
    exact Nat.lt_irrefl _ hc
  have hcond : (false || r.counterR == 2 ^ 8 - 1) = false := by
    rw [Bool.false_or]
    exact beq_eq_false_iff_ne.mpr hfull
  rw [next, h]
  show (if (false || r.counterR == 2 ^ 8 - 1) = true then _ else _) = _
  rw [hcond, if_neg Bool.false_ne_true]

end FSMMux

end DcnnFpga.Rtl
