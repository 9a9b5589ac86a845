import DcnnFpga.Rtl.FsmMux

/-!
# The accumulator array (`mvm.sv`)

`DCounter` counts the length of a pass from the weight magnitude, `UpDCounter`
is one accumulator lane, and `MVM` wires one `FSM_MUX`, one `DCounter` and 256
lanes together: the lanes count exactly in the clocks in which `fsm_gen` is 1.
-/

namespace DcnnFpga.Rtl

/-- The parameter `DIM` every module of the design is instantiated with. -/
abbrev DIM : Nat := 256

/-- Registers of `UpDCounter`. -/
structure UpDCounter where
  counterR : BitVec 16
  bitR : Bool
deriving Repr, DecidableEq

namespace UpDCounter

def cleared : UpDCounter := ⟨0, false⟩

def next (r : UpDCounter) (iStartUdc iSnBitUdc iSignW : Bool) : UpDCounter :=
  let bitW := iSignW ^^ iSnBitUdc
  { bitR := bitW
    counterR :=
      if iStartUdc then
        if bitW then r.counterR + 1 else r.counterR - 1
      else r.counterR }

def clock (r : UpDCounter) (iRstUdc iStartUdc iSnBitUdc iSignW : Bool) : UpDCounter :=
  if iRstUdc then cleared else r.next iStartUdc iSnBitUdc iSignW

end UpDCounter

/-- Registers of `DCounter`. -/
structure DCounter where
  counterR : BitVec 8
  startR : Bool
deriving Repr, DecidableEq

namespace DCounter

def cleared : DCounter := ⟨0, false⟩

def num (iWDc : BitVec 8) : BitVec 8 := iWDc - 1

def next (r : DCounter) (iStartDc : Bool) (iWDc : BitVec 8) : DCounter :=
  if iStartDc then
    -- `counter_w` keeps its value in both branches
    if iWDc == 0 then { r with startR := false } else { r with startR := true }
  else if r.startR then
    if r.counterR != num iWDc then
      { startR := true, counterR := r.counterR + 1 }
    else { startR := false, counterR := 0 }
  else r

/-- `o_count`: the stop request to `FSM_MUX`. -/
def oCount (r : DCounter) (iStartDc : Bool) (iWDc : BitVec 8) : Bool :=
  !(r.next iStartDc iWDc).startR

def clock (r : DCounter) (iRstDc iStartDc : Bool) (iWDc : BitVec 8) : DCounter :=
  if iRstDc then cleared else r.next iStartDc iWDc

theorem toNat_num {iWDc : BitVec 8} (h : iWDc ≠ 0) : (num iWDc).toNat = iWDc.toNat - 1 := by
  have hpos : iWDc.toNat ≠ 0 := fun h0 => h (BitVec.eq_of_toNat_eq h0)
  have hlt := iWDc.isLt
  rw [num, BitVec.toNat_sub]
  show (2 ^ 8 - 1 + iWDc.toNat) % 2 ^ 8 = _
  omega

/-- A start pulse arms the counter unless the weight is zero; the count itself
is not restarted. -/
theorem next_start (r : DCounter) (iWDc : BitVec 8) :
    r.next true iWDc = ⟨r.counterR, decide (iWDc ≠ 0)⟩ := by
  by_cases hw : iWDc = 0
  · subst hw
    rfl
  · rw [next, if_pos rfl, if_neg (by simpa using hw), decide_eq_true hw]

theorem next_idle {r : DCounter} (h : r.startR = false) (iWDc : BitVec 8) :
    r.next false iWDc = r := by
  simp [next, h]

/-- Short of its target an armed counter counts on. -/
theorem next_count {r : DCounter} {iWDc : BitVec 8} (h : r.startR = true)
    (hn : r.counterR ≠ num iWDc) : r.next false iWDc = ⟨r.counterR + 1, true⟩ := by
  simp [next, h, hn]

/-- At its target it disarms and clears. -/
theorem next_last {r : DCounter} {iWDc : BitVec 8} (h : r.startR = true)
    (hn : r.counterR = num iWDc) : r.next false iWDc = cleared := by
  simp [next, h, hn, cleared]

end DCounter

/-- Registers of `MVM`: those of its instances. -/
structure MVM where
  fsmMux : FSMMux
  dcounter : DCounter
  updcounter : Fin DIM → UpDCounter

namespace MVM

/-- The state `i_rst_mvm` leaves behind. -/
def cleared : MVM := ⟨FSMMux.cleared, DCounter.cleared, fun _ => UpDCounter.cleared⟩

def fsmMuxStop (m : MVM) (iStartMvm : Bool) (iWMvm : BitVec 8) : Bool :=
  m.dcounter.oCount iStartMvm iWMvm

/-- `fsm_gen`, the accumulate enable; `o_ismvm` is the same wire. -/
def fsmGen (m : MVM) (iStartMvm : Bool) (iWMvm : BitVec 8) : Bool :=
  m.fsmMux.oIsgen iStartMvm (m.fsmMuxStop iStartMvm iWMvm)

def oWxResult (m : MVM) (i : Fin DIM) : BitVec 16 := (m.updcounter i).counterR

def clock (m : MVM) (iRstMvm iStartMvm iSign : Bool) (iXBn : Fin DIM → BitVec 8)
    (iWMvm : BitVec 8) : MVM where
  fsmMux := m.fsmMux.clock iRstMvm iStartMvm (m.fsmMuxStop iStartMvm iWMvm)
  dcounter := m.dcounter.clock iRstMvm iStartMvm iWMvm
  updcounter i :=
    (m.updcounter i).clock iRstMvm (m.fsmGen iStartMvm iWMvm)
      (m.fsmMux.oSnBit (iXBn i)) iSign

end MVM

end DcnnFpga.Rtl
