import DcnnFpga.Uart.InDeserializer

/-!
# The transmitter (`altera_up_rs232_out_serializer.v`)

A byte is taken from the FIFO into a shift register behind a start bit, and shifted out
over an output register that lags by two clocks. So the start bit is on the line for
653 clocks, every data bit for 652, and the next byte is taken 6523 clocks after the
last one at the earliest. `Sending byte j` gives the registers `j` clocks into that.
-/

namespace DcnnFpga.Uart

open Lib

/-- Registers of `altera_up_rs232_out_serializer`, with `TDW = 10` and `DW = 7`. -/
structure OutSerializer (F : SyncFifo) where
  fifoWriteSpace : BitVec 8
  serialDataOut : Bool
  transmittingData : Bool
  dataOutShiftReg : BitVec 9
  counters : Counters
  fifo : F.State

structure TxInput where
  reset : Bool
  transmitData : BitVec 8
  transmitDataEn : Bool

namespace OutSerializer

variable {F : SyncFifo}

def readFifoEn (s : OutSerializer F) : Bool :=
  !s.transmittingData && !F.empty s.fifo && !s.counters.allBitsTransmitted

/-- `{1'b1, data_out_shift_reg[DW+1:1]}`. -/
def shiftOut (reg : BitVec 9) : BitVec 9 := BitVec.ofBool true ++ reg.extractLsb' 1 8

/-- One clock. -/
def clock (s : OutSerializer F) (i : TxInput) : OutSerializer F where
  fifoWriteSpace :=
    if i.reset then 0 else 0x80 - (BitVec.ofBool (F.full s.fifo) ++ F.usedw s.fifo)
  serialDataOut := if i.reset then true else s.dataOutShiftReg.getLsbD 0
  transmittingData :=
    if i.reset then false
    else if s.counters.allBitsTransmitted then false
    else if F.empty s.fifo == false then true
    else s.transmittingData
  dataOutShiftReg :=
    if i.reset then BitVec.allOnes 9
    else if s.readFifoEn then F.q s.fifo ++ BitVec.ofBool false
    else if s.counters.baudClockRisingEdge then shiftOut s.dataOutShiftReg
    else s.dataOutShiftReg
  counters := s.counters.clock i.reset (!s.transmittingData)
  fifo :=
    F.clock s.fifo i.reset (i.transmitDataEn && !F.full s.fifo) i.transmitData s.readFifoEn

/-- The byte that leaves the FIFO in this clock. -/
def departure (s : OutSerializer F) : List (BitVec 8) :=
  if s.readFifoEn then [F.q s.fifo] else []

/-- The transmitter reads its FIFO by a request that looks at `empty` itself. -/
theorem departure_eq (s : OutSerializer F) :
    s.departure = F.popped s.fifo (!s.transmittingData && !s.counters.allBitsTransmitted) ∧
      s.readFifoEn = (!s.transmittingData && !s.counters.allBitsTransmitted && !F.empty s.fifo) := by
  have hread : s.readFifoEn =
      (!s.transmittingData && !s.counters.allBitsTransmitted && !F.empty s.fifo) := by
    rw [readFifoEn, Bool.and_right_comm]
  exact ⟨by rw [departure, Fifo.popped, hread], hread⟩

/-- Nothing to send, and the line high. -/
structure Idle (s : OutSerializer F) : Prop where
  transmitting : s.transmittingData = false
  all : s.counters.allBitsTransmitted = false
  rest : s.counters.Rest
  reg : s.dataOutShiftReg = BitVec.allOnes 9
  line : s.serialDataOut = true

/-- In the clock `j + 1` after a byte was taken from the FIFO. -/
structure Sending (s : OutSerializer F) (byte : BitVec 8) (j : Nat) : Prop where
  transmitting : s.transmittingData = true
  counting : s.counters.Counting j
  /-- shifted once for every bit that is over -/
  reg : ∀ k, k < 9 → s.dataOutShiftReg.getLsbD k = frameBit byte (k + (j - 1) / 652)
  /-- the output register, a clock behind -/
  line : s.serialDataOut = if j = 0 then true else frameBit byte ((j - 2) / 652)

section Clocks

variable {s : OutSerializer F} {i : TxInput}

theorem idle_reset (h : i.reset = true) : (s.clock i).Idle := by
  have hcounters : (s.clock i).counters = ⟨0, false, false, 0, false⟩ := by
    rw [clock, h]
    rfl
  refine { transmitting := ?_, all := ?_, rest := ?_, reg := ?_, line := ?_ }
  · rw [clock, h]
    rfl
  · rw [hcounters]
  · rw [hcounters]
    exact Counters.rest_zero
  · rw [clock, h]
    rfl
  · rw [clock, h]
    rfl

/-- The shift register, when no byte is taken. -/
theorem clock_reg (hr : i.reset = false) (hread : s.readFifoEn = false) :
    (s.clock i).dataOutShiftReg =
      if s.counters.baudClockRisingEdge then shiftOut s.dataOutShiftReg
      else s.dataOutShiftReg := by
  rw [clock, hr, hread]
  rfl

/-- With the FIFO empty the line stays high. -/
theorem Idle.stay (h : s.Idle) (hr : i.reset = false) (hempty : F.empty s.fifo = true) :
    (s.clock i).Idle ∧ s.departure = [] := by
  obtain ⟨hrest, hall, hcounting⟩ := h.rest.held
  have hread : s.readFifoEn = false := by rw [readFifoEn, hempty, h.transmitting]; rfl
  have hcounters : (s.clock i).counters = s.counters.clock false true := by
    rw [clock, hr, h.transmitting]
    rfl
  refine ⟨⟨?_, hcounters ▸ hall, hcounters ▸ hrest, ?_, ?_⟩,
    if_neg (by rw [hread]; exact Bool.false_ne_true)⟩
  · simp [clock, hr, h.all, hempty, h.transmitting]
  · -- a late edge would shift a one in
    rw [clock_reg hr hread, h.reg]
    split
    · decide
    · rfl
  · simp [clock, hr, h.reg]

/-- A byte is taken. -/
theorem Idle.take (h : s.Idle) (hr : i.reset = false) (hempty : F.empty s.fifo = false) :
    (s.clock i).Sending (F.q s.fifo) 0 ∧ s.departure = [F.q s.fifo] := by
  obtain ⟨-, -, hcounting⟩ := h.rest.held
  have hread : s.readFifoEn = true := by rw [readFifoEn, hempty, h.transmitting, h.all]; rfl
  have hcounters : (s.clock i).counters = s.counters.clock false true := by
    rw [clock, hr, h.transmitting]
    rfl
  refine ⟨⟨?_, hcounters ▸ hcounting, fun k hk => ?_, ?_⟩, if_pos hread⟩
  · simp [clock, hr, h.all, hempty]
  · have hreg : (s.clock i).dataOutShiftReg = F.q s.fifo ++ BitVec.ofBool false := by
      rw [clock, hr, hread]
      rfl
    rw [hreg, BitVec.getLsbD_append, Nat.zero_sub, Nat.zero_div, Nat.add_zero, frameBit]
    by_cases hk0 : k = 0
    · rw [if_pos (by omega), if_pos hk0, hk0]
      rfl
    · rw [if_neg (by omega), if_neg hk0, if_pos (by omega)]
  · simp [clock, hr, h.reg]

theorem getLsbD_shiftOut (reg : BitVec 9) {k : Nat} (hk : k < 9) :
    (shiftOut reg).getLsbD k = if k < 8 then reg.getLsbD (k + 1) else true := by
  rw [shiftOut, BitVec.getLsbD_append, BitVec.getLsbD_extractLsb', Nat.add_comm 1 k]
  by_cases h8 : k < 8
  · rw [if_pos h8, if_pos h8, decide_eq_true h8, Bool.true_and]
  · rw [if_neg h8, if_neg h8, show k - 8 = 0 by omega]
    rfl

/-- The register in the next clock: shifted at the end of every bit. -/
theorem Sending.next_reg {byte : BitVec 8} {j : Nat} (h : s.Sending byte j) (hr : i.reset = false)
    {k : Nat} (hk : k < 9) :
    (s.clock i).dataOutShiftReg.getLsbD k = frameBit byte (k + j / 652) := by
  have hread : s.readFifoEn = false := by rw [readFifoEn, h.transmitting]; rfl
  rw [clock_reg hr hread, h.counting.rising]
  by_cases hedge : 0 < j ∧ j % 652 = 0
  · rw [decide_eq_true hedge, if_pos rfl, getLsbD_shiftOut _ hk]
    by_cases h8 : k < 8
    · rw [if_pos h8, h.reg (k + 1) (by omega)]
      congr 1
      omega
    · -- the ones behind the data are the stop bit
      rw [if_neg h8, frameBit, if_neg (by omega), if_neg (by omega)]
  · rw [decide_eq_false hedge, if_neg Bool.false_ne_true, h.reg k hk]
    congr 1
    omega

theorem Sending.next_line {byte : BitVec 8} {j : Nat} (h : s.Sending byte j)
    (hr : i.reset = false) : (s.clock i).serialDataOut = frameBit byte ((j - 1) / 652) := by
  have hout : (s.clock i).serialDataOut = s.dataOutShiftReg.getLsbD 0 := by
    rw [clock, hr]
    rfl
  rw [hout, h.reg 0 (by decide), Nat.zero_add]

/-- **Step lemma**: a clock of a frame. -/
theorem Sending.step {byte : BitVec 8} {j : Nat} (h : s.Sending byte j) (hj : j < 6521)
    (hr : i.reset = false) : (s.clock i).Sending byte (j + 1) ∧ s.departure = [] := by
  have hall : s.counters.allBitsTransmitted = false := by
    rw [h.counting.all, decide_eq_false (by omega)]
  have hread : s.readFifoEn = false := by rw [readFifoEn, h.transmitting]; rfl
  have hcounters : (s.clock i).counters = s.counters.clock false false := by
    rw [clock, hr, h.transmitting]
    rfl
  refine ⟨⟨?_, hcounters ▸ h.counting.step (by omega), fun k hk => h.next_reg hr hk, ?_⟩,
    if_neg (by rw [hread]; exact Bool.false_ne_true)⟩
  · simp [clock, hr, hall, h.transmitting]
  · rw [h.next_line hr, if_neg (Nat.succ_ne_zero j)]
    rfl

/-- The last clock of a frame. -/
theorem Sending.done {byte : BitVec 8} (h : s.Sending byte 6521) (hr : i.reset = false) :
    (s.clock i).Idle ∧ s.departure = [] := by
  have hall : s.counters.allBitsTransmitted = true := h.counting.all
  have hread : s.readFifoEn = false := by rw [readFifoEn, h.transmitting]; rfl
  have hcounters : (s.clock i).counters = s.counters.clock false false := by
    rw [clock, hr, h.transmitting]
    rfl
  have hcounting := h.counting.step (Nat.le_refl 6521)
  refine ⟨⟨?_, ?_, hcounters ▸ hcounting.rest, ?_, ?_⟩,
    if_neg (by rw [hread]; exact Bool.false_ne_true)⟩
  · simp [clock, hr, hall]
  · rw [hcounters, hcounting.all]
    rfl
  · apply BitVec.eq_of_getLsbD_eq
    intro k hk
    rw [h.next_reg hr hk, frameBit, if_neg (by omega), if_neg (by omega),
      BitVec.getLsbD_allOnes, decide_eq_true hk]
  · rw [h.next_line hr, frameBit, if_neg (by decide), if_neg (by decide)]

theorem clock_fifo (hr : i.reset = false) (hnone : s.departure = []) :
    (s.clock i).fifo =
      F.clock s.fifo false (i.transmitDataEn && !F.full s.fifo) i.transmitData false := by
  have hread : s.readFifoEn = false := by
    by_contra hread
    rw [departure, if_pos (by simpa using hread)] at hnone
    cases hnone
  rw [clock, hr, hread]

/-- An idle transmitter that takes no byte sees none. -/
theorem Idle.empty_of_stay (h : s.Idle) (hr : i.reset = false) (hstay : s.departure = []) :
    F.empty s.fifo = true := by
  by_contra hempty
  rw [(h.take hr (by simpa using hempty)).2] at hstay
  cases hstay

/-- What is in the FIFO, and what is taken and stored. -/
theorem departure_append (hr : i.reset = false) :
    s.departure ++ F.contents (s.clock i).fifo =
      F.contents s.fifo ++ F.stored s.fifo i.transmitDataEn i.transmitData := by
  rw [clock, hr, (departure_eq s).1, (departure_eq s).2]
  exact F.clock_guarded _ _ _ _

/-! ### How long a byte waits -/

/-- The clocks until the line is free. -/
inductive Remaining (s : OutSerializer F) : Nat → Prop
  | idle : s.Idle → Remaining s 0
  | sending (byte : BitVec 8) (j : Nat) : j ≤ 6521 → s.Sending byte j → Remaining s (6522 - j)

theorem Remaining.le {r : Nat} (h : s.Remaining r) : r ≤ 6522 := by
  cases h with
  | idle _ => exact Nat.zero_le _
  | sending byte j _ _ => exact Nat.sub_le _ _

/-- **Step lemma**: a clock of the line, or the start of the next byte. -/
theorem Remaining.step {r : Nat} (h : s.Remaining r) (hr : i.reset = false) :
    (s.departure = [] ∧ (s.clock i).Remaining (r - 1)) ∨
      r = 0 ∧ F.contents s.fifo ≠ [] ∧ s.departure = [F.q s.fifo] ∧
        (s.clock i).Remaining 6522 := by
  cases h with
  | idle h =>
    cases hempty : F.empty s.fifo with
    | true => exact .inl ⟨(h.stay hr hempty).2, .idle (h.stay hr hempty).1⟩
    | false =>
      obtain ⟨hsend, hone⟩ := h.take hr hempty
      exact .inr ⟨rfl, F.contents_ne_nil hempty, hone, .sending _ 0 (Nat.zero_le _) hsend⟩
  | sending byte j hj h =>
    by_cases hlast : j = 6521
    · subst hlast
      exact .inl ⟨(h.done hr).2, .idle (h.done hr).1⟩
    · obtain ⟨hsend, hnone⟩ := h.step (i := i) (by omega) hr
      exact .inl ⟨hnone, .sending byte (j + 1) (by omega) hsend⟩

/-- A byte leaves the FIFO when it shows and the line is free. -/
theorem Remaining.busy {r age : Nat} (h : s.Remaining r) (hheld : F.HeldFor s.fifo age)
    (hr : i.reset = false) (hstay : s.departure = []) : 1 ≤ max r (F.lag - age) := by
  by_contra hfree
  cases h with
  | idle h =>
    have hempty := h.empty_of_stay hr hstay
    rw [hheld.shown (by omega)] at hempty
    cases hempty
  | sending byte j hj _ => omega

theorem held_clock {age : Nat} (h : F.HeldFor s.fifo age) (hr : i.reset = false)
    (hstay : s.departure = []) : F.HeldFor (s.clock i).fifo (age + 1) :=
  clock_fifo hr hstay ▸ h.write i.transmitDataEn i.transmitData

/-- There is a byte in the FIFO, and it leaves within so many clocks. -/
def Owed (s : OutSerializer F) (b : Nat) : Prop :=
  ∃ r age, s.Remaining r ∧ F.HeldFor s.fifo age ∧ max r (F.lag - age) = b

theorem Remaining.owed {r : Nat} (h : s.Remaining r) (hne : F.contents s.fifo ≠ []) :
    s.Owed (max r F.lag) :=
  ⟨r, 0, h, F.heldFor_zero hne, rfl⟩

/-- **Step lemma**: it leaves now, or is owed in less. -/
theorem Owed.step {b : Nat} (h : s.Owed b) (hr : i.reset = false) (hstay : s.departure = []) :
    ∃ b', b' < b ∧ (s.clock i).Owed b' := by
  obtain ⟨r, age, hrem, hheld, rfl⟩ := h
  have hbusy := hrem.busy hheld hr hstay
  rcases hrem.step hr with ⟨-, hnext⟩ | ⟨-, -, hone, -⟩
  · exact ⟨_, by omega, r - 1, age + 1, hnext, held_clock hheld hr hstay, rfl⟩
  · rw [hone] at hstay
    cases hstay

end Clocks

end OutSerializer

end DcnnFpga.Uart
