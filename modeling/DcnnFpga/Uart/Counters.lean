import Mathlib.Data.BitVec

/-!
# The bit clock (`altera_up_rs232_counters.v`)

Both directions of the serial core take their timing from an instance of the same
module: a counter of 652 clocks a bit, and a counter of bits. The instance is held at
its start (`reset_counters`) while nothing is received or sent, and let go for ten
bits. `Counting c j` gives all registers `j` clocks after that, to the clock in which
`all_bits_transmitted` has been and gone.
-/

namespace DcnnFpga.Uart

/-- Registers of `altera_up_rs232_counters`, with `CW = 10`. -/
structure Counters where
  baudCounter : BitVec 10
  baudClockRisingEdge : Bool
  baudClockFallingEdge : Bool
  bitCounter : BitVec 4
  allBitsTransmitted : Bool
deriving Repr, DecidableEq

namespace Counters

def BAUD_TICK_COUNT : BitVec 10 := 651
def HALF_BAUD_TICK_COUNT : BitVec 10 := 325
def TDW : BitVec 4 := 10

/-- One clock. -/
def clock (c : Counters) (reset resetCounters : Bool) : Counters where
  baudCounter :=
    if reset then 0
    else if resetCounters then 0
    else if c.baudCounter == BAUD_TICK_COUNT then 0
    else c.baudCounter + 1
  baudClockRisingEdge := if reset then false else c.baudCounter == BAUD_TICK_COUNT
  baudClockFallingEdge := if reset then false else c.baudCounter == HALF_BAUD_TICK_COUNT
  bitCounter :=
    if reset then 0
    else if resetCounters then 0
    else if c.bitCounter == TDW then 0
    else if c.baudCounter == BAUD_TICK_COUNT then c.bitCounter + 1
    else c.bitCounter
  allBitsTransmitted := if reset then false else c.bitCounter == TDW

/-- Held, or about to be: neither edge nor the end of a frame is near. -/
structure Rest (c : Counters) : Prop where
  baud : c.baudCounter.toNat < 325
  bit : c.bitCounter = 0

/-- `j` clocks after the counters were let go. -/
structure Counting (c : Counters) (j : Nat) : Prop where
  baud : c.baudCounter.toNat = j % 652
  rising : c.baudClockRisingEdge = decide (0 < j ∧ j % 652 = 0)
  falling : c.baudClockFallingEdge = decide (j % 652 = 326)
  /-- in the clock in which it has come to ten it is cleared -/
  bit : c.bitCounter.toNat = if j ≤ 6520 then j / 652 else 0
  all : c.allBitsTransmitted = decide (j = 6521)

theorem clock_reset (c : Counters) (resetCounters : Bool) :
    c.clock true resetCounters = ⟨0, false, false, 0, false⟩ := rfl

theorem rest_zero : Rest ⟨0, false, false, 0, false⟩ := ⟨by decide, rfl⟩

/-- The two compare values, as numbers. -/
theorem baud_eq_iff {b : BitVec 10} :
    ((b == BAUD_TICK_COUNT) = decide (b.toNat = 651)) ∧
      ((b == HALF_BAUD_TICK_COUNT) = decide (b.toNat = 325)) := by
  constructor
  · rw [Bool.eq_iff_iff, beq_iff_eq, decide_eq_true_iff]
    exact BitVec.toNat_inj.symm
  · rw [Bool.eq_iff_iff, beq_iff_eq, decide_eq_true_iff]
    exact BitVec.toNat_inj.symm

theorem bit_eq_iff {b : BitVec 4} : (b == TDW) = decide (b.toNat = 10) := by
  rw [Bool.eq_iff_iff, beq_iff_eq, decide_eq_true_iff]
  exact BitVec.toNat_inj.symm

/-- A held instance stays at rest, and raises nothing. -/
theorem Rest.held {c : Counters} (h : c.Rest) :
    (c.clock false true).Rest ∧ (c.clock false true).allBitsTransmitted = false ∧
      (c.clock false true).Counting 0 := by
  have hbaud := h.baud
  obtain ⟨htick, hhalf⟩ := baud_eq_iff (b := c.baudCounter)
  have hrising : (c.baudCounter == BAUD_TICK_COUNT) = false := by
    rw [htick, decide_eq_false (by omega)]
  have hfalling : (c.baudCounter == HALF_BAUD_TICK_COUNT) = false := by
    rw [hhalf, decide_eq_false (by omega)]
  have hall : (c.bitCounter == TDW) = false := by
    rw [h.bit]
    rfl
  exact ⟨⟨(by decide : 0 < 325), rfl⟩, hall, ⟨rfl, hrising, hfalling, rfl, hall⟩⟩

/-- **Step lemma**: a clock of counting. -/
theorem Counting.step {c : Counters} {j : Nat} (h : c.Counting j) (hj : j ≤ 6521) :
    (c.clock false false).Counting (j + 1) := by
  have hbaud := h.baud
  have hbit := h.bit
  obtain ⟨htick, hhalf⟩ := baud_eq_iff (b := c.baudCounter)
  rw [hbaud] at htick hhalf
  have hall := bit_eq_iff (b := c.bitCounter)
  refine { baud := ?_, rising := ?_, falling := ?_, bit := ?_, all := ?_ }
  · show (if (c.baudCounter == BAUD_TICK_COUNT) = true then 0 else c.baudCounter + 1).toNat = _
    rw [htick]
    by_cases hlast : j % 652 = 651
    · rw [decide_eq_true hlast, if_pos rfl]
      show 0 = (j + 1) % 652
      omega
    · rw [decide_eq_false hlast, if_neg Bool.false_ne_true, BitVec.toNat_add, hbaud]
      show (j % 652 + 1) % 1024 = (j + 1) % 652
      omega
  · show (c.baudCounter == BAUD_TICK_COUNT) = _
    rw [htick, decide_eq_decide]
    omega
  · show (c.baudCounter == HALF_BAUD_TICK_COUNT) = _
    rw [hhalf, decide_eq_decide]
    omega
  · show (if (c.bitCounter == TDW) = true then 0
      else if (c.baudCounter == BAUD_TICK_COUNT) = true then c.bitCounter + 1
      else c.bitCounter).toNat = _
    rw [hall, htick]
    by_cases hend : j = 6520
    · have hten : c.bitCounter.toNat = 10 := by
        rw [hbit, hend]
        rfl
      rw [decide_eq_true hten, if_pos rfl, hend]
      rfl
    · have hne : c.bitCounter.toNat ≠ 10 := by
        rw [hbit]
        split <;> omega
      rw [decide_eq_false hne, if_neg Bool.false_ne_true]
      by_cases hlast : j % 652 = 651
      · rw [decide_eq_true hlast, if_pos rfl, BitVec.toNat_add, hbit, if_pos (by omega),
          if_pos (by omega)]
        show (j / 652 + 1) % 16 = (j + 1) / 652
        omega
      · rw [decide_eq_false hlast, if_neg Bool.false_ne_true, hbit]
        split <;> split <;> omega
  · show (c.bitCounter == TDW) = _
    rw [hall, decide_eq_decide, hbit]
    split <;> omega

/-- After the last clock the counters are near their start again. -/
theorem Counting.rest {c : Counters} (h : c.Counting 6522) : c.Rest where
  baud := by rw [h.baud]; decide
  bit := BitVec.eq_of_toNat_eq (h.bit.trans rfl)

end Counters

end DcnnFpga.Uart
