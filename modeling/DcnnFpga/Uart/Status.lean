import DcnnFpga.Uart.Baud
import DcnnFpga.Uart.Polled

/-!
# What the core says of itself

The two counts of the core, for the driver's `alt_up_rs232_get_used_space_in_read_FIFO` and
`alt_up_rs232_get_available_space_in_write_FIFO`, and its interrupt. All three are
registers behind the FIFOs, and exact about them: the counts one clock late
(`space_reported`), the interrupt three clocks (`irq_iff`). The driver switches the read
interrupt by a read and a write of the control register (`read_interrupt_switched`).
-/

namespace DcnnFpga.Uart

open Lib

/-! ## The counts -/

/-- Neither FIFO holds more than its words. -/
structure Rs232.Bounded {F : SyncFifo} (s : Rs232 F) : Prop where
  rx : (F.contents s.inDeserializer.fifo).length ≤ 128
  tx : (F.contents s.outSerializer.fifo).length ≤ 128

/-- What waits in the transmitter before clock `n`. -/
def unsent {F : SyncFifo} (s : Rs232 F) (ins : Nat → Bus × Bool) (n : Nat) : List (BitVec 8) :=
  F.contents ((core F).after s ins n).outSerializer.fifo

section Counts

variable {F : SyncFifo} {s : Rs232 F} {ins : Nat → Bus × Bool}

theorem Rs232.Fresh.bounded (h : s.Fresh) : s.Bounded where
  rx := by rw [h.rxFifo]; exact Nat.zero_le _
  tx := by rw [h.txFifo]; exact Nat.zero_le _

/-- **Step lemma**, with a reset or without. -/
theorem Rs232.Bounded.clock (h : s.Bounded) (i : Bus) (uartRxd : Bool) :
    (s.clock i uartRxd).Bounded := by
  cases hr : i.reset with
  | true => exact (s.fresh_reset hr uartRxd).bounded
  | false =>
    constructor
    · rw [Rs232.clock, InDeserializer.clock, hr]
      exact F.length_clock_le h.rx _ _ _
    · rw [Rs232.clock, OutSerializer.clock, hr, (OutSerializer.departure_eq _).2]
      exact F.length_clock_le h.tx _ _ _

theorem bounded_after (h : s.Bounded) (ins : Nat → Bus × Bool) (n : Nat) :
    ((core F).after s ins n).Bounded := by
  induction n with
  | zero => exact h
  | succ n ih => exact ih.clock _ _

theorem bounded_reset (s : Rs232 F) {i : Bus × Bool} (hi : i.1.reset = true) :
    ((core F).next s i).Bounded :=
  Rs232.Fresh.bounded (s.fresh_reset hi _)

theorem readAvailable_next (h : s.Bounded) {n : Nat} (hr : (ins n).1.reset = false) :
    ((core F).after s ins (n + 1)).inDeserializer.fifoReadAvailable.toNat =
      (waiting s ins n).length := by
  rw [Clocked.after]
  show (((core F).after s ins n).clock (ins n).1 (ins n).2).inDeserializer.fifoReadAvailable.toNat = _
  rw [Rs232.clock, InDeserializer.clock, hr]
  exact F.toNat_count (bounded_after h ins n).rx

theorem writeSpace_next (h : s.Bounded) {n : Nat} (hr : (ins n).1.reset = false) :
    ((core F).after s ins (n + 1)).outSerializer.fifoWriteSpace.toNat =
      128 - (unsent s ins n).length := by
  have hle := (bounded_after h ins n).tx
  have hcount := F.toNat_count hle
  rw [Clocked.after]
  show (((core F).after s ins n).clock (ins n).1 (ins n).2).outSerializer.fifoWriteSpace.toNat = _
  rw [Rs232.clock, OutSerializer.clock, hr]
  refine (BitVec.toNat_sub_of_le ?_).trans ?_
  · rw [BitVec.le_def, hcount]
    exact hle
  · rw [hcount]
    rfl

end Counts

/-- `alt_up_rs232_get_used_space_in_read_FIFO`, of the upper half of the data register. -/
def getUsedSpaceInReadFIFO (ravail : BitVec 16) : BitVec 32 :=
  (ravail.setWidth 32 &&& 0x0000FFFF) >>> 0

/-- `alt_up_rs232_get_available_space_in_write_FIFO`, of the control register. -/
def getAvailableSpaceInWriteFIFO (ctrlReg : BitVec 32) : BitVec 32 := (ctrlReg &&& 0xFFFF0000) >>> 16

/-- The driver's masks are those of the upper half. -/
theorem getUsedSpaceInReadFIFO_eq (ravail : BitVec 16) :
    (getUsedSpaceInReadFIFO ravail).toNat = ravail.toNat := by
  have hlt := ravail.isLt
  rw [getUsedSpaceInReadFIFO, BitVec.ushiftRight_zero, BitVec.toNat_and, BitVec.toNat_setWidth,
    show (0x0000FFFF : BitVec 32).toNat = 2 ^ 16 - 1 from rfl, Nat.and_two_pow_sub_one_eq_mod]
  omega

theorem getAvailableSpaceInWriteFIFO_eq (ctrlReg : BitVec 32) :
    (getAvailableSpaceInWriteFIFO ctrlReg).toNat = (ctrlReg.extractLsb' 16 16).toNat := by
  have hmask : ∀ k < 16, (0xFFFF0000 : BitVec 32).getLsbD (16 + k) = true := by decide
  have hbits : getAvailableSpaceInWriteFIFO ctrlReg = (ctrlReg.extractLsb' 16 16).setWidth 32 := by
    apply BitVec.eq_of_getLsbD_eq
    intro k hk
    rw [getAvailableSpaceInWriteFIFO, BitVec.getLsbD_ushiftRight, BitVec.getLsbD_and,
      BitVec.getLsbD_setWidth, BitVec.getLsbD_extractLsb', decide_eq_true hk, Bool.true_and]
    by_cases hhalf : k < 16
    · rw [hmask k hhalf, Bool.and_true, decide_eq_true hhalf, Bool.true_and]
    · rw [BitVec.getLsbD_of_ge ctrlReg (16 + k) (by omega), Bool.and_false, Bool.false_and]
  rw [hbits, BitVec.toNat_setWidth_of_le (by decide)]

section Registers

variable {F : SyncFifo} (s : Rs232 F)

/-- A count below eight bits of zeros. -/
theorem toNat_count_append (c : BitVec 8) : ((0 : BitVec 8) ++ c).toNat = c.toNat := by
  rw [BitVec.toNat_append]
  exact (congrArg (· ||| _) (Nat.zero_shiftLeft 8)).trans (Nat.zero_or _)

theorem getUsedSpace_dataReg :
    (getUsedSpaceInReadFIFO (s.dataReg.extractLsb' 16 16)).toNat =
      s.inDeserializer.fifoReadAvailable.toNat := by
  rw [getUsedSpaceInReadFIFO_eq, Rs232.dataReg]
  iterate 5 rw [BitVec.extractLsb'_append_eq_of_le (by decide)]
  exact (congrArg _ BitVec.extractLsb'_eq_self).trans (toNat_count_append _)

theorem getAvailableSpace_controlReg :
    (getAvailableSpaceInWriteFIFO s.controlReg).toNat = s.outSerializer.fifoWriteSpace.toNat := by
  rw [getAvailableSpaceInWriteFIFO_eq, Rs232.controlReg]
  iterate 6 rw [BitVec.extractLsb'_append_eq_of_le (by decide)]
  exact (congrArg _ BitVec.extractLsb'_eq_self).trans (toNat_count_append _)

end Registers

section Runs

variable {F : SyncFifo} {ins : Nat → Bus × Bool}

/-- What a read without a reset brings. -/
theorem readdata_next (s : Rs232 F) {n : Nat} (hr : (ins n).1.reset = false)
    (hselect : (ins n).1.chipselect = true) :
    ((core F).after s ins (n + 1)).readdata =
      if (ins n).1.address then ((core F).after s ins n).controlReg
      else ((core F).after s ins n).dataReg := by
  rw [Clocked.after]
  show (((core F).after s ins n).clock (ins n).1 (ins n).2).readdata = _
  rw [Rs232.clock, hr, hselect]
  cases (ins n).1.address <;> rfl

/-- **The counts are exact**, a full FIFO included: in every run after a reset clock from
any registers, what the driver makes of a read is what waited, or what was free, a clock
before it. The read takes no byte unless it is of the lowest one. -/
theorem space_reported (F : SyncFifo) (s : Rs232 F) {i : Bus × Bool} (hi : i.1.reset = true)
    {n : Nat} (hr : (ins n).1.reset = false ∧ (ins (n + 1)).1.reset = false)
    (hselect : (ins (n + 1)).1.chipselect = true) :
    ((ins (n + 1)).1.address = false →
      (getUsedSpaceInReadFIFO (((core F).after ((core F).next s i) ins (n + 2)).readdata.extractLsb'
        16 16)).toNat = (waiting ((core F).next s i) ins n).length) ∧
      ((ins (n + 1)).1.address = true →
        (getAvailableSpaceInWriteFIFO
          ((core F).after ((core F).next s i) ins (n + 2)).readdata).toNat =
            128 - (unsent ((core F).next s i) ins n).length) ∧
      ((ins (n + 1)).1.byteenable.getLsbD 0 = false →
        ((core F).after ((core F).next s i) ins (n + 1)).takenBy (ins (n + 1)).1 = []) := by
  have hbounded := bounded_reset s hi
  refine ⟨fun haddr => ?_, fun haddr => ?_, fun hlow => ?_⟩
  · rw [readdata_next _ hr.2 hselect, haddr, if_neg Bool.false_ne_true, getUsedSpace_dataReg,
      readAvailable_next hbounded hr.1]
  · rw [readdata_next _ hr.2 hselect, haddr, if_pos rfl, getAvailableSpace_controlReg,
      writeSpace_next hbounded hr.1]
  · rw [Rs232.takenBy, Fifo.popped, Bus.readFifoReadEn, hlow, Bool.and_false]
    rfl

/-- The read interrupt is switched on, and then only the upper half of the data register is
read. -/
def unreadBus : Nat → Bus
  | 0 => ⟨false, true, true, 0xF, false, true, 1⟩
  | _ + 1 => ⟨false, false, true, 0xC, true, false, 0⟩

/-- Meanwhile 96 bytes come in back to back. -/
def unreadRun (k : Nat) : Bus × Bool :=
  (unreadBus k, wave 652 (burst (List.replicate 96 0x41)) k)

theorem unreadRun_reset (k : Nat) : (unreadRun k).1.reset = false := by
  cases k <;> rfl

/-- All of them wait. -/
theorem unreadRun_waiting {F : SyncFifo} {s : Rs232 F} (hs : s.Fresh) :
    waiting s unreadRun 632443 = List.replicate 96 0x41 := by
  have hpaced : Paced 652 0 (burst (List.replicate 96 0x41)) := by
    rw [paced_burst_iff (by decide) (Nat.le_refl 652) fun he => by simp at he,
      List.length_replicate]
    decide
  have hlength : waveLength 652 (burst (List.replicate 96 0x41)) = 625920 := by decide
  have harrived : arrivals s unreadRun 632443 = List.replicate 96 0x41 := by
    rw [arrivals_eq, ← burst_bytes (List.replicate 96 0x41)]
    refine hpaced.understands hs.rx (by decide) 0 _ unreadRun_reset (fun n => ?_) _ ?_
    · rw [if_neg (Nat.not_lt_zero n)]
      rfl
    · rw [hlength]
  have hquiet : Quiet unreadRun 0 632443 := by
    intro k _ _
    cases k <;> simp [unreadRun, unreadBus, Bus.readFifoReadEn]
  have hroom : HasRoom s unreadRun 632443 := by
    refine hasRoom_of_few hs unreadRun_reset ?_
    rw [harrived, List.length_replicate]
    decide
  have hkept := taken_append hs unreadRun_reset hroom
  rw [taken_quiet (Nat.zero_le _) hquiet, harrived] at hkept
  exact hkept

/-- 96 bytes are reported, and none is taken. -/
theorem space_reported_unread :
    let s := (core _).next scrambled (resetBus, true)
    (getUsedSpaceInReadFIFO (((core _).after s unreadRun 632445).readdata.extractLsb'
        16 16)).toNat = 96 ∧
      ((core _).after s unreadRun 632444).takenBy (unreadRun 632444).1 = [] := by
  intro s
  have hr : (unreadRun 632443).1.reset = false ∧ (unreadRun (632443 + 1)).1.reset = false :=
    ⟨unreadRun_reset _, unreadRun_reset _⟩
  have hs : ((core _).next scrambled (resetBus, true)).Fresh := scrambled.fresh_reset rfl _
  obtain ⟨hused, -, hnone⟩ := space_reported _ scrambled (i := (resetBus, true)) rfl hr rfl
  refine ⟨(hused rfl).trans ?_, hnone (show (0xC : BitVec 4).getLsbD 0 = false by decide)⟩
  rw [unreadRun_waiting hs, List.length_replicate]

/-! ## The interrupt -/

/-- The test of two bits and one is a bound. -/
theorem level_eq : ∀ c : BitVec 8, c.toNat ≤ 128 → Rs232.level c = decide (96 ≤ c.toNat) := by
  decide +kernel

section Clocks

variable (s : Rs232 F) {i : Bus} (uartRxd : Bool)

theorem readInterrupt_clock (hr : i.reset = false) :
    (s.clock i uartRxd).readInterrupt =
      (s.readInterruptEn && Rs232.level s.inDeserializer.fifoReadAvailable) := by
  rw [Rs232.clock, hr]
  cases s.readInterruptEn <;> rfl

theorem writeInterrupt_clock (hr : i.reset = false) :
    (s.clock i uartRxd).writeInterrupt =
      (s.writeInterruptEn && Rs232.level s.outSerializer.fifoWriteSpace) := by
  rw [Rs232.clock, hr]
  cases s.writeInterruptEn <;> rfl

theorem irq_clock (hr : i.reset = false) :
    (s.clock i uartRxd).irq = (s.writeInterrupt || s.readInterrupt) := by
  rw [Rs232.clock, hr]
  rfl

end Clocks

/-- **The interrupt**: three clocks behind the FIFOs, and exactly when one that is enabled
has 96 bytes, or room for 96. -/
theorem irq_iff (F : SyncFifo) (s : Rs232 F) {i : Bus × Bool} (hi : i.1.reset = true) {n : Nat}
    (hr : ∀ k, n ≤ k → k < n + 3 → (ins k).1.reset = false) :
    ((core F).after ((core F).next s i) ins (n + 3)).irq = true ↔
      (((core F).after ((core F).next s i) ins (n + 1)).readInterruptEn = true ∧
          96 ≤ (waiting ((core F).next s i) ins n).length) ∨
        (((core F).after ((core F).next s i) ins (n + 1)).writeInterruptEn = true ∧
          (unsent ((core F).next s i) ins n).length ≤ 32) := by
  have hbounded := bounded_reset s hi
  have hread := readAvailable_next hbounded (hr n (Nat.le_refl n) (by omega))
  have hwrite := writeSpace_next hbounded (hr n (Nat.le_refl n) (by omega))
  have hrx : (waiting ((core F).next s i) ins n).length ≤ 128 := (bounded_after hbounded ins n).rx
  have htx : (unsent ((core F).next s i) ins n).length ≤ 128 := (bounded_after hbounded ins n).tx
  generalize ht : (core F).after ((core F).next s i) ins (n + 1) = t at hread hwrite ⊢
  have hirq : ((core F).after ((core F).next s i) ins (n + 3)).irq =
      ((t.writeInterruptEn && Rs232.level t.outSerializer.fifoWriteSpace) ||
        (t.readInterruptEn && Rs232.level t.inDeserializer.fifoReadAvailable)) := by
    rw [Clocked.after, Clocked.after, ht,
      ← writeInterrupt_clock t (ins (n + 1)).2 (hr (n + 1) (by omega) (by omega)),
      ← readInterrupt_clock t (ins (n + 1)).2 (hr (n + 1) (by omega) (by omega))]
    exact irq_clock _ _ (hr (n + 2) (by omega) (by omega))
  rw [hirq, level_eq _ (by omega), level_eq _ (by omega), hread, hwrite, Bool.or_eq_true,
    Bool.and_eq_true, Bool.and_eq_true, decide_eq_true_iff, decide_eq_true_iff, or_comm]
  have hfree : 96 ≤ 128 - (unsent ((core F).next s i) ins n).length ↔
      (unsent ((core F).next s i) ins n).length ≤ 32 := by omega
  rw [hfree]

/-- The read interrupt stays as the control register was written. -/
theorem unreadRun_readInterruptEn (s : Rs232 F) (n : Nat) :
    ((core F).after s unreadRun (n + 1)).readInterruptEn = true := by
  induction n with
  | zero => rfl
  | succ n ih =>
    rw [Clocked.after]
    exact ih

/-- With 96 bytes waiting the interrupt is raised. -/
theorem irq_iff_unread :
    let s := (core _).next scrambled (resetBus, true)
    ((core _).after s unreadRun 632446).irq = true := by
  intro s
  have hs : s.Fresh := scrambled.fresh_reset rfl _
  refine (irq_iff _ scrambled (n := 632443) rfl fun k _ _ => unreadRun_reset k).mpr (.inl ⟨?_, ?_⟩)
  · exact unreadRun_readInterruptEn _ 632443
  · show 96 ≤ (waiting s unreadRun 632443).length
    rw [unreadRun_waiting hs, List.length_replicate]

/-! ## Switching the read interrupt -/

/-- What `alt_up_rs232_enable_read_interrupt` writes back. -/
def enableReadInterrupt (ctrlReg : BitVec 32) : BitVec 32 := ctrlReg ||| 0x00000001

/-- What `alt_up_rs232_disable_read_interrupt` writes back. -/
def disableReadInterrupt (ctrlReg : BitVec 32) : BitVec 32 := ctrlReg &&& ~~~0x00000001

/-- The low bits are those of the control register. -/
theorem switched_bits (s : Rs232 F) (on : Bool) :
    (if on then enableReadInterrupt s.controlReg else disableReadInterrupt s.controlReg).getLsbD 0
        = on ∧
      (if on then enableReadInterrupt s.controlReg else disableReadInterrupt s.controlReg).getLsbD 1
        = s.writeInterruptEn := by
  have hbit : s.controlReg.getLsbD 1 = s.writeInterruptEn := by
    rw [Rs232.controlReg]
    simp only [BitVec.getLsbD_append]
    cases s.writeInterruptEn <;> rfl
  cases on with
  | true =>
    rw [if_pos rfl, enableReadInterrupt, BitVec.getLsbD_or, BitVec.getLsbD_or, hbit]
    exact ⟨Bool.or_true _, Bool.or_false _⟩
  | false =>
    rw [if_neg Bool.false_ne_true, disableReadInterrupt, BitVec.getLsbD_and, BitVec.getLsbD_and,
      hbit]
    exact ⟨Bool.and_false _, Bool.and_true _⟩

/-- **Switching the read interrupt**: a read of the control register and the driver's write,
with any cycles in between. The read interrupt is switched, and the write interrupt is as
it was at the read. -/
theorem read_interrupt_switched (s : Rs232 F) (on : Bool) {n m : Nat} (hnm : n < m)
    (hr : ∀ k, n ≤ k → k ≤ m → (ins k).1.reset = false)
    (hread : (ins n).1.chipselect = true ∧ (ins n).1.address = true)
    (hwrite : (ins m).1.writesControl = true ∧ (ins m).1.writedata =
      if on then enableReadInterrupt ((core F).after s ins (n + 1)).readdata
      else disableReadInterrupt ((core F).after s ins (n + 1)).readdata) :
    ((core F).after s ins (m + 1)).readInterruptEn = on ∧
      ((core F).after s ins (m + 1)).writeInterruptEn =
        ((core F).after s ins n).writeInterruptEn := by
  have hreg : ((core F).after s ins (n + 1)).readdata = ((core F).after s ins n).controlReg := by
    rw [readdata_next s (hr n (Nat.le_refl n) (Nat.le_of_lt hnm)) hread.1, hread.2, if_pos rfl]
  obtain ⟨hlow, hhigh⟩ := switched_bits ((core F).after s ins n) on
  rw [hreg] at hwrite
  rw [Clocked.after]
  show (((core F).after s ins m).clock _ _).readInterruptEn = _ ∧
    (((core F).after s ins m).clock _ _).writeInterruptEn = _
  rw [Rs232.clock, hr m (Nat.le_of_lt hnm) (Nat.le_refl m), hwrite.1, hwrite.2]
  exact ⟨hlow, hhigh⟩

end Runs

end DcnnFpga.Uart
