import DcnnFpga.Lib.Queue
import DcnnFpga.Uart.Counters
import Mathlib.Logic.Function.Basic

/-!
# The receiver (`altera_up_rs232_in_deserializer.v`)

A low line starts a frame; from then on the line is sampled in the middle of each of
ten bits of 652 clocks, and 6522 clocks after the start the eight data bits go to the
FIFO. The start bit is not looked at again, and neither is the stop bit.

`Carries line t bytes t'` says of a line what the receiver needs of it, and no more:
every frame low in the clock in which the receiver is ready for it, and its bits at
the eight samples. `carries_received`: those bytes arrive, in order.
-/

namespace DcnnFpga.Uart

open Lib

/-- `altera_up_sync_fifo` of the core: an `scfifo` of 128 bytes. -/
abbrev SyncFifo : Type 1 := Fifo (BitVec 8) 7

/-- Registers of `altera_up_rs232_in_deserializer`, with `TDW = 10` and `DW = 7`. -/
structure InDeserializer (F : SyncFifo) where
  fifoReadAvailable : BitVec 8
  receivingData : Bool
  dataInShiftReg : BitVec 10
  counters : Counters
  fifo : F.State

structure RxInput where
  reset : Bool
  serialDataIn : Bool
  receiveDataEn : Bool

namespace InDeserializer

variable {F : SyncFifo}

def receivedDataValid (s : InDeserializer F) : Bool := !F.empty s.fifo

def receivedData (s : InDeserializer F) : BitVec 8 := F.q s.fifo

/-- `data_in_shift_reg[(DW + 1):1]`. -/
def writeData (s : InDeserializer F) : BitVec 8 := s.dataInShiftReg.extractLsb' 1 8

/-- `{serial_data_in, data_in_shift_reg[(TDW - 1):1]}`. -/
def shiftIn (serialDataIn : Bool) (reg : BitVec 10) : BitVec 10 :=
  BitVec.ofBool serialDataIn ++ reg.extractLsb' 1 9

/-- One clock. -/
def clock (s : InDeserializer F) (i : RxInput) : InDeserializer F where
  fifoReadAvailable :=
    if i.reset then 0 else BitVec.ofBool (F.full s.fifo) ++ F.usedw s.fifo
  receivingData :=
    if i.reset then false
    else if s.counters.allBitsTransmitted then false
    else if i.serialDataIn == false then true
    else s.receivingData
  dataInShiftReg :=
    if i.reset then 0
    else if s.counters.baudClockFallingEdge then shiftIn i.serialDataIn s.dataInShiftReg
    else s.dataInShiftReg
  counters := s.counters.clock i.reset (!s.receivingData)
  fifo :=
    F.clock s.fifo i.reset (s.counters.allBitsTransmitted && !F.full s.fifo) s.writeData
      (i.receiveDataEn && !F.empty s.fifo)

/-- The byte that arrives in this clock; it is stored unless the FIFO is full. -/
def arrival (s : InDeserializer F) : List (BitVec 8) :=
  if s.counters.allBitsTransmitted then [s.writeData] else []

/-- Ready for a start bit. -/
structure Ready (s : InDeserializer F) : Prop where
  receiving : s.receivingData = false
  all : s.counters.allBitsTransmitted = false
  rest : s.counters.Rest

/-- In the clock `j + 1` of a frame. `cell` is the line since the start. -/
structure Receiving (s : InDeserializer F) (j : Nat) (cell : Nat → Bool) : Prop where
  receiving : s.receivingData = true
  counting : s.counters.Counting j
  /-- the samples so far, the last one on top -/
  samples : ∀ k, k < (j + 325) / 652 →
    s.dataInShiftReg.getLsbD (10 - (j + 325) / 652 + k) = cell (327 + 652 * k)

section Clocks

variable {s : InDeserializer F} {i : RxInput}

theorem ready_reset (h : i.reset = true) : (s.clock i).Ready := by
  have hcounters : (s.clock i).counters = ⟨0, false, false, 0, false⟩ := by
    rw [clock, h]
    rfl
  refine ⟨?_, ?_, ?_⟩
  · rw [clock, h]
    rfl
  · rw [hcounters]
  · rw [hcounters]
    exact Counters.rest_zero

/-- A high line starts nothing. -/
theorem Ready.idle (h : s.Ready) (hr : i.reset = false) (hhigh : i.serialDataIn = true) :
    (s.clock i).Ready := by
  obtain ⟨hrest, hall, -⟩ := h.rest.held
  have hcounters : (s.clock i).counters = s.counters.clock false true := by
    rw [clock, hr, h.receiving]
    rfl
  refine ⟨?_, hcounters ▸ hall, hcounters ▸ hrest⟩
  simp [clock, hr, h.all, hhigh, h.receiving]

/-- A low line starts a frame. -/
theorem Ready.start (h : s.Ready) (hr : i.reset = false) (hlow : i.serialDataIn = false)
    (cell : Nat → Bool) : (s.clock i).Receiving 0 cell := by
  obtain ⟨-, -, hcounting⟩ := h.rest.held
  have hcounters : (s.clock i).counters = s.counters.clock false true := by
    rw [clock, hr, h.receiving]
    rfl
  refine ⟨?_, hcounters ▸ hcounting, fun k hk => absurd hk (Nat.not_lt_zero k)⟩
  simp [clock, hr, h.all, hlow]

theorem getLsbD_shiftIn (b : Bool) (reg : BitVec 10) (k : Nat) :
    (shiftIn b reg).getLsbD k =
      if k < 9 then reg.getLsbD (k + 1) else decide (k = 9) && b := by
  rw [shiftIn, BitVec.getLsbD_append, BitVec.getLsbD_extractLsb', Nat.add_comm 1 k]
  by_cases hk : k < 9
  · rw [if_pos hk, if_pos hk, decide_eq_true hk, Bool.true_and]
  · rw [if_neg hk, if_neg hk]
    by_cases h9 : k = 9
    · rw [h9, decide_eq_true rfl, Bool.true_and]
      cases b <;> rfl
    · rw [decide_eq_false h9, BitVec.getLsbD_of_ge _ _ (by omega), Bool.false_and]

/-- **Step lemma**: a clock of a frame samples the line in the middle of a bit. -/
theorem Receiving.step {j : Nat} {cell : Nat → Bool} (h : s.Receiving j cell) (hj : j < 6521)
    (hr : i.reset = false) (hcell : i.serialDataIn = cell (j + 1)) :
    (s.clock i).Receiving (j + 1) cell := by
  have hcounters : (s.clock i).counters = s.counters.clock false false := by
    rw [clock, hr, h.receiving]
    rfl
  have hall : s.counters.allBitsTransmitted = false := by
    rw [h.counting.all, decide_eq_false (by omega)]
  refine ⟨?_, hcounters ▸ h.counting.step (by omega), fun k hk => ?_⟩
  · simp [clock, hr, hall, h.receiving]
  · have hreg : (s.clock i).dataInShiftReg =
        if s.counters.baudClockFallingEdge then shiftIn i.serialDataIn s.dataInShiftReg
        else s.dataInShiftReg := by
      rw [clock, hr]
      rfl
    have hsamples := h.samples
    rw [hreg, h.counting.falling, hcell]
    by_cases hmiddle : j % 652 = 326
    · -- the middle of bit `(j + 325) / 652`
      have hcount : (j + 1 + 325) / 652 = (j + 325) / 652 + 1 := by omega
      have hle : (j + 325) / 652 ≤ 9 := by omega
      rw [hcount] at hk ⊢
      rw [decide_eq_true hmiddle, if_pos rfl, getLsbD_shiftIn]
      by_cases hlast : k = (j + 325) / 652
      · rw [if_neg (by omega), decide_eq_true (by omega), Bool.true_and]
        congr 1
        omega
      · rw [if_pos (by omega), ← hsamples k (by omega)]
        congr 1
        omega
    · have hcount : (j + 1 + 325) / 652 = (j + 325) / 652 := by omega
      rw [hcount] at hk ⊢
      rw [decide_eq_false hmiddle, if_neg Bool.false_ne_true]
      exact hsamples k hk

/-- The line counts up to this clock. -/
theorem Receiving.congr {j : Nat} {cell cell' : Nat → Bool} (h : s.Receiving j cell)
    (hcell : ∀ k, k ≤ j → cell k = cell' k) : s.Receiving j cell' where
  receiving := h.receiving
  counting := h.counting
  samples k hk := (h.samples k hk).trans (hcell _ (by omega))

/-- The last clock of a frame: the byte arrives, and the receiver is ready again. -/
theorem Receiving.done {cell : Nat → Bool} (h : s.Receiving 6521 cell) (hr : i.reset = false) :
    (s.clock i).Ready ∧ s.arrival = [s.writeData] ∧
      ∀ k, k < 8 → s.writeData.getLsbD k = cell (979 + 652 * k) := by
  have hcounters : (s.clock i).counters = s.counters.clock false false := by
    rw [clock, hr, h.receiving]
    rfl
  have hcounting := h.counting.step (Nat.le_refl 6521)
  have hall : s.counters.allBitsTransmitted = true := h.counting.all
  refine ⟨⟨?_, ?_, hcounters ▸ hcounting.rest⟩, if_pos hall, fun k hk => ?_⟩
  · simp [clock, hr, hall]
  · rw [hcounters, hcounting.all]
    rfl
  · have hsample := h.samples (k + 1) (show k + 1 < 10 by omega)
    rw [writeData, BitVec.getLsbD_extractLsb', decide_eq_true hk, Bool.true_and]
    rw [show 10 - (6521 + 325) / 652 + (k + 1) = 1 + k by omega,
      show 327 + 652 * (k + 1) = 979 + 652 * k by omega] at hsample
    exact hsample

/-- A clock of a frame, on any line. -/
theorem Receiving.step_any {j : Nat} {cell : Nat → Bool} (h : s.Receiving j cell) (hj : j < 6521)
    (hr : i.reset = false) : ∃ cell', (s.clock i).Receiving (j + 1) cell' := by
  have hcell : s.Receiving j (Function.update cell (j + 1) i.serialDataIn) :=
    h.congr fun k hk => (Function.update_of_ne (by omega) _ _).symm
  exact ⟨_, hcell.step hj hr (Function.update_self (j + 1) i.serialDataIn cell).symm⟩

theorem Receiving.arrival_eq {j : Nat} {cell : Nat → Bool} (h : s.Receiving j cell)
    (hj : j < 6521) : s.arrival = [] := by
  rw [arrival, h.counting.all, decide_eq_false (by omega), if_neg Bool.false_ne_true]

theorem Ready.arrival_eq (h : s.Ready) : s.arrival = [] := by
  rw [arrival, h.all, if_neg Bool.false_ne_true]

/-- No byte arrives in the next `r` clocks, unless a frame is still to start. -/
def Away (s : InDeserializer F) (r : Nat) : Prop :=
  s.Ready ∨ ∃ j cell, s.Receiving j cell ∧ j + r ≤ 6521

/-- **Step lemma**, short of the end of a frame. -/
theorem Away.step {r : Nat} (h : s.Away (r + 1)) (hle : r ≤ 6521) (hr : i.reset = false) :
    s.arrival = [] ∧ (s.clock i).Away r := by
  rcases h with h | ⟨j, cell, h, hj⟩
  · refine ⟨h.arrival_eq, ?_⟩
    cases hline : i.serialDataIn with
    | true => exact .inl (h.idle hr hline)
    | false => exact .inr ⟨0, fun _ => false, h.start hr hline _, by omega⟩
  · obtain ⟨cell', hnext⟩ := h.step_any (i := i) (by omega) hr
    exact ⟨h.arrival_eq (by omega), .inr ⟨j + 1, cell', hnext, by omega⟩⟩

/-- **Step lemma**, anywhere. -/
theorem Away.step_zero (h : s.Away 0) (hr : i.reset = false) :
    (s.arrival = [] ∧ (s.clock i).Away 0) ∨
      s.arrival = [s.writeData] ∧ (s.clock i).Ready := by
  rcases h with h | ⟨j, cell, h, hj⟩
  · exact .inl (Away.step (.inl h) (Nat.zero_le _) hr)
  · by_cases hlast : j = 6521
    · subst hlast
      obtain ⟨hready, harrival, -⟩ := h.done hr
      exact .inr ⟨harrival, hready⟩
    · exact .inl (Away.step (.inr ⟨j, cell, h, by omega⟩) (Nat.zero_le _) hr)

end Clocks

end InDeserializer

/-! ## Whole frames -/

/-- Bit `k` of a frame: the start bit, the data from the lowest bit on, then high. -/
def frameBit (byte : BitVec 8) (k : Nat) : Bool :=
  if k = 0 then false else if k ≤ 8 then byte.getLsbD (k - 1) else true

/-- The receiver; its events are the bytes that arrive. -/
def receiver (F : SyncFifo) : Clocked (InDeserializer F) RxInput (BitVec 8) where
  next := InDeserializer.clock
  emit s _ := s.arrival

/-- The line is idle from `t` to `t'` but for frames with these bytes: low in the first
clock, the data bits at the samples. -/
inductive Carries (line : Nat → Bool) : Nat → List (BitVec 8) → Nat → Prop
  | nil (t : Nat) : Carries line t [] t
  | idle {t t' : Nat} {bytes : List (BitVec 8)} (hhigh : line t = true)
      (h : Carries line (t + 1) bytes t') : Carries line t bytes t'
  | frame {t t' : Nat} {byte : BitVec 8} {bytes : List (BitVec 8)} (hlow : line t = false)
      (hbits : ∀ k, k < 8 → line (t + (979 + 652 * k)) = byte.getLsbD k)
      (h : Carries line (t + 6523) bytes t') : Carries line t (byte :: bytes) t'

section Frames

variable {F : SyncFifo} {s : InDeserializer F} {ins : Nat → RxInput}

/-- What arrives depends on the line alone, not on what is read out of the FIFO. -/
theorem eventsTo_line {ins' : Nat → RxInput} (hreset : ∀ n, (ins n).reset = (ins' n).reset)
    (hline : ∀ n, (ins n).serialDataIn = (ins' n).serialDataIn) (n : Nat) :
    (receiver F).eventsTo s ins n = (receiver F).eventsTo s ins' n := by
  have hsame : ∀ n, ((receiver F).after s ins n).receivingData =
        ((receiver F).after s ins' n).receivingData ∧
      ((receiver F).after s ins n).dataInShiftReg = ((receiver F).after s ins' n).dataInShiftReg ∧
      ((receiver F).after s ins n).counters = ((receiver F).after s ins' n).counters := by
    intro n
    induction n with
    | zero => exact ⟨rfl, rfl, rfl⟩
    | succ n ih =>
      obtain ⟨hreceiving, hreg, hcounters⟩ := ih
      rw [Clocked.after, Clocked.after]
      show (InDeserializer.clock _ _).receivingData = (InDeserializer.clock _ _).receivingData ∧
        (InDeserializer.clock _ _).dataInShiftReg = (InDeserializer.clock _ _).dataInShiftReg ∧
        (InDeserializer.clock _ _).counters = (InDeserializer.clock _ _).counters
      simp only [InDeserializer.clock, hreceiving, hreg, hcounters, hreset, hline, and_self]
  induction n with
  | zero => rfl
  | succ n ih =>
    obtain ⟨-, hreg, hcounters⟩ := hsame n
    rw [Clocked.eventsTo, Clocked.eventsTo, ih]
    show _ ++ InDeserializer.arrival _ = _ ++ InDeserializer.arrival _
    rw [InDeserializer.arrival, InDeserializer.arrival, InDeserializer.writeData,
      InDeserializer.writeData, hreg, hcounters]

/-- **Run lemma**: the clocks of a frame. -/
theorem receiving_after (hr : ∀ n, (ins n).reset = false) {t : Nat}
    (h : ((receiver F).after s ins t).Ready) (hlow : (ins t).serialDataIn = false) {j : Nat}
    (hj : j ≤ 6521) :
    ((receiver F).after s ins (t + 1 + j)).Receiving j (fun k => (ins (t + k)).serialDataIn) ∧
      (receiver F).eventsTo s ins (t + 1 + j) = (receiver F).eventsTo s ins t := by
  induction j with
  | zero =>
    refine ⟨h.start (hr t) hlow _, ?_⟩
    rw [Nat.add_zero, Clocked.eventsTo]
    exact (congrArg _ h.arrival_eq).trans (List.append_nil _)
  | succ j ih =>
    obtain ⟨hrec, hnone⟩ := ih (by omega)
    refine ⟨hrec.step (by omega) (hr _) ?_, ?_⟩
    · show (ins (t + 1 + j)).serialDataIn = (ins (t + (j + 1))).serialDataIn
      rw [show t + 1 + j = t + (j + 1) by omega]
    · rw [← hnone, ← Nat.add_assoc, Clocked.eventsTo]
      exact (congrArg _ (hrec.arrival_eq (by omega))).trans (List.append_nil _)

/-- A frame, whatever the line does in it: one byte arrives, of the bits sampled. -/
theorem frame_received (hr : ∀ n, (ins n).reset = false) {t : Nat}
    (h : ((receiver F).after s ins t).Ready) (hlow : (ins t).serialDataIn = false) :
    ∃ byte : BitVec 8,
      (∀ k, k < 8 → byte.getLsbD k = (ins (t + (979 + 652 * k))).serialDataIn) ∧
      ((receiver F).after s ins (t + 6523)).Ready ∧
      (receiver F).eventsTo s ins (t + 6523) = (receiver F).eventsTo s ins t ++ [byte] := by
  obtain ⟨hrec, hnone⟩ := receiving_after hr h hlow (Nat.le_refl 6521)
  obtain ⟨hready, harrival, hbits⟩ := hrec.done (hr (t + 1 + 6521))
  refine ⟨_, hbits, ?_⟩
  rw [show t + 6523 = t + 1 + 6521 + 1 by omega, Clocked.eventsTo, Clocked.after, hnone]
  exact ⟨hready, congrArg _ harrival⟩

theorem idle_received (hr : ∀ n, (ins n).reset = false) {t : Nat}
    (h : ((receiver F).after s ins t).Ready) (hhigh : (ins t).serialDataIn = true) :
    ((receiver F).after s ins (t + 1)).Ready ∧
      (receiver F).eventsTo s ins (t + 1) = (receiver F).eventsTo s ins t :=
  ⟨h.idle (hr t) hhigh, (congrArg _ h.arrival_eq).trans (List.append_nil _)⟩

/-- In 6523 clocks one byte arrives at most, whatever the line does. -/
theorem one_arrival (hr : ∀ n, (ins n).reset = false) {n : Nat}
    (h : ((receiver F).after s ins n).Away 0) {d : Nat} (hd : d ≤ 6523) :
    ((receiver F).eventsTo s ins (n + d) = (receiver F).eventsTo s ins n ∧
        ((receiver F).after s ins (n + d)).Away 0) ∨
      (1 ≤ d ∧ ((receiver F).eventsTo s ins (n + d)).length =
          ((receiver F).eventsTo s ins n).length + 1 ∧
        ((receiver F).after s ins (n + d)).Away (6523 - d)) := by
  induction d with
  | zero => exact .inl ⟨rfl, h⟩
  | succ d ih =>
    rw [← Nat.add_assoc, Clocked.eventsTo, Clocked.after]
    rcases ih (by omega) with ⟨hnone, haway⟩ | ⟨hpos, hone, haway⟩
    · rw [hnone]
      rcases haway.step_zero (hr (n + d)) with ⟨harrival, hnext⟩ | ⟨harrival, hready⟩
      · exact .inl ⟨(congrArg _ harrival).trans (List.append_nil _), hnext⟩
      · refine .inr ⟨by omega, ?_, .inl hready⟩
        rw [List.length_append]
        exact congrArg (_ + ·) (congrArg List.length harrival)
    · rw [show 6523 - d = 6523 - (d + 1) + 1 by omega] at haway
      obtain ⟨harrival, hnext⟩ := haway.step (by omega) (hr (n + d))
      refine .inr ⟨by omega, ?_, hnext⟩
      rw [← hone]
      exact congrArg List.length ((congrArg _ harrival).trans (List.append_nil _))

/-- **What the line carries arrives**, in order and nothing else. -/
theorem carries_received (hr : ∀ n, (ins n).reset = false) {line : Nat → Bool}
    (hline : ∀ n, (ins n).serialDataIn = line n) {t t' : Nat} {bytes : List (BitVec 8)}
    (hcarries : Carries line t bytes t') (h : ((receiver F).after s ins t).Ready) :
    ((receiver F).after s ins t').Ready ∧
      (receiver F).eventsTo s ins t' = (receiver F).eventsTo s ins t ++ bytes := by
  induction hcarries with
  | nil t => exact ⟨h, (List.append_nil _).symm⟩
  | idle hhigh _ ih =>
    obtain ⟨hready, hnone⟩ := idle_received hr h ((hline _).trans hhigh)
    obtain ⟨hready', hevents⟩ := ih hready
    exact ⟨hready', hevents.trans (by rw [hnone])⟩
  | @frame t t' byte bytes hlow hbits _ ih =>
    obtain ⟨byte', hbits', hready, hone⟩ := frame_received hr h ((hline _).trans hlow)
    obtain ⟨hready', hevents⟩ := ih hready
    have hbyte : byte' = byte := by
      apply BitVec.eq_of_getLsbD_eq
      intro k hk
      rw [hbits' k hk, hline, hbits k hk]
    refine ⟨hready', ?_⟩
    rw [hevents, hone, hbyte, List.append_assoc]
    rfl

end Frames

end DcnnFpga.Uart
