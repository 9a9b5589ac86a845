import DcnnFpga.Uart.Wire

/-!
# The serial core (`qsysP01_rs232_0.v`)

A data register and a control register on the bus, and behind them the receiver and
the transmitter. A read of the data register takes the oldest byte received, if there
is one; a write of it goes to the transmitter a clock later.

`Wired m tx rx` says of a design `m` that the line of the core `rx` is driven by the
core `tx`. From the write of the one to the read of the other such a pair is one queue
(`Wired.lossless`), and the two ways it can lose a byte, both of them a full FIFO, are
the only ones (`Wired.lossy`).
-/

namespace DcnnFpga.Uart

open Lib

/-- Registers of `qsysP01_rs232_0`, with `DW = 8`. -/
structure Rs232 (F : SyncFifo) where
  irq : Bool
  readdata : BitVec 32
  readInterruptEn : Bool
  writeInterruptEn : Bool
  readInterrupt : Bool
  writeInterrupt : Bool
  writeFifoWriteEn : Bool
  dataToUart : BitVec 8
  inDeserializer : InDeserializer F
  outSerializer : OutSerializer F

/-- The bus side of the core in one clock. -/
structure Bus where
  reset : Bool
  address : Bool
  chipselect : Bool
  byteenable : BitVec 4
  read : Bool
  write : Bool
  writedata : BitVec 32

namespace Bus

def readFifoReadEn (i : Bus) : Bool :=
  i.chipselect && i.read && !i.address && i.byteenable.getLsbD 0

/-- A write of the data register. -/
def writesData (i : Bus) : Bool :=
  i.chipselect && i.write && !i.address && i.byteenable.getLsbD 0

/-- A write of the control register. -/
def writesControl (i : Bus) : Bool :=
  i.chipselect && i.write && i.address && i.byteenable.getLsbD 0

end Bus

namespace Rs232

variable {F : SyncFifo}

def uartTxd (s : Rs232 F) : Bool := s.outSerializer.serialDataOut

/-- At least 96 of 128 bytes. -/
def level (count : BitVec 8) : Bool :=
  (count.getLsbD 6 && count.getLsbD 5) || count.getLsbD 7

/-- The data register. -/
def dataReg (s : Rs232 F) : BitVec 32 :=
  (0 : BitVec 8) ++ s.inDeserializer.fifoReadAvailable ++
    BitVec.ofBool s.inDeserializer.receivedDataValid ++ (0 : BitVec 5) ++ BitVec.ofBool false ++
    (0 : BitVec 1) ++ s.inDeserializer.receivedData

/-- The control register. -/
def controlReg (s : Rs232 F) : BitVec 32 :=
  (0 : BitVec 8) ++ s.outSerializer.fifoWriteSpace ++ (0 : BitVec 6) ++
    BitVec.ofBool s.writeInterrupt ++ BitVec.ofBool s.readInterrupt ++ (0 : BitVec 6) ++
    BitVec.ofBool s.writeInterruptEn ++ BitVec.ofBool s.readInterruptEn

/-- One clock. -/
def clock (s : Rs232 F) (i : Bus) (uartRxd : Bool) : Rs232 F where
  irq := if i.reset then false else s.writeInterrupt || s.readInterrupt
  readdata :=
    if i.reset then 0
    else if i.chipselect then if i.address == false then s.dataReg else s.controlReg
    else s.readdata
  readInterruptEn :=
    if i.reset then false
    else if i.writesControl then i.writedata.getLsbD 0 else s.readInterruptEn
  writeInterruptEn :=
    if i.reset then false
    else if i.writesControl then i.writedata.getLsbD 1 else s.writeInterruptEn
  readInterrupt :=
    if i.reset then false
    else if s.readInterruptEn == false then false
    else level s.inDeserializer.fifoReadAvailable
  writeInterrupt :=
    if i.reset then false
    else if s.writeInterruptEn == false then false
    else level s.outSerializer.fifoWriteSpace
  writeFifoWriteEn := if i.reset then false else i.writesData
  dataToUart := if i.reset then 0 else i.writedata.extractLsb' 0 8
  inDeserializer := s.inDeserializer.clock ⟨i.reset, uartRxd, i.readFifoReadEn⟩
  outSerializer := s.outSerializer.clock ⟨i.reset, s.dataToUart, s.writeFifoWriteEn⟩

/-- The byte in the write register. -/
def register (s : Rs232 F) : List (BitVec 8) := if s.writeFifoWriteEn then [s.dataToUart] else []

/-- The byte a bus cycle reads out of the core. -/
def takenBy (s : Rs232 F) (i : Bus) : List (BitVec 8) :=
  F.popped s.inDeserializer.fifo i.readFifoReadEn

theorem register_length_le (s : Rs232 F) : s.register.length ≤ 1 := by
  rw [register]
  split
  · exact Nat.le_refl 1
  · exact Nat.zero_le 1

/-- As after a reset. -/
structure Fresh (s : Rs232 F) : Prop where
  write : s.writeFifoWriteEn = false
  tx : s.outSerializer.Idle
  rx : s.inDeserializer.Ready
  txFifo : F.contents s.outSerializer.fifo = []
  rxFifo : F.contents s.inDeserializer.fifo = []

theorem Fresh.register_eq {s : Rs232 F} (h : s.Fresh) : s.register = [] := by
  rw [register, h.write]
  rfl

theorem fresh_reset (s : Rs232 F) {i : Bus} (h : i.reset = true) (uartRxd : Bool) :
    (s.clock i uartRxd).Fresh where
  write := by rw [clock, h]; rfl
  tx := OutSerializer.idle_reset h
  rx := InDeserializer.ready_reset h
  txFifo := by
    rw [clock, OutSerializer.clock, h]
    exact F.clock_clear _ _ _ _
  rxFifo := by
    rw [clock, InDeserializer.clock, h]
    exact F.clock_clear _ _ _ _

end Rs232

/-- The byte a bus cycle writes to the core. -/
def Bus.written (i : Bus) : List (BitVec 8) :=
  if i.writesData then [i.writedata.extractLsb' 0 8] else []

/-! ## Two cores on a line -/

/-- The design `m` has a core `tx`, on a bus and some line. -/
structure HasCore {σ ι ε : Type*} {F : SyncFifo} (m : Clocked σ ι ε) (tx : σ → Rs232 F)
    (txBus : ι → Bus) : Prop where
  tx_next : ∀ s i, ∃ uartRxd, tx (m.next s i) = (tx s).clock (txBus i) uartRxd

/-- In the design `m` the core `tx` drives the line of the core `rx`. -/
structure Wired {σ ι ε : Type*} {F : SyncFifo} (m : Clocked σ ι ε) (tx rx : σ → Rs232 F)
    (txBus rxBus : ι → Bus) : Prop extends HasCore m tx txBus where
  rx_next : ∀ s i, rx (m.next s i) = (rx s).clock (rxBus i) (tx s).uartTxd

/-- A clock without a reset. -/
def Quiescent {ι : Type*} (txBus rxBus : ι → Bus) (i : ι) : Prop :=
  (txBus i).reset = false ∧ (rxBus i).reset = false

/-- A clock in which a byte for the transmitter, and one off the line, find room. -/
def Roomy {σ ι : Type*} {F : SyncFifo} (tx rx : σ → Rs232 F) (txBus rxBus : ι → Bus) (s : σ)
    (i : ι) : Prop :=
  Quiescent txBus rxBus i ∧
    ((tx s).writeFifoWriteEn = true → F.full (tx s).outSerializer.fifo = false) ∧
    ((rx s).inDeserializer.counters.allBitsTransmitted = true →
      F.full (rx s).inDeserializer.fifo = false)

section Queues

variable {σ ι ε : Type*} {F : SyncFifo} {m : Clocked σ ι ε} {tx rx : σ → Rs232 F}
  {txBus rxBus : ι → Bus}

/-- The write register. -/
def InRegister (tx : σ → Rs232 F) (s : σ) (l : List (BitVec 8)) : Prop :=
  l = (tx s).register

/-- What is between the two FIFOs. -/
def OnLine (tx rx : σ → Rs232 F) (s : σ) (l : List (BitVec 8)) : Prop :=
  OnWire (tx s).outSerializer (rx s).inDeserializer l

variable {ρ : List (BitVec 8) → List (BitVec 8) → Prop} {A : σ → ι → Prop}

theorem HasCore.register (h : HasCore m tx txBus) (hρ : ListOrder ρ)
    (hA : ∀ s i, A s i → (txBus i).reset = false) :
    Queued ρ m A (fun _ i => (txBus i).written)
      (fun s _ => (tx s).register) (InRegister tx) where
  order := hρ
  move := by
    rintro s i l rfl hi
    obtain ⟨uartRxd, hnext⟩ := h.tx_next s i
    refine ⟨_, rfl, ?_⟩
    rw [hnext, Rs232.clock, hA s i hi]
    exact hρ.refl _

theorem Wired.wire (h : Wired m tx rx txBus rxBus) (hρ : ListOrder ρ)
    (hA : ∀ s i, A s i → Quiescent txBus rxBus i) :
    Queued ρ m A (fun s _ => (tx s).outSerializer.departure)
      (fun s _ => (rx s).inDeserializer.arrival) (OnLine tx rx) where
  order := hρ
  move := by
    intro s i l hl hi
    obtain ⟨uartRxd, hnext⟩ := h.tx_next s i
    obtain ⟨l', hl', heq⟩ := OnWire.clock
      (i := ⟨(txBus i).reset, (tx s).dataToUart, (tx s).writeFifoWriteEn⟩)
      (j := ⟨(rxBus i).reset, (tx s).uartTxd, (rxBus i).readFifoReadEn⟩) hl (hA s i hi).1
      (hA s i hi).2 rfl
    refine ⟨l', ?_, heq ▸ hρ.refl _⟩
    rw [OnLine, hnext, h.rx_next]
    exact hl'

theorem HasCore.tx_fifo_next (h : HasCore m tx txBus) {s : σ} {i : ι}
    (hi : (txBus i).reset = false) :
    (tx (m.next s i)).outSerializer.fifo =
      F.clock (tx s).outSerializer.fifo false
        ((tx s).writeFifoWriteEn && !F.full (tx s).outSerializer.fifo) (tx s).dataToUart
        (!(tx s).outSerializer.transmittingData &&
          !(tx s).outSerializer.counters.allBitsTransmitted &&
          !F.empty (tx s).outSerializer.fifo) := by
  obtain ⟨uartRxd, hnext⟩ := h.tx_next s i
  rw [hnext, Rs232.clock, OutSerializer.clock, hi, (OutSerializer.departure_eq _).2]

theorem Wired.rx_fifo_next (h : Wired m tx rx txBus rxBus) {s : σ} {i : ι}
    (hi : Quiescent txBus rxBus i) :
    (rx (m.next s i)).inDeserializer.fifo =
      F.clock (rx s).inDeserializer.fifo false
        ((rx s).inDeserializer.counters.allBitsTransmitted && !F.full (rx s).inDeserializer.fifo)
        (rx s).inDeserializer.writeData
        ((rxBus i).readFifoReadEn && !F.empty (rx s).inDeserializer.fifo) := by
  rw [h.rx_next, Rs232.clock, InDeserializer.clock, hi.2]

/-- The transmitter's request to its FIFO. -/
theorem departures_eq (tx : σ → Rs232 F) :
    (fun (s : σ) (_ : ι) => (tx s).outSerializer.departure) = fun s _ =>
      F.popped (tx s).outSerializer.fifo (!(tx s).outSerializer.transmittingData &&
        !(tx s).outSerializer.counters.allBitsTransmitted) := by
  funext s _
  exact (OutSerializer.departure_eq _).1

/-- Everything between the bus of the one core and the bus of the other. -/
def InTransit (tx rx : σ → Rs232 F) : σ → List (BitVec 8) → Prop :=
  Series (Series (Series (InRegister tx) (F.Holds fun s => (tx s).outSerializer.fifo))
    (OnLine tx rx)) (F.Holds fun s => (rx s).inDeserializer.fifo)

theorem HasCore.tx_fifo (h : HasCore m tx txBus) (hρ : ListOrder ρ)
    (hA : ∀ s i, A s i → (txBus i).reset = false)
    (htx : ∀ s i, A s i → ρ
      (F.stored (tx s).outSerializer.fifo (tx s).writeFifoWriteEn (tx s).dataToUart)
      (tx s).register) :
    Queued ρ m A (fun s _ => (tx s).register)
      (fun s _ => (tx s).outSerializer.departure) (F.Holds fun s => (tx s).outSerializer.fifo) := by
  rw [departures_eq]
  exact F.queued hρ (fun s i hi => h.tx_fifo_next (hA s i hi)) htx

theorem Wired.rx_fifo (h : Wired m tx rx txBus rxBus) (hρ : ListOrder ρ)
    (hA : ∀ s i, A s i → Quiescent txBus rxBus i)
    (hrx : ∀ s i, A s i → ρ
      (F.stored (rx s).inDeserializer.fifo (rx s).inDeserializer.counters.allBitsTransmitted
        (rx s).inDeserializer.writeData) (rx s).inDeserializer.arrival) :
    Queued ρ m A (fun s _ => (rx s).inDeserializer.arrival)
      (fun s i => (rx s).takenBy (rxBus i)) (F.Holds fun s => (rx s).inDeserializer.fifo) :=
  F.queued hρ (fun s i hi => h.rx_fifo_next (hA s i hi)) hrx

/-- From bus to bus a pair is a queue, with `ρ` what may get lost at either FIFO. -/
theorem Wired.queued (h : Wired m tx rx txBus rxBus) (hρ : ListOrder ρ)
    (hA : ∀ s i, A s i → Quiescent txBus rxBus i)
    (htx : ∀ s i, A s i → ρ
      (F.stored (tx s).outSerializer.fifo (tx s).writeFifoWriteEn (tx s).dataToUart)
      (tx s).register)
    (hrx : ∀ s i, A s i → ρ
      (F.stored (rx s).inDeserializer.fifo (rx s).inDeserializer.counters.allBitsTransmitted
        (rx s).inDeserializer.writeData) (rx s).inDeserializer.arrival) :
    Queued ρ m A (fun _ i => (txBus i).written) (fun s i => (rx s).takenBy (rxBus i))
      (InTransit tx rx) :=
  have hreset : ∀ s i, A s i → (txBus i).reset = false := fun s i hi => (hA s i hi).1
  (((h.register hρ hreset).comp (h.tx_fifo hρ hreset htx)).comp (h.wire hρ hA)).comp
    (h.rx_fifo hρ hA hrx)

/-- Nothing is added or reordered. -/
theorem Wired.lossy (h : Wired m tx rx txBus rxBus) :
    Queued List.Sublist m (fun _ i => Quiescent txBus rxBus i) (fun _ i => (txBus i).written)
      (fun s i => (rx s).takenBy (rxBus i)) (InTransit tx rx) :=
  h.queued listOrder_sublist (fun _ _ hi => hi) (fun _ _ _ => F.stored_sublist _ _ _)
    fun _ _ _ => F.stored_sublist _ _ _

/-- And nothing is lost, while there is room in both FIFOs. -/
theorem Wired.lossless (h : Wired m tx rx txBus rxBus) :
    Queued Eq m (Roomy tx rx txBus rxBus) (fun _ i => (txBus i).written)
      (fun s i => (rx s).takenBy (rxBus i)) (InTransit tx rx) :=
  h.queued listOrder_eq (fun _ _ hi => hi.1) (fun _ _ hi => F.stored_eq hi.2.1 _)
    fun _ _ hi => F.stored_eq hi.2.2 _

theorem inTransit_fresh {s : σ} (htx : (tx s).Fresh) (hrx : (rx s).Fresh) :
    InTransit tx rx s [] := by
  have hregister : InRegister tx s [] := htx.register_eq.symm
  have hfifo : F.Holds (fun s => (tx s).outSerializer.fifo) s [] :=
    ⟨htx.txFifo.symm, Nat.zero_le _⟩
  have hfifo' : F.Holds (fun s => (rx s).inDeserializer.fifo) s [] :=
    ⟨hrx.rxFifo.symm, Nat.zero_le _⟩
  exact ⟨[], [], ⟨[], [], ⟨[], [], hregister, hfifo, rfl⟩, .resting htx.tx hrx.rx, rfl⟩, hfifo', rfl⟩

/-- A byte in the register, two on the line, and two FIFOs. -/
theorem InTransit.length_le {s : σ} {l : List (BitVec 8)} (h : InTransit tx rx s l) :
    l.length ≤ 259 := by
  obtain ⟨_, d, ⟨_, c, ⟨a, b, ha, hb, rfl⟩, hc, rfl⟩, hd, rfl⟩ := h
  have hregister : a.length ≤ 1 := ha ▸ (tx s).register_length_le
  have hwire : c.length ≤ 2 := hc.length_le
  have htx : b.length ≤ 128 := hb.2
  have hrx : d.length ≤ 128 := hd.2
  simp only [List.length_append]
  omega

end Queues

/-! ## Two cores, line to line -/

/-- Two cores that drive each other's lines. -/
def cores (F : SyncFifo) : Clocked (Rs232 F × Rs232 F) (Bus × Bus) Unit where
  next s i := (s.1.clock i.1 s.2.uartTxd, s.2.clock i.2 s.1.uartTxd)
  emit _ _ := []

theorem cores_wired (F : SyncFifo) : Wired (cores F) Prod.fst Prod.snd Prod.fst Prod.snd where
  tx_next s _ := ⟨s.2.uartTxd, rfl⟩
  rx_next _ _ := rfl

theorem cores_wired_back (F : SyncFifo) : Wired (cores F) Prod.snd Prod.fst Prod.snd Prod.fst where
  tx_next s _ := ⟨s.1.uartTxd, rfl⟩
  rx_next _ _ := rfl

/-- What is read on the one bus in `n` clocks is what is written on the other, in order,
up to bytes lost to a full FIFO, and without such a loss all of it but what is still on
its way. -/
def Exchanges {σ ι ε : Type*} {F : SyncFifo} (m : Clocked σ ι ε) (tx rx : σ → Rs232 F)
    (txBus rxBus : ι → Bus) (s : σ) (ins : Nat → ι) (n : Nat) : Prop :=
  List.Sublist (m.logTo (fun s i => (rx s).takenBy (rxBus i)) s ins n)
      (m.logTo (fun _ i => (txBus i).written) s ins n) ∧
    ((∀ k < n, Roomy tx rx txBus rxBus (m.after s ins k) (ins k)) → ∃ l, l.length ≤ 259 ∧
      m.logTo (fun s i => (rx s).takenBy (rxBus i)) s ins n ++ l =
        m.logTo (fun _ i => (txBus i).written) s ins n)

theorem Wired.exchanges {σ ι ε : Type*} {F : SyncFifo} {m : Clocked σ ι ε} {tx rx : σ → Rs232 F}
    {txBus rxBus : ι → Bus} (h : Wired m tx rx txBus rxBus) {s : σ} (htx : (tx s).Fresh)
    (hrx : (rx s).Fresh) {ins : Nat → ι} (hr : ∀ k, Quiescent txBus rxBus (ins k)) (n : Nat) :
    Exchanges m tx rx txBus rxBus s ins n := by
  have hstart := inTransit_fresh htx hrx
  constructor
  · obtain ⟨l, -, hsub⟩ := h.lossy.after hstart fun k (_ : k < n) => hr k
    rw [List.nil_append] at hsub
    exact (List.sublist_append_left _ _).trans hsub
  · intro hroomy
    obtain ⟨l, hl, heq⟩ := h.lossless.after hstart hroomy
    exact ⟨l, hl.length_le, heq⟩

/-- **Two cores exchange bytes**: after a reset clock from any registers, at any time of
any run of the two buses and in both directions. -/
theorem cores_exchange (F : SyncFifo) (s : Rs232 F × Rs232 F) {i : Bus × Bus}
    (hi : i.1.reset = true ∧ i.2.reset = true) {ins : Nat → Bus × Bus}
    (hr : ∀ k, (ins k).1.reset = false ∧ (ins k).2.reset = false) (n : Nat) :
    Exchanges (cores F) Prod.fst Prod.snd Prod.fst Prod.snd ((cores F).next s i) ins n ∧
      Exchanges (cores F) Prod.snd Prod.fst Prod.snd Prod.fst ((cores F).next s i) ins n := by
  have hfirst : ((cores F).next s i).1.Fresh := s.1.fresh_reset hi.1 _
  have hsecond : ((cores F).next s i).2.Fresh := s.2.fresh_reset hi.2 _
  exact ⟨(cores_wired F).exchanges hfirst hsecond hr n,
    (cores_wired_back F).exchanges hsecond hfirst (fun k => (hr k).symm) n⟩

/-- A core before any reset. -/
def scrambled : Rs232 (Fifo.ofList (BitVec 8) 7) :=
  ⟨true, 5, true, true, true, true, true, 9,
    ⟨7, true, 9, ⟨800, true, true, 9, true⟩, [3]⟩,
    ⟨7, false, true, 9, ⟨800, true, true, 9, true⟩, [4]⟩⟩

def resetBus : Bus := ⟨true, false, false, 0, false, false, 0⟩

/-- Reads of the data register in these clocks. -/
def readBus (clocks : Nat → Bool) (n : Nat) : Bus := ⟨false, false, true, 1, clocks n, false, 0⟩

theorem readBus_reads (clocks : Nat → Bool) (n : Nat) :
    (readBus clocks n).readFifoReadEn = clocks n := by
  simp [readBus, Bus.readFifoReadEn]

/-- A byte written and a poll in every 6600 clocks. -/
def tradeBus (phase k : Nat) : Bus :=
  ⟨false, false, true, 1, (k + phase) % 6600 == 1, (k + phase) % 6600 == 0,
    BitVec.ofNat 32 ((k + phase) / 6600)⟩

/-- Both sides write and poll, one of them half a frame later. -/
theorem cores_exchange_trade :
    let ins : Nat → Bus × Bus := fun k => (tradeBus 0 k, tradeBus 3300 k)
    Exchanges (cores _) Prod.fst Prod.snd Prod.fst Prod.snd
        ((cores _).next (scrambled, scrambled) (resetBus, resetBus)) ins 100000 ∧
      Exchanges (cores _) Prod.snd Prod.fst Prod.snd Prod.fst
        ((cores _).next (scrambled, scrambled) (resetBus, resetBus)) ins 100000 :=
  cores_exchange _ _ ⟨rfl, rfl⟩ (fun _ => ⟨rfl, rfl⟩) 100000

end DcnnFpga.Uart
