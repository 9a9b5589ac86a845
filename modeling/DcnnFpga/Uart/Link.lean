import DcnnFpga.Uart.Status
import Mathlib.Data.Nat.Count

/-!
# Two cores whose processors mind the FIFOs

The sender writes only what the core has said there is room for, which it asks by the
driver's `alt_up_rs232_get_available_space_in_write_FIFO`, and as many bytes to an answer
as it says. The receiver polls once in the time of a frame. Both is what a processor can
see to, and together it is enough (`cores_deliver`): every byte written on the one side is
read on the other, in order, once, and in bounded time.

The bound is put together from how long a byte waits at each of the four stages between
the two buses (`Queued.moved`).
-/

namespace DcnnFpga.Uart

open Lib

/-! ## Asking for room -/

/-- The writes of the data register in the first `n` clocks. -/
def writes (bus : Nat → Bus) (n : Nat) : Nat := Nat.count (fun k => (bus k).writesData = true) n

section Room

variable {F : SyncFifo} {s : Rs232 F} {ins : Nat → Bus × Bool}

theorem writes_le (bus : Nat → Bus) (n : Nat) : writes bus n ≤ n := Nat.count_le _

theorem writes_succ (bus : Nat → Bus) (n : Nat) :
    writes bus (n + 1) = writes bus n + if (bus n).writesData = true then 1 else 0 :=
  Nat.count_succ _ n

/-- The register holds what was written in the clock before. -/
theorem register_next {n : Nat} (hr : (ins n).1.reset = false) :
    ((core F).after s ins (n + 1)).register = (ins n).1.written := by
  rw [Rs232.register, Clocked.after]
  show (if (((core F).after s ins n).clock (ins n).1 (ins n).2).writeFifoWriteEn then
    [(((core F).after s ins n).clock (ins n).1 (ins n).2).dataToUart] else []) = _
  rw [Rs232.clock, hr]
  rfl

theorem length_written (bus : Nat → Bus) (n : Nat) :
    writes bus (n + 1) = writes bus n + (bus n).written.length := by
  rw [writes_succ, Bus.written]
  split <;> rfl

/-- What is in the transmitter, and what is taken to send and stored. -/
theorem unsent_next {n : Nat} (hr : (ins n).1.reset = false) :
    ((core F).after s ins n).outSerializer.departure ++ unsent s ins (n + 1) =
      unsent s ins n ++ F.stored ((core F).after s ins n).outSerializer.fifo
        ((core F).after s ins n).writeFifoWriteEn ((core F).after s ins n).dataToUart :=
  OutSerializer.departure_append (i := ⟨(ins n).1.reset, ((core F).after s ins n).dataToUart,
    ((core F).after s ins n).writeFifoWriteEn⟩) hr

theorem stored_length_le (s : Rs232 F) :
    (F.stored s.outSerializer.fifo s.writeFifoWriteEn s.dataToUart).length ≤ s.register.length :=
  (F.stored_sublist _ _ _).length_le

/-- What is in the transmitter grows by what is written. -/
theorem unsent_growth (hr : ∀ n, (ins n).1.reset = false) {n k : Nat} (hle : n ≤ k) :
    (unsent s ins k).length + ((core F).after s ins k).register.length +
        writes (fun j => (ins j).1) n ≤
      (unsent s ins n).length + ((core F).after s ins n).register.length +
        writes (fun j => (ins j).1) k := by
  induction k, hle using Nat.le_induction with
  | base => exact Nat.le_refl _
  | succ k _ ih =>
    have hnext := congrArg List.length (unsent_next (s := s) (hr k))
    have hstored := stored_length_le ((core F).after s ins k)
    rw [List.length_append, List.length_append] at hnext
    rw [register_next (hr k), length_written]
    omega

theorem register_length (hs : s.Fresh) (hr : ∀ n, (ins n).1.reset = false) (n : Nat) :
    ((core F).after s ins n).register.length + writes (fun j => (ins j).1) (n - 1) =
      writes (fun j => (ins j).1) n := by
  cases n with
  | zero => exact congrArg (List.length · + 0) hs.register_eq
  | succ n => rw [register_next (hr n), length_written, Nat.add_sub_cancel, Nat.add_comm]

/-- A write finds room that an answer covers, together with all others since the clocks
whose writes the answer does not yet know of. -/
theorem room_of_answer (hs : s.Fresh) (hr : ∀ n, (ins n).1.reset = false) {r k : Nat}
    (hpos : 1 ≤ r) (hrk : r < k)
    (hasks : (ins r).1.chipselect = true ∧ (ins r).1.address = true)
    (hcovers : writes (fun j => (ins j).1) (k + 1) ≤ writes (fun j => (ins j).1) (r - 2) +
      (getAvailableSpaceInWriteFIFO ((core F).after s ins (r + 1)).readdata).toNat)
    (hwrite : (ins k).1.writesData = true) :
    F.full ((core F).after s ins (k + 1)).outSerializer.fifo = false := by
  obtain ⟨q, rfl⟩ := Nat.exists_eq_add_of_le' hpos
  have hbounded := hs.bounded
  have hle : (unsent s ins q).length ≤ 128 := (bounded_after hbounded ins q).tx
  have hspace : (getAvailableSpaceInWriteFIFO
      ((core F).after s ins (q + 1 + 1)).readdata).toNat = 128 - (unsent s ins q).length := by
    rw [readdata_next s (hr (q + 1)) hasks.1, hasks.2, if_pos rfl, getAvailableSpace_controlReg,
      writeSpace_next hbounded (hr q)]
  have hgrowth := unsent_growth (s := s) hr (show q ≤ k + 1 by omega)
  have hregister := register_length (s := s) hs hr q
  have hone : ((core F).after s ins (k + 1)).register.length = 1 := by
    rw [register_next (hr k), Bus.written, if_pos hwrite]
    rfl
  rw [hspace, show q + 1 - 2 = q - 1 by omega] at hcovers
  rw [F.full_eq]
  refine decide_eq_false fun hfull => ?_
  rw [unsent, hfull, hone] at hgrowth
  omega

end Room

/-! ## How long a byte stays -/

section Stages

variable {σ ι ε : Type*} {F : SyncFifo} {m : Clocked σ ι ε} {tx rx : σ → Rs232 F}
  {txBus rxBus : ι → Bus} {s : σ} {ins : Nat → ι}

/-- In the FIFO of the transmitter. -/
theorem HasCore.departs (h : HasCore m tx txBus) (hr : ∀ k, (txBus (ins k)).reset = false)
    {n r : Nat} (hrem : (tx (m.after s ins n)).outSerializer.Remaining r)
    (hne : F.contents (tx (m.after s ins n)).outSerializer.fifo ≠ []) :
    ∃ d ≤ max 6522 F.lag, (tx (m.after s ins (n + d))).outSerializer.departure ≠ [] := by
  have hstep : ∀ b s i, (txBus i).reset = false → (tx s).outSerializer.Owed b →
      ¬ (tx s).outSerializer.departure ≠ [] →
        ∃ b', b' < b ∧ (tx (m.next s i)).outSerializer.Owed b' := by
    intro b s i hi howed hstay
    obtain ⟨uartRxd, hnext⟩ := h.tx_next s i
    rw [hnext]
    exact howed.step hi (not_not.mp hstay)
  obtain ⟨d, hd, hgoal⟩ := m.reaches_later hstep (hrem.owed hne) hr
  have hle := hrem.le
  exact ⟨d, by omega, hgoal⟩

/-- Between the two FIFOs. -/
theorem Wired.arrives (h : Wired m tx rx txBus rxBus) (hr : ∀ k, Quiescent txBus rxBus (ins k))
    {n : Nat} {l : List (BitVec 8)} (hwire : OnLine tx rx (m.after s ins n) l) (hne : l ≠ []) :
    ∃ d < 6524, (rx (m.after s ins (n + d))).inDeserializer.arrival ≠ [] := by
  have hstep : ∀ b s i, Quiescent txBus rxBus i →
      Due (tx s).outSerializer (rx s).inDeserializer b → ¬ (rx s).inDeserializer.arrival ≠ [] →
        ∃ b', b' < b ∧ Due (tx (m.next s i)).outSerializer (rx (m.next s i)).inDeserializer b' := by
    intro b s i hi hdue hwait
    obtain ⟨uartRxd, hnext⟩ := h.tx_next s i
    rw [hnext, h.rx_next]
    exact hdue.step hi.1 hi.2 rfl (not_not.mp hwait)
  obtain ⟨b, hb, hdue⟩ := hwire.due hne
  obtain ⟨d, hd, hgoal⟩ := m.reaches_later hstep hdue hr
  exact ⟨d, by omega, hgoal⟩

end Stages

section Polled

variable {F : SyncFifo} {s : Rs232 F} {ins : Nat → Bus × Bool} {clockOf : Nat → Nat}
  {asks : Nat → Prop}

/-- The first poll from a clock on. -/
theorem Polls.next (h : Polls F.lag ins clockOf asks) (hfirst : clockOf 0 ≤ 6522)
    (hoften : ∀ k, clockOf (k + 1) ≤ clockOf k + 6523) (n : Nat) :
    ∃ k, n ≤ clockOf k ∧ clockOf k ≤ n + 6522 := by
  rcases Nat.lt_or_ge (clockOf 0) n with hlt | hge
  · obtain ⟨k, hlow, hhigh⟩ := h.between hlt
    have hnext := hoften k
    exact ⟨k + 1, hhigh, by omega⟩
  · exact ⟨0, hge, by omega⟩

/-- In the FIFO of the receiver: a poll that does not see the byte is followed by one that
does. -/
theorem taken_within (hr : ∀ n, (ins n).1.reset = false)
    (hpolls : Polls F.lag ins clockOf fun _ => True) (hfirst : clockOf 0 ≤ 6522)
    (hoften : ∀ k, clockOf (k + 1) ≤ clockOf k + 6523) {n : Nat} (hne : waiting s ins n ≠ []) :
    ∃ d < 13046, ((core F).after s ins (n + d)).takenBy (ins (n + d)).1 ≠ [] := by
  by_contra hnone
  push Not at hnone
  have hkept : ∀ d ≤ 13046, waiting s ins (n + d) ≠ [] := by
    intro d
    induction d with
    | zero => exact fun _ => hne
    | succ d ih =>
      intro hd
      have hstep := F.clock_guarded ((core F).after s ins (n + d)).inDeserializer.fifo
        ((core F).after s ins (n + d)).inDeserializer.counters.allBitsTransmitted
        ((core F).after s ins (n + d)).inDeserializer.writeData (ins (n + d)).1.readFifoReadEn
      rw [← core_fifo_next (hr (n + d)), show F.popped _ _ = [] from hnone d (by omega),
        List.nil_append] at hstep
      rw [← Nat.add_assoc, waiting, hstep]
      exact List.append_ne_nil_of_left_ne_nil (ih (by omega)) _
  obtain ⟨k, hlow, hhigh⟩ := hpolls.next hfirst hoften n
  have hapart := hpolls.apart k
  have hnext := hoften k
  obtain ⟨d, hd⟩ := Nat.exists_eq_add_of_le (show n ≤ clockOf (k + 1) by omega)
  obtain ⟨d', hd'⟩ := Nat.exists_eq_add_of_le (show n ≤ clockOf k + 1 by omega)
  have hshown := shown_quiet (s := s) hr (show clockOf k + 1 + F.lag ≤ clockOf (k + 1) by omega)
    (hpolls.quiet k) (hd' ▸ hkept d' (by omega))
  refine absurd (hnone d (by omega)) ?_
  rw [← hd, Rs232.takenBy, Fifo.popped, hpolls.reads (k + 1) trivial, hshown]
  exact List.cons_ne_nil _ _

end Polled

/-! ## The pair -/

section Pair

variable {σ ι ε : Type*} {F : SyncFifo}

/-- The sender has asked in clock `r`, and what the driver makes of the answer covers the
write in clock `k` and all others that the answer does not know of yet. -/
structure Granted (m : Clocked σ ι ε) (tx : σ → Rs232 F) (txBus : ι → Bus) (s : σ) (ins : Nat → ι)
    (r k : Nat) : Prop where
  pos : 1 ≤ r
  before : r < k
  asks : (txBus (ins r)).chipselect = true ∧ (txBus (ins r)).address = true
  covers : writes (fun j => txBus (ins j)) (k + 1) ≤ writes (fun j => txBus (ins j)) (r - 2) +
    (getAvailableSpaceInWriteFIFO (tx (m.after s ins (r + 1))).readdata).toNat

/-- What comes to the receiver of a pair, on its bus and on the line. -/
def rxSide (m : Clocked σ ι ε) (tx : σ → Rs232 F) (rxBus : ι → Bus) (s : σ) (ins : Nat → ι)
    (n : Nat) : Bus × Bool :=
  (rxBus (ins n), (tx (m.after s ins n)).uartTxd)

/-- The processors of a pair mind the FIFOs: a byte is written when there is room for it,
and the receiver polls in time. -/
structure Minded (m : Clocked σ ι ε) (tx : σ → Rs232 F) (txBus rxBus : ι → Bus) (s : σ)
    (ins : Nat → ι) (clockOf : Nat → Nat) : Prop where
  granted : ∀ k, (txBus (ins k)).writesData = true → ∃ r, Granted m tx txBus s ins r k
  polls : Polls F.lag (rxSide m tx rxBus s ins) clockOf fun _ => True
  first : clockOf 0 ≤ 6522
  often : ∀ k, clockOf (k + 1) ≤ clockOf k + 6523

variable {m : Clocked σ ι ε} {tx rx : σ → Rs232 F} {txBus rxBus : ι → Bus} {s : σ}
  {ins : Nat → ι} {clockOf : Nat → Nat}

/-- Each end of a pair is a core. -/
theorem Wired.rx_core (h : Wired m tx rx txBus rxBus) (n : Nat) :
    rx (m.after s ins n) = (core F).after (rx s) (rxSide m tx rxBus s ins) n := by
  induction n with
  | zero => rfl
  | succ n ih => rw [Clocked.after, h.rx_next, ih]; rfl

theorem HasCore.after (h : HasCore m tx txBus) :
    ∃ line : Nat → Bool, ∀ n,
      tx (m.after s ins n) = (core F).after (tx s) (fun k => (txBus (ins k), line k)) n := by
  choose line hline using fun n => h.tx_next (m.after s ins n) (ins n)
  refine ⟨line, fun n => ?_⟩
  induction n with
  | zero => rfl
  | succ n ih => rw [Clocked.after, hline, ih]; rfl

/-- A run of a wired pair from a reset on. -/
structure Started (m : Clocked σ ι ε) (tx rx : σ → Rs232 F) (txBus rxBus : ι → Bus) (s : σ)
    (ins : Nat → ι) : Prop where
  wired : Wired m tx rx txBus rxBus
  txFresh : (tx s).Fresh
  rxFresh : (rx s).Fresh
  quiet : ∀ k, Quiescent txBus rxBus (ins k)

/-- Room in the transmitter. -/
theorem Started.tx_room (hs : Started m tx rx txBus rxBus s ins)
    (hgranted : ∀ k, (txBus (ins k)).writesData = true → ∃ r, Granted m tx txBus s ins r k)
    (k : Nat) (hwrite : (tx (m.after s ins k)).writeFifoWriteEn = true) :
    F.full (tx (m.after s ins k)).outSerializer.fifo = false := by
  obtain ⟨line, hcore⟩ : ∃ line : Nat → Bool, ∀ n,
      tx (m.after s ins n) = (core F).after (tx s) (fun k => (txBus (ins k), line k)) n :=
    hs.wired.after
  cases k with
  | zero =>
    rw [show m.after s ins 0 = s from rfl, hs.txFresh.write] at hwrite
    cases hwrite
  | succ k =>
    have hwrites : (txBus (ins k)).writesData = true := by
      obtain ⟨uartRxd, hnext⟩ := hs.wired.tx_next (m.after s ins k) (ins k)
      rw [Clocked.after, hnext, Rs232.clock, (hs.quiet k).1] at hwrite
      exact hwrite
    obtain ⟨r, h⟩ := hgranted k hwrites
    have hcovers := h.covers
    rw [hcore] at hcovers ⊢
    exact room_of_answer hs.txFresh (fun k => (hs.quiet k).1) h.pos h.before h.asks hcovers hwrites

namespace Minded

variable (hs : Started m tx rx txBus rxBus s ins) (h : Minded m tx txBus rxBus s ins clockOf)
include hs h

/-- Room in the receiver. -/
theorem few (n : Nat) :
    HasRoom (rx s) (rxSide m tx rxBus s ins) n ∧
      (waiting (rx s) (rxSide m tx rxBus s ins) n).length ≤ 2 :=
  few_between hs.rxFresh (fun n => (hs.quiet n).2) h.polls h.first h.often
    fun k (_ : clockOf k < n) => trivial

theorem roomy (k : Nat) : Roomy tx rx txBus rxBus (m.after s ins k) (ins k) := by
  refine ⟨hs.quiet k, hs.tx_room h.granted k, ?_⟩
  rw [hs.wired.rx_core]
  exact (h.few hs (k + 1)).1 k (Nat.lt_succ_self k)

/-- A clock in the register. -/
theorem registered (n : Nat) :
    m.logTo (fun _ i => (txBus i).written) s ins n <+:
      m.logTo (fun s _ => (tx s).register) s ins (n + 1 * 1) :=
  (hs.wired.register listOrder_eq fun _ _ hi => hi.1.1).moved hs.txFresh.register_eq.symm
    (h.roomy hs)
    (fun _ _ hl => hl ▸ Rs232.register_length_le _)
    (fun _ _ hl hne => ⟨0, Nat.one_pos, hl ▸ hne⟩) n

/-- 128 bytes before it in the transmitter. -/
theorem departed (n : Nat) :
    m.logTo (fun s _ => (tx s).register) s ins n <+:
      m.logTo (fun s _ => (tx s).outSerializer.departure) s ins (n + 128 * (6523 + F.lag)) := by
  refine (hs.wired.tx_fifo listOrder_eq (fun _ _ hi => hi.1.1)
    fun _ _ hi => F.stored_eq hi.2.1 _).moved ⟨hs.txFresh.txFifo.symm, Nat.zero_le _⟩ (h.roomy hs)
    (fun _ _ hl => hl.2) (fun n l hl hne => ?_) n
  obtain ⟨l', hl', -⟩ := (hs.wired.wire listOrder_eq fun _ _ hi => hi.1).after
    (OnWire.resting hs.txFresh.tx hs.rxFresh.rx) fun k (_ : k < n) => h.roomy hs k
  obtain ⟨r, hrem⟩ := hl'.remaining
  obtain ⟨d, hd, hgoal⟩ := hs.wired.departs (fun k => (hs.quiet k).1) hrem (hl.1 ▸ hne)
  exact ⟨d, by omega, hgoal⟩

/-- Two on the line. -/
theorem arrived (n : Nat) :
    m.logTo (fun s _ => (tx s).outSerializer.departure) s ins n <+:
      m.logTo (fun s _ => (rx s).inDeserializer.arrival) s ins (n + 2 * 6524) :=
  (hs.wired.wire listOrder_eq fun _ _ hi => hi.1).moved
    (OnWire.resting hs.txFresh.tx hs.rxFresh.rx) (h.roomy hs) (fun _ _ hl => hl.length_le)
    (fun _ _ hl hne => hs.wired.arrives hs.quiet hl hne) n

/-- And two in the receiver. -/
theorem read (n : Nat) :
    m.logTo (fun s _ => (rx s).inDeserializer.arrival) s ins n <+:
      m.logTo (fun s i => (rx s).takenBy (rxBus i)) s ins (n + 2 * 13046) := by
  have hcore : ∀ n, F.contents (rx (m.after s ins n)).inDeserializer.fifo =
      waiting (rx s) (rxSide m tx rxBus s ins) n := fun n => by rw [waiting, hs.wired.rx_core]
  refine (hs.wired.rx_fifo listOrder_eq (fun _ _ hi => hi.1)
    fun _ _ hi => F.stored_eq hi.2.2 _).moved ⟨hs.rxFresh.rxFifo.symm, Nat.zero_le _⟩ (h.roomy hs)
    (fun n l hl => ?_) (fun n l hl hne => ?_) n
  · rw [hl.1, show F.contents _ = _ from hcore n]
    exact (h.few hs n).2
  · have hwaits : waiting (rx s) (rxSide m tx rxBus s ins) n ≠ [] := by
      rw [← hcore, ← show l = F.contents _ from hl.1]
      exact hne
    obtain ⟨d, hd, htaken⟩ :=
      taken_within (fun n => (hs.quiet n).2) h.polls h.first h.often hwaits
    exact ⟨d, hd, by rw [hs.wired.rx_core]; exact htaken⟩

end Minded

/-- What is read in `n` clocks is what has been written, as far as it has come, and it has
all come in so many clocks more. -/
def Delivers (m : Clocked σ ι ε) (rx : σ → Rs232 F) (txBus rxBus : ι → Bus) (s : σ)
    (ins : Nat → ι) (n : Nat) : Prop :=
  m.logTo (fun s i => (rx s).takenBy (rxBus i)) s ins n <+:
      m.logTo (fun _ i => (txBus i).written) s ins n ∧
    m.logTo (fun _ i => (txBus i).written) s ins n <+:
      m.logTo (fun s i => (rx s).takenBy (rxBus i)) s ins (n + (874085 + 128 * F.lag))

theorem Minded.delivers (h : Minded m tx txBus rxBus s ins clockOf)
    (hs : Started m tx rx txBus rxBus s ins) (n : Nat) :
    Delivers m rx txBus rxBus s ins n := by
  constructor
  · obtain ⟨l, -, heq⟩ := hs.wired.lossless.after (inTransit_fresh hs.txFresh hs.rxFresh)
      fun k (_ : k < n) => h.roomy hs k
    rw [List.nil_append] at heq
    exact heq ▸ List.prefix_append _ _
  · have hclocks : n + 1 * 1 + 128 * (6523 + F.lag) + 2 * 6524 + 2 * 13046 =
        n + (874085 + 128 * F.lag) := by omega
    rw [← hclocks]
    exact (((h.registered hs n).trans (h.departed hs _)).trans (h.arrived hs _)).trans (h.read hs _)

end Pair

/-- **Two cores deliver**: after a reset clock from any registers, and in either direction
whose two processors mind the FIFOs, whatever they do about the other one. -/
theorem cores_deliver (F : SyncFifo) (s : Rs232 F × Rs232 F) {i : Bus × Bus}
    (hi : i.1.reset = true ∧ i.2.reset = true) {ins : Nat → Bus × Bus}
    (hr : ∀ k, (ins k).1.reset = false ∧ (ins k).2.reset = false) (clockOf : Nat → Nat) (n : Nat) :
    (Minded (cores F) Prod.fst Prod.fst Prod.snd ((cores F).next s i) ins clockOf →
        Delivers (cores F) Prod.snd Prod.fst Prod.snd ((cores F).next s i) ins n) ∧
      (Minded (cores F) Prod.snd Prod.snd Prod.fst ((cores F).next s i) ins clockOf →
        Delivers (cores F) Prod.fst Prod.snd Prod.fst ((cores F).next s i) ins n) := by
  have hfirst : ((cores F).next s i).1.Fresh := s.1.fresh_reset hi.1 _
  have hsecond : ((cores F).next s i).2.Fresh := s.2.fresh_reset hi.2 _
  exact ⟨fun h => h.delivers ⟨cores_wired F, hfirst, hsecond, hr⟩ n,
    fun h => h.delivers ⟨cores_wired_back F, hsecond, hfirst, fun k => (hr k).symm⟩ n⟩

/-- A question in clock 1, the bytes from clock 2 on, and a poll every 6523 clocks. -/
def askThenWrite (bytes : List (BitVec 32)) (k : Nat) : Bus :=
  if k = 1 then ⟨false, true, true, 1, true, false, 0⟩
  else if 2 ≤ k ∧ k < 2 + bytes.length then
    ⟨false, false, true, 1, false, true, bytes.getD (k - 2) 0⟩
  else readBus (fun n => decide (n % 6523 = 0)) k

section AskThenWrite

variable {bytes : List (BitVec 32)}

theorem askThenWrite_reset (k : Nat) : (askThenWrite bytes k).reset = false := by
  rw [askThenWrite]
  split
  · rfl
  · split <;> rfl

theorem askThenWrite_writes {k : Nat} (h : (askThenWrite bytes k).writesData = true) :
    2 ≤ k ∧ k < 2 + bytes.length := by
  rw [askThenWrite] at h
  split at h
  · cases h
  · split at h
    · assumption
    · cases h

theorem askThenWrite_reads (hlen : bytes.length ≤ 6521) (k : Nat) :
    (askThenWrite bytes k).readFifoReadEn = decide (k % 6523 = 0) := by
  rw [askThenWrite]
  split
  · subst k
    rfl
  · split
    · exact (decide_eq_false (by omega)).symm
    · exact readBus_reads _ k

end AskThenWrite

/-- Three bytes one way and two the other. -/
theorem cores_deliver_both :
    let ins : Nat → Bus × Bus := fun k =>
      (askThenWrite [0x41, 0x42, 0x43] k, askThenWrite [0x01, 0x80] k)
    let s := (cores _).next (scrambled, scrambled) (resetBus, resetBus)
    Delivers (cores _) Prod.snd Prod.fst Prod.snd s ins 5 ∧
      Delivers (cores _) Prod.fst Prod.snd Prod.fst s ins 5 := by
  intro ins s
  have hreset : ∀ k, (ins k).1.reset = false ∧ (ins k).2.reset = false :=
    fun k => ⟨askThenWrite_reset k, askThenWrite_reset k⟩
  obtain ⟨hfirst, hsecond⟩ := cores_deliver _ (scrambled, scrambled) (i := (resetBus, resetBus))
    ⟨rfl, rfl⟩ hreset (6523 * ·) 5
  constructor
  · refine hfirst ⟨fun k hwrite => ?_, polls_every (Nat.zero_le _)
      (askThenWrite_reads (by decide)) _, by decide, fun k => by omega⟩
    obtain ⟨hlow, hhigh⟩ := askThenWrite_writes hwrite
    exact ⟨1, Nat.le_refl 1, hlow, ⟨rfl, rfl⟩,
      (writes_le _ (k + 1)).trans (hhigh.trans (by decide))⟩
  · refine hsecond ⟨fun k hwrite => ?_, polls_every (Nat.zero_le _)
      (askThenWrite_reads (by decide)) _, by decide, fun k => by omega⟩
    obtain ⟨hlow, hhigh⟩ := askThenWrite_writes hwrite
    exact ⟨1, Nat.le_refl 1, hlow, ⟨rfl, rfl⟩,
      (writes_le _ (k + 1)).trans (hhigh.trans (by decide))⟩

end DcnnFpga.Uart
