import DcnnFpga.Uart.Link

/-!
# Acknowledging what is read

`read_event` writes a byte back for every byte it takes, and does not ask for room. It
need not, although the transmitter is as slow as the line it reads from: `acks_kept`, five
bytes at most wait in it.

The proof weighs the core. The transmitter's load is the clocks its bytes still take, and
goes down by one in a clock (`Load.step`); the receiver's credit is the clocks a frame has
taken so far, and goes up by one (`Credit.step`). A byte that arrives turns credit into
something to acknowledge, and an acknowledgement turns that into load, for the 6523 clocks
of a frame each time. So the sum does not grow.
-/

namespace DcnnFpga.Uart

open Lib

/-! ## The load of the transmitter -/

namespace OutSerializer

variable {F : SyncFifo} {s : OutSerializer F} {i : TxInput}

/-- In so many clocks the transmitter can be done with all it has. -/
structure Load (s : OutSerializer F) (v : Nat) : Prop where
  line : ∃ r, s.Remaining r ∧ (F.contents s.fifo = [] ∧ r ≤ v ∨
    ∃ age, F.HeldFor s.fifo age ∧
      6523 * (F.contents s.fifo).length + max r (F.lag - age) ≤ v)

theorem Idle.load (h : s.Idle) (hempty : F.contents s.fifo = []) : s.Load 0 :=
  ⟨0, .idle h, .inl ⟨hempty, Nat.le_refl 0⟩⟩

theorem Load.length_le {v : Nat} (h : s.Load v) : 6523 * (F.contents s.fifo).length ≤ v := by
  obtain ⟨r, -, ⟨hempty, -⟩ | ⟨age, -, hle⟩⟩ := h.line
  · rw [hempty]
    exact Nat.zero_le v
  · exact (Nat.le_add_right _ _).trans hle

/-- **Step lemma**: a clock takes one off, until a late flag is all that is left, and a
byte stored adds a frame. -/
theorem Load.step {v : Nat} (h : s.Load v) (hlag : F.lag ≤ 6522) (hr : i.reset = false) :
    (s.clock i).Load (max (v - 1) F.lag +
      6523 * (F.stored s.fifo i.transmitDataEn i.transmitData).length) := by
  obtain ⟨r, hrem, hload⟩ := h.line
  have hmoved := departure_append (s := s) hr
  have hlen := congrArg List.length hmoved
  rw [List.length_append, List.length_append] at hlen
  rcases hrem.step hr with ⟨hnone, hnext⟩ | ⟨rfl, hne, hone, hnext⟩
  · refine ⟨r - 1, hnext, ?_⟩
    rw [hnone, List.length_nil] at hlen
    rcases hload with ⟨hempty, hle⟩ | ⟨age, hheld, hle⟩
    · rw [hempty, List.length_nil] at hlen
      by_cases hnil : F.contents (s.clock i).fifo = []
      · exact .inl ⟨hnil, by omega⟩
      · exact .inr ⟨0, F.heldFor_zero hnil, by omega⟩
    · have hbusy := hrem.busy hheld hr hnone
      exact .inr ⟨age + 1, held_clock hheld hr hnone, by omega⟩
  · refine ⟨6522, hnext, ?_⟩
    rw [hone, List.length_singleton] at hlen
    rcases hload with ⟨hempty, -⟩ | ⟨age, -, hle⟩
    · exact absurd hempty hne
    · by_cases hnil : F.contents (s.clock i).fifo = []
      · have hpos := List.length_pos_iff.mpr hne
        exact .inl ⟨hnil, by omega⟩
      · exact .inr ⟨0, F.heldFor_zero hnil, by omega⟩

end OutSerializer

/-! ## The credit of the receiver -/

namespace InDeserializer

variable {F : SyncFifo} {s : InDeserializer F} {i : RxInput}

/-- The clocks the frame on the line has taken so far. -/
inductive Credit (s : InDeserializer F) : Nat → Prop
  | ready : s.Ready → Credit s 0
  | receiving (j : Nat) (cell : Nat → Bool) : j ≤ 6521 → s.Receiving j cell → Credit s (j + 1)

theorem Credit.le {c : Nat} (h : s.Credit c) : c ≤ 6522 := by
  cases h with
  | ready _ => exact Nat.zero_le _
  | receiving j _ hj _ => omega

/-- **Step lemma**, on any line: a clock adds one, and an arrival takes a frame off. -/
theorem Credit.step {c : Nat} (h : s.Credit c) (hr : i.reset = false) :
    ∃ c', (s.clock i).Credit c' ∧ c' + 6523 * s.arrival.length ≤ c + 1 := by
  cases h with
  | ready h =>
    rw [h.arrival_eq]
    cases hline : i.serialDataIn with
    | true => exact ⟨0, .ready (h.idle hr hline), Nat.zero_le _⟩
    | false =>
      exact ⟨1, .receiving 0 (fun _ => false) (Nat.zero_le _) (h.start hr hline _), Nat.le_refl 1⟩
  | receiving j cell hj h =>
    by_cases hlast : j = 6521
    · subst hlast
      obtain ⟨hready, hone, -⟩ := h.done hr
      rw [hone]
      exact ⟨0, .ready hready, Nat.le_refl _⟩
    · obtain ⟨cell', hnext⟩ := h.step_any (i := i) (by omega) hr
      rw [h.arrival_eq (by omega)]
      exact ⟨j + 1 + 1, .receiving (j + 1) cell' (by omega) hnext, Nat.le_refl _⟩

end InDeserializer

/-! ## The core -/

/-- What the transmitter has taken to send in `n` clocks. -/
def sent {F : SyncFifo} (s : Rs232 F) (ins : Nat → Bus × Bool) (n : Nat) : List (BitVec 8) :=
  (core F).logTo (fun s _ => s.outSerializer.departure) s ins n

/-- The bytes written on the bus in `n` clocks. -/
def written {F : SyncFifo} (s : Rs232 F) (ins : Nat → Bus × Bool) (n : Nat) : List (BitVec 8) :=
  (core F).logTo (fun _ i => i.1.written) s ins n

section Core

variable {F : SyncFifo} {s : Rs232 F} {ins : Nat → Bus × Bool} {clockOf : Nat → Nat} {n : Nat}

theorem written_length (n : Nat) : (written s ins n).length = writes (fun j => (ins j).1) n := by
  induction n with
  | zero => rfl
  | succ n ih => rw [written, Clocked.logTo_succ, ← written, List.length_append, ih, length_written]

/-- The processor writes a byte behind each byte it takes, as `read_event` does: never
more, and at most one byte later. -/
def Acknowledges (s : Rs232 F) (ins : Nat → Bus × Bool) : Prop :=
  ∀ n, writes (fun j => (ins j).1) n ≤ (taken s ins n).length ∧
    (taken s ins n).length ≤ writes (fun j => (ins j).1) n + 1

/-- Load, credit and what is to be acknowledged, in clocks. -/
def Weighed (s : Rs232 F) (ins : Nat → Bus × Bool) (n : Nat) : Prop :=
  ∃ v c, ((core F).after s ins n).outSerializer.Load v ∧
    ((core F).after s ins n).inDeserializer.Credit c ∧
    v + c + 6523 * ((arrivals s ins n).length + ((core F).after s ins n).register.length) ≤
      6523 * writes (fun j => (ins j).1) n + (F.lag + 6523 * 5)

theorem weighed_start (hs : s.Fresh) : Weighed s ins 0 := by
  refine ⟨0, 0, hs.tx.load hs.txFifo, .ready hs.rx, ?_⟩
  rw [show (core F).after s ins 0 = s from rfl, hs.register_eq,
    show arrivals s ins 0 = [] from rfl, List.length_nil]
  exact Nat.zero_le _

/-- **Step lemma**: as long as no more than three bytes are to be acknowledged. -/
theorem Weighed.step (h : Weighed s ins n) (hr : (ins n).1.reset = false) (hlag : F.lag ≤ 6522)
    (hfew : (arrivals s ins n).length ≤ writes (fun j => (ins j).1) n + 3) :
    Weighed s ins (n + 1) := by
  obtain ⟨v, c, hload, hcredit, hle⟩ := h
  have hload' := hload.step (i := ⟨(ins n).1.reset, ((core F).after s ins n).dataToUart,
    ((core F).after s ins n).writeFifoWriteEn⟩) hlag hr
  obtain ⟨c', hcredit', hc'⟩ := hcredit.step
    (i := ⟨(ins n).1.reset, (ins n).2, (ins n).1.readFifoReadEn⟩) hr
  have hstored := stored_length_le ((core F).after s ins n)
  have hone := ((core F).after s ins n).register_length_le
  have hframe := hcredit.le
  refine ⟨_, c', hload', hcredit', ?_⟩
  rw [register_next hr, length_written, arrivals, Clocked.logTo_succ, ← arrivals,
    List.length_append]
  dsimp only
  omega

/-- Few bytes wait in a transmitter that is weighed. -/
theorem Weighed.unsent_le (h : Weighed s ins n) (hlag : F.lag ≤ 6522)
    (hacks : writes (fun j => (ins j).1) n ≤ (arrivals s ins n).length) :
    (unsent s ins n).length ≤ 5 := by
  obtain ⟨v, c, hload, -, hle⟩ := h
  have hlength : 6523 * (unsent s ins n).length ≤ v := hload.length_le
  omega

/-- **Run lemma**. -/
theorem weighed_run (hs : s.Fresh) (hr : ∀ n, (ins n).1.reset = false) (hlag : F.lag ≤ 6522)
    (hpolls : Polls F.lag ins clockOf fun _ => True) (hfirst : clockOf 0 ≤ 6522)
    (hoften : ∀ k, clockOf (k + 1) ≤ clockOf k + 6523) (hacks : Acknowledges s ins) (n : Nat) :
    Weighed s ins n ∧ (unsent s ins n).length ≤ 5 := by
  have hwaiting : ∀ n, (taken s ins n).length ≤ (arrivals s ins n).length ∧
      (arrivals s ins n).length ≤ (taken s ins n).length + 2 := by
    intro n
    obtain ⟨hroom, hfew⟩ :=
      few_between hs hr hpolls hfirst hoften fun k (_ : clockOf k < n) => trivial
    have hlength := waiting_length hs hr hroom
    omega
  have hweighed : Weighed s ins n := by
    induction n with
    | zero => exact weighed_start hs
    | succ n ih =>
      have hfew := (hwaiting n).2
      have hlate := (hacks n).2
      exact ih.step (hr n) hlag (by omega)
  exact ⟨hweighed, hweighed.unsent_le hlag ((hacks n).1.trans (hwaiting n).1)⟩

/-- The core finds room for the byte in its register. -/
def TxRoom (s : Rs232 F) (i : Bus × Bool) : Prop :=
  i.1.reset = false ∧ (s.writeFifoWriteEn = true → F.full s.outSerializer.fifo = false)

theorem core_hasCore (F : SyncFifo) : HasCore (core F) id Prod.fst where
  tx_next _ i := ⟨i.2, rfl⟩

theorem core_register (F : SyncFifo) :
    Queued Eq (core F) TxRoom (fun _ i => i.1.written) (fun s _ => s.register) (InRegister id) :=
  (core_hasCore F).register listOrder_eq fun _ _ hi => hi.1

theorem core_tx_fifo (F : SyncFifo) :
    Queued Eq (core F) TxRoom (fun s _ => s.register) (fun s _ => s.outSerializer.departure)
      (F.Holds fun s => s.outSerializer.fifo) :=
  (core_hasCore F).tx_fifo listOrder_eq (fun _ _ hi => hi.1) fun _ _ hi => F.stored_eq hi.2 _

/-- **Acknowledgements are kept**: polled in time, and with a byte written behind each byte
taken, the core sends all of them, in bounded time and whatever the line does. At no time
are more than six of them on their way. -/
theorem acks_kept (F : SyncFifo) (hlag : F.lag ≤ 6522) (s : Rs232 F) {i : Bus × Bool}
    (hi : i.1.reset = true) (hr : ∀ n, (ins n).1.reset = false)
    (hpolls : Polls F.lag ins clockOf fun _ => True) (hfirst : clockOf 0 ≤ 6522)
    (hoften : ∀ k, clockOf (k + 1) ≤ clockOf k + 6523)
    (hacks : Acknowledges ((core F).next s i) ins) (n : Nat) :
    (∃ l, l.length ≤ 6 ∧
        sent ((core F).next s i) ins n ++ l = written ((core F).next s i) ins n) ∧
      written ((core F).next s i) ins n <+: sent ((core F).next s i) ins (n + 32616) := by
  have hs : ((core F).next s i).Fresh := s.fresh_reset hi _
  generalize (core F).next s i = s at hs hacks
  have hweighed := weighed_run hs hr hlag hpolls hfirst hoften hacks
  have hunsent : ∀ n, (unsent s ins n).length ≤ 5 := fun n => (hweighed n).2
  have hroom : ∀ k, TxRoom ((core F).after s ins k) (ins k) := by
    refine fun k => ⟨hr k, fun _ => ?_⟩
    rw [F.full_eq]
    refine decide_eq_false fun hfull => ?_
    have hfive := hunsent k
    rw [unsent, hfull] at hfive
    exact absurd hfive (by decide)
  have hregister : InRegister id s [] := hs.register_eq.symm
  have hfifo : F.Holds (fun s : Rs232 F => s.outSerializer.fifo) s [] :=
    ⟨hs.txFifo.symm, Nat.zero_le _⟩
  constructor
  · obtain ⟨l, ⟨a, b, ha, hb, rfl⟩, heq⟩ :=
      ((core_register F).comp (core_tx_fifo F)).after ⟨[], [], hregister, hfifo, rfl⟩
        fun k (_ : k < n) => hroom k
    refine ⟨b ++ a, ?_, heq⟩
    have hone : a.length ≤ 1 := ha ▸ Rs232.register_length_le _
    have hfive : b.length ≤ 5 := hb.1 ▸ hunsent n
    rw [List.length_append]
    omega
  · have hentered := (core_register F).moved hregister hroom
      (fun _ _ hl => hl ▸ Rs232.register_length_le _)
      (fun _ _ hl hne => ⟨0, Nat.one_pos, hl ▸ hne⟩) n
    have hleft := (core_tx_fifo F).moved hfifo hroom (fun n _ hl => by
        rw [hl.1]
        exact hunsent n)
      (fun n l hl hne => by
        obtain ⟨v, -, ⟨r, hrem, -⟩, -, -⟩ := (hweighed n).1
        obtain ⟨d, hd, hgoal⟩ := (core_hasCore F).departs hr hrem (hl.1 ▸ hne)
        exact ⟨d, show d < 6523 by omega, hgoal⟩) (n + 1 * 1)
    rw [show n + 32616 = n + 1 * 1 + 5 * 6523 by omega]
    exact hentered.trans hleft

/-- A frame takes its time. -/
theorem arrivals_le (hs : s.Fresh) (hr : ∀ n, (ins n).1.reset = false) (n : Nat) :
    6523 * (arrivals s ins n).length ≤ n := by
  have hcredit : ∃ c, ((core F).after s ins n).inDeserializer.Credit c ∧
      c + 6523 * (arrivals s ins n).length ≤ n := by
    induction n with
    | zero => exact ⟨0, .ready hs.rx, Nat.le_refl 0⟩
    | succ n ih =>
      obtain ⟨c, hcredit, hle⟩ := ih
      obtain ⟨c', hcredit', hc'⟩ := hcredit.step
        (i := ⟨(ins n).1.reset, (ins n).2, (ins n).1.readFifoReadEn⟩) (hr n)
      refine ⟨c', hcredit', ?_⟩
      rw [arrivals, Clocked.logTo_succ, ← arrivals, List.length_append]
      omega
  obtain ⟨c, -, hle⟩ := hcredit
  omega

end Core

end DcnnFpga.Uart
