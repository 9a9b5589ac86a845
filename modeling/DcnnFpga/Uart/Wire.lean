import DcnnFpga.Uart.OutSerializer

/-!
# From one core to another

A transmitter on the line of a receiver with the same clock. The receiver follows the
transmitter two clocks behind, and both are done with a frame after the same 6523
clocks, so that no slack builds up: `OnWire tx rx l` relates the registers of the two,
with `l` the bytes that have left the one FIFO and not arrived at the other. There are
two of them at most, the second one only in the clock in which the first arrives.
-/

namespace DcnnFpga.Uart

open Lib

/-- The line since the start bit of a byte came to be on it. -/
def cell (byte : BitVec 8) (u : Nat) : Bool := frameBit byte ((u - 1) / 652)

/-- In the middle of each data bit. -/
theorem cell_sample (byte : BitVec 8) {k : Nat} (hk : k < 8) :
    cell byte (979 + 652 * k) = byte.getLsbD k := by
  rw [cell, show (979 + 652 * k - 1) / 652 = k + 1 by omega, frameBit,
    if_neg (Nat.succ_ne_zero k), if_pos (by omega), Nat.add_sub_cancel]

theorem cell_high (byte : BitVec 8) {u : Nat} (hu : 5869 ≤ u) : cell byte u = true := by
  rw [cell, frameBit, if_neg (by omega), if_neg (by omega)]

/-- The line a transmitter drives, in terms of the start of the frame on it. -/
theorem OutSerializer.Sending.line_eq {F : SyncFifo} {s : OutSerializer F} {byte : BitVec 8}
    {j : Nat} (h : s.Sending byte j) (hj : 1 ≤ j) : s.serialDataOut = cell byte (j - 1) := by
  rw [h.line, if_neg (by omega), cell]
  congr 2

/-- What is between the two FIFOs, by the state of both ends. -/
inductive OnWire {F : SyncFifo} (tx : OutSerializer F) (rx : InDeserializer F) :
    List (BitVec 8) → Prop
  | resting : tx.Idle → rx.Ready → OnWire tx rx []
  /-- the transmitter is done, the receiver about to be -/
  | ending (b : BitVec 8) (j : Nat) : j = 6520 ∨ j = 6521 → tx.Idle →
      rx.Receiving j (cell b) → OnWire tx rx [b]
  /-- a byte has been taken, its start bit is not on the line yet -/
  | first (b : BitVec 8) (j : Nat) : j = 0 ∨ j = 1 → tx.Sending b j → rx.Ready → OnWire tx rx [b]
  /-- the same, before the last byte has arrived -/
  | firstLate (b b' : BitVec 8) : tx.Sending b' 0 → rx.Receiving 6521 (cell b) →
      OnWire tx rx [b, b']
  | bits (b : BitVec 8) (j : Nat) : j ≤ 6519 → tx.Sending b (j + 2) → rx.Receiving j (cell b) →
      OnWire tx rx [b]

section Clock

variable {F : SyncFifo} {tx : OutSerializer F} {rx : InDeserializer F} {i : TxInput} {j : RxInput}

/-- The transmitter, whether or not it takes the next byte. -/
theorem OutSerializer.Idle.next (h : tx.Idle) (hr : i.reset = false) :
    ((tx.clock i).Idle ∧ tx.departure = []) ∨
      ∃ b, (tx.clock i).Sending b 0 ∧ tx.departure = [b] := by
  cases hempty : F.empty tx.fifo with
  | true => exact .inl (h.stay hr hempty)
  | false => exact .inr ⟨_, h.take hr hempty⟩

/-- The byte that was on the line arrives. -/
theorem InDeserializer.Receiving.arrives {b : BitVec 8} (h : rx.Receiving 6521 (cell b))
    (hj : j.reset = false) : (rx.clock j).Ready ∧ rx.arrival = [b] := by
  obtain ⟨hready, harrival, hbits⟩ := h.done (i := j) hj
  have hbyte : rx.writeData = b := by
    apply BitVec.eq_of_getLsbD_eq
    intro n hn
    rw [hbits n hn, cell_sample b hn]
  exact ⟨hready, by rw [harrival, hbyte]⟩

/-- Neither end moves a byte. -/
theorem quiet_eq (harrival : rx.arrival = []) (hdeparture : tx.departure = [])
    (l : List (BitVec 8)) : rx.arrival ++ l = l ++ tx.departure := by
  rw [harrival, hdeparture, List.append_nil]
  rfl

/-- **Step lemma**: in every clock of the two, what leaves follows what is on the wire,
and what arrives goes before it. -/
theorem OnWire.clock {l : List (BitVec 8)} (h : OnWire tx rx l) (hi : i.reset = false)
    (hj : j.reset = false) (hline : j.serialDataIn = tx.serialDataOut) :
    ∃ l', OnWire (tx.clock i) (rx.clock j) l' ∧ rx.arrival ++ l' = l ++ tx.departure := by
  cases h with
  | resting htx hrx =>
    have hready := hrx.idle hj (hline.trans htx.line)
    rcases htx.next hi with ⟨hidle, hnone⟩ | ⟨b, hsend, hone⟩
    · exact ⟨[], .resting hidle hready, quiet_eq hrx.arrival_eq hnone []⟩
    · exact ⟨[b], .first b 0 (.inl rfl) hsend hready, by rw [hrx.arrival_eq, hone]⟩
  | ending b k hk htx hrx =>
    rcases hk with rfl | rfl
    · have hstop : j.serialDataIn = cell b (6520 + 1) := by
        rw [hline, htx.line, cell_high b (by decide)]
      have hrec := hrx.step (by decide) hj hstop
      have hquiet := hrx.arrival_eq (by decide)
      rcases htx.next hi with ⟨hidle, hnone⟩ | ⟨b', hsend, hone⟩
      · exact ⟨[b], .ending b 6521 (.inr rfl) hidle hrec, quiet_eq hquiet hnone [b]⟩
      · exact ⟨[b, b'], .firstLate b b' hsend hrec, by rw [hquiet, hone]; rfl⟩
    · obtain ⟨hready, harrival⟩ := hrx.arrives hj
      rcases htx.next hi with ⟨hidle, hnone⟩ | ⟨b', hsend, hone⟩
      · exact ⟨[], .resting hidle hready, by rw [harrival, hnone]⟩
      · exact ⟨[b'], .first b' 0 (.inl rfl) hsend hready, by rw [harrival, hone]⟩
  | first b k hk htx hrx =>
    obtain ⟨hsend, hnone⟩ := htx.step (i := i) (by omega) hi
    have hquiet := quiet_eq hrx.arrival_eq hnone [b]
    rcases hk with rfl | rfl
    · have hready := hrx.idle hj (hline.trans htx.line)
      exact ⟨[b], .first b 1 (.inr rfl) hsend hready, hquiet⟩
    · -- the start bit is seen
      have hlow : j.serialDataIn = false := by
        rw [hline, htx.line_eq (by decide)]
        rfl
      exact ⟨[b], .bits b 0 (by decide) hsend (hrx.start hj hlow _), hquiet⟩
  | firstLate b b' htx hrx =>
    obtain ⟨hsend, hnone⟩ := htx.step (i := i) (by decide) hi
    obtain ⟨hready, harrival⟩ := hrx.arrives hj
    exact ⟨[b'], .first b' 1 (.inr rfl) hsend hready, by rw [harrival, hnone]; rfl⟩
  | bits b k hk htx hrx =>
    have hcell : j.serialDataIn = cell b (k + 1) := by
      rw [hline, htx.line_eq (by omega)]
      rfl
    have hrec := hrx.step (by omega) hj hcell
    have hquiet := hrx.arrival_eq (by omega)
    by_cases hlast : k = 6519
    · subst hlast
      obtain ⟨hidle, hnone⟩ := htx.done (i := i) hi
      exact ⟨[b], .ending b 6520 (.inl rfl) hidle hrec, quiet_eq hquiet hnone [b]⟩
    · obtain ⟨hsend, hnone⟩ := htx.step (i := i) (by omega) hi
      exact ⟨[b], .bits b (k + 1) (by omega) hsend hrec, quiet_eq hquiet hnone [b]⟩

theorem OnWire.length_le {l : List (BitVec 8)} (h : OnWire tx rx l) : l.length ≤ 2 := by
  cases h with
  | resting _ _ => exact Nat.zero_le 2
  | ending _ _ _ _ _ => exact Nat.le_succ 1
  | first _ _ _ _ _ => exact Nat.le_succ 1
  | firstLate _ _ _ _ => exact Nat.le_refl 2
  | bits _ _ _ _ _ => exact Nat.le_succ 1

/-- The transmitter between two frames, or in one. -/
theorem OnWire.remaining {l : List (BitVec 8)} (h : OnWire tx rx l) : ∃ r, tx.Remaining r := by
  cases h with
  | resting htx _ => exact ⟨0, .idle htx⟩
  | ending _ _ _ htx _ => exact ⟨0, .idle htx⟩
  | first b j hj htx _ => exact ⟨_, .sending b j (by omega) htx⟩
  | firstLate _ b' htx _ => exact ⟨_, .sending b' 0 (Nat.zero_le _) htx⟩
  | bits b j hj htx _ => exact ⟨_, .sending b (j + 2) (by omega) htx⟩

/-- A byte arrives within so many clocks. -/
inductive Due (tx : OutSerializer F) (rx : InDeserializer F) : Nat → Prop
  | starting (b : BitVec 8) (j : Nat) : j ≤ 1 → tx.Sending b j → rx.Ready → Due tx rx (6523 - j)
  | receiving (j : Nat) (line : Nat → Bool) : j ≤ 6521 → rx.Receiving j line →
      Due tx rx (6521 - j)

theorem OnWire.due {l : List (BitVec 8)} (h : OnWire tx rx l) (hne : l ≠ []) :
    ∃ b, b ≤ 6523 ∧ Due tx rx b := by
  cases h with
  | resting _ _ => exact absurd rfl hne
  | ending b j hj _ hrx => exact ⟨_, by omega, .receiving j _ (by omega) hrx⟩
  | first b j hj htx hrx => exact ⟨_, by omega, .starting b j (by omega) htx hrx⟩
  | firstLate b b' _ hrx => exact ⟨_, by omega, .receiving 6521 _ (Nat.le_refl _) hrx⟩
  | bits b j hj _ hrx => exact ⟨_, by omega, .receiving j _ (by omega) hrx⟩

/-- **Step lemma**: it arrives now, or is due in less. -/
theorem Due.step {b : Nat} (h : Due tx rx b) (hi : i.reset = false) (hj : j.reset = false)
    (hline : j.serialDataIn = tx.serialDataOut) (hwait : rx.arrival = []) :
    ∃ b', b' < b ∧ Due (tx.clock i) (rx.clock j) b' := by
  cases h with
  | starting byte k hk htx hrx =>
    have hsend := (htx.step (i := i) (by omega) hi).1
    rcases Nat.le_one_iff_eq_zero_or_eq_one.mp hk with rfl | rfl
    · have hready := hrx.idle hj (hline.trans htx.line)
      exact ⟨_, by omega, .starting byte 1 (Nat.le_refl 1) hsend hready⟩
    · have hlow : j.serialDataIn = false := by
        rw [hline, htx.line_eq (Nat.le_refl 1)]
        rfl
      exact ⟨_, by omega, .receiving 0 (cell byte) (Nat.zero_le _) (hrx.start hj hlow _)⟩
  | receiving k line hk hrx =>
    by_cases hlast : k = 6521
    · subst hlast
      rw [(hrx.done hj).2.1] at hwait
      cases hwait
    · obtain ⟨line', hrec⟩ := hrx.step_any (by omega) hj
      exact ⟨_, by omega, .receiving (k + 1) line' (by omega) hrec⟩

end Clock

end DcnnFpga.Uart
