import DcnnFpga.Uart.Baud
import DcnnFpga.Uart.Link

/-!
# How exact the sender has to be, for the processor

What `Baud.lean` says of the bytes that arrive, said of the bytes the processor takes.
The FIFO is part of it: an arriving byte is stored only while there is room, and a
core nobody reads keeps 128 bytes of any sender. Polled once in the time of a frame
it keeps them all, so the tolerance of the deserializer is that of the core
(`tolerance_iff`, `burst_iff`).
-/

namespace DcnnFpga.Uart

open Lib

/-- A processor that polls once in the time of a frame, in polls far enough apart for the
flags of the FIFO, takes exactly these bytes of this sender, after any idle time: when
they have arrived, what it has not taken is in the FIFO, and two polls later that is
nothing. -/
def Receives {F : SyncFifo} (s : Rs232 F) (L : Nat) (frames : List Frame) : Prop :=
  ∀ (start : Nat) (ins : Nat → Bus × Bool) (clockOf : Nat → Nat),
    (∀ n, (ins n).1.reset = false) →
    (∀ n, (ins n).2 = if n < start then true else wave L frames (n - start)) →
    Polls F.lag ins clockOf (fun _ => True) → clockOf 0 ≤ 6522 →
    (∀ k, clockOf (k + 1) ≤ clockOf k + 6523) →
    ∀ n, start + waveLength L frames + 6523 ≤ n →
      taken s ins n ++ waiting s ins n = frames.map Frame.byte ∧
        (start + waveLength L frames + 32615 ≤ n → taken s ins n = frames.map Frame.byte)

section Core

variable {F : SyncFifo} {s : Rs232 F} {ins : Nat → Bus × Bool} {clockOf : Nat → Nat}

/-- With nothing arriving any more, a byte is taken in every two poll times. -/
theorem waiting_drained (hr : ∀ n, (ins n).1.reset = false)
    (hpolls : Polls F.lag ins clockOf fun _ => True) (hfirst : clockOf 0 ≤ 6522)
    (hoften : ∀ k, clockOf (k + 1) ≤ clockOf k + 6523) {bytes : List (BitVec 8)} {t : Nat}
    (hall : ∀ n, t ≤ n → taken s ins n ++ waiting s ins n = bytes) {j : Nat}
    (hfew : (waiting s ins t).length ≤ j) {n : Nat} (hn : t + 13046 * j ≤ n) :
    waiting s ins n = [] := by
  have hlen : ∀ m, t ≤ m → (taken s ins m).length + (waiting s ins m).length = bytes.length :=
    fun m hm => by rw [← hall m hm, List.length_append]
  clear hall
  induction j generalizing t with
  | zero =>
    have hgrown := ((core F).logTo_growth (fun s i => s.takenBy i.1) s ins
      (show t ≤ n by omega)).1.length_le
    have hbefore := hlen t (Nat.le_refl t)
    have hafter := hlen n (by omega)
    exact List.eq_nil_of_length_eq_zero (by rw [taken] at hbefore hafter; omega)
  | succ j ih =>
    refine ih (t := t + 13046) ?_ (by omega) fun m hm => hlen m (by omega)
    have hbefore := hlen t (Nat.le_refl t)
    have hafter := hlen (t + 13046) (by omega)
    obtain ⟨hkept, hgrows⟩ := (core F).logTo_growth (fun s i => s.takenBy i.1) s ins
      (show t ≤ t + 13046 by omega)
    have hle := hkept.length_le
    rw [taken] at hbefore hafter
    by_cases hne : waiting s ins t = []
    · rw [hne, List.length_nil] at hbefore
      omega
    · obtain ⟨d, hd, htaken⟩ := taken_within hr hpolls hfirst hoften hne
      have hlt := hgrows ⟨t + d, by omega, by omega, htaken⟩
      omega

/-- The core keeps what arrives, and nothing arrives that the deserializer does not
understand. -/
theorem receives_iff (hs : s.Fresh) (hlag : F.lag ≤ 6522) {L : Nat} {frames : List Frame} :
    Receives s L frames ↔ Understands s.inDeserializer L frames := by
  constructor
  · intro h start ins hr hline n hn
    let bus : Nat → Bus × Bool := fun n =>
      (readBus (fun n => decide (n % 6523 = 0)) n, (ins n).serialDataIn)
    have hpolls : Polls F.lag bus (6523 * ·) fun _ => True := polls_every hlag (readBus_reads _) _
    have hoften : ∀ k, 6523 * (k + 1) ≤ 6523 * k + 6523 := fun k => by omega
    obtain ⟨hroom, -⟩ := few_between (n := n) hs (fun _ => rfl) hpolls (by decide) hoften
      fun _ _ => trivial
    obtain ⟨hkept, -⟩ := h start bus _ (fun _ => rfl) hline hpolls (by decide) hoften n hn
    have harrived : arrivals s bus n = frames.map Frame.byte :=
      (taken_append hs (fun _ => rfl) hroom).symm.trans hkept
    rw [arrivals_eq] at harrived
    have hreset : ∀ m, (ins m).reset = (rxInput bus m).reset := hr
    rw [← harrived]
    exact eventsTo_line hreset (fun _ => rfl) n
  · intro h start ins clockOf hr hline hpolls hfirst hoften
    have hall : ∀ n, start + waveLength L frames + 6523 ≤ n →
        taken s ins n ++ waiting s ins n = frames.map Frame.byte := by
      intro n hn
      obtain ⟨hroom, -⟩ := few_between (n := n) hs hr hpolls hfirst hoften fun _ _ => trivial
      rw [waiting, taken_append hs hr hroom, arrivals_eq]
      exact h start (rxInput ins) hr hline n hn
    intro n hn
    refine ⟨hall n hn, fun hlater => ?_⟩
    obtain ⟨-, hfew⟩ := few_between (n := start + waveLength L frames + 6523) hs hr hpolls hfirst
      hoften fun _ _ => trivial
    have htwo : start + waveLength L frames + 6523 + 13046 * 2 ≤ n := by
      rw [Nat.add_assoc]
      exact hlater
    have hnone := waiting_drained hr hpolls hfirst hoften hall hfew htwo
    rw [← hall n hn, hnone, List.append_nil]

end Core

section Reset

variable (F : SyncFifo) (s : Rs232 F) {i : Bus × Bool} {L : Nat}

/-- **The tolerance**: after a reset clock from any registers, a processor that polls once
in the time of a frame takes every sequence of frames that start 6523 clocks apart or
more, whatever they are, exactly with 616 to 692 clocks a bit. -/
theorem tolerance_iff (hlag : F.lag ≤ 6522) (hi : i.1.reset = true) (hL : 1 ≤ L) :
    (∀ frames : List Frame, (∀ f ∈ frames, 6523 ≤ 10 * L + f.gap) →
      Receives ((core F).next s i) L frames) ↔ 616 ≤ L ∧ L ≤ 692 := by
  have hs : ((core F).next s i).Fresh := s.fresh_reset hi _
  simp only [receives_iff hs hlag]
  exact understands_spaced_iff hs.rx hL

/-- **Bursts**: it takes all bursts of `n` bytes back to back exactly while the slack of
the last byte leaves its last sample before the stop bit. -/
theorem burst_iff (hlag : F.lag ≤ 6522) (hi : i.1.reset = true) (hlow : 616 ≤ L) (hhigh : L ≤ 652)
    (n : Nat) :
    (∀ bytes : List (BitVec 8), bytes.length = n →
      Receives ((core F).next s i) L (burst bytes)) ↔
      (n - 1) * (6523 - 10 * L) + 5543 < 9 * L := by
  have hs : ((core F).next s i).Fresh := s.fresh_reset hi _
  simp only [receives_iff hs hlag]
  exact understands_burst_iff hs.rx hlow hhigh n

end Reset

/-- The nominal 652 clocks a bit, and 700. -/
theorem tolerance_iff_nominal :
    (∀ frames : List Frame, (∀ f ∈ frames, 6523 ≤ 10 * 652 + f.gap) →
      Receives ((core _).next scrambled (resetBus, true)) 652 frames) ∧
    ¬ ∀ frames : List Frame, (∀ f ∈ frames, 6523 ≤ 10 * 700 + f.gap) →
      Receives ((core _).next scrambled (resetBus, true)) 700 frames := by
  constructor
  · exact (tolerance_iff _ scrambled (Nat.zero_le _) rfl (by decide)).mpr (by decide)
  · intro h
    have hslow := (tolerance_iff _ scrambled (Nat.zero_le _) rfl (by decide)).mp h
    revert hslow
    decide

/-- With the 651 clocks a bit of 115200 baud at 75 MHz: 25 bytes, and not 26. -/
theorem burst_iff_nominal :
    (∀ bytes : List (BitVec 8), bytes.length = 25 →
      Receives ((core _).next scrambled (resetBus, true)) 651 (burst bytes)) ∧
    ¬ ∀ bytes : List (BitVec 8), bytes.length = 26 →
      Receives ((core _).next scrambled (resetBus, true)) 651 (burst bytes) := by
  constructor
  · exact (burst_iff _ scrambled (Nat.zero_le _) rfl (by decide) (by decide) 25).mpr (by decide)
  · intro h
    have hlong :=
      (burst_iff _ scrambled (Nat.zero_le _) rfl (by decide) (by decide) 26).mp h
    revert hlong
    decide

end DcnnFpga.Uart
