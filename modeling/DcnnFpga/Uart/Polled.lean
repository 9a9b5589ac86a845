import DcnnFpga.Uart.Rs232

/-!
# Polling the core

One core, read by a processor that polls its data register and does not wait for an
interrupt. The line may do anything.

What arrives is taken in order or still in the FIFO, as long as the FIFO finds room
for it (`taken_append`). Polled once in the time of a frame, it always does
(`polled_in_time`): no more than two bytes ever wait.
-/

namespace DcnnFpga.Uart

open Lib

/-- A core by itself, with what comes in on the bus and on the line. -/
def core (F : SyncFifo) : Clocked (Rs232 F) (Bus × Bool) Unit where
  next s i := s.clock i.1 i.2
  emit _ _ := []

/-- The receiver's inputs. -/
def rxInput (ins : Nat → Bus × Bool) (n : Nat) : RxInput :=
  ⟨(ins n).1.reset, (ins n).2, (ins n).1.readFifoReadEn⟩

section Core

variable {F : SyncFifo} {s : Rs232 F} {ins : Nat → Bus × Bool}

theorem core_receiver (n : Nat) :
    ((core F).after s ins n).inDeserializer =
      (receiver F).after s.inDeserializer (rxInput ins) n := by
  induction n with
  | zero => rfl
  | succ n ih => rw [Clocked.after, Clocked.after, ← ih]; rfl

/-- The bytes that arrive in `n` clocks. -/
def arrivals (s : Rs232 F) (ins : Nat → Bus × Bool) (n : Nat) : List (BitVec 8) :=
  (core F).logTo (fun s _ => s.inDeserializer.arrival) s ins n

/-- The bytes the bus takes out in `n` clocks. -/
def taken (s : Rs232 F) (ins : Nat → Bus × Bool) (n : Nat) : List (BitVec 8) :=
  (core F).logTo (fun s i => s.takenBy i.1) s ins n

theorem arrivals_eq (n : Nat) :
    arrivals s ins n = (receiver F).eventsTo s.inDeserializer (rxInput ins) n := by
  induction n with
  | zero => rfl
  | succ n ih =>
    rw [arrivals, Clocked.logTo_succ, ← arrivals, ih, core_receiver]
    rfl

theorem core_fifo_next {n : Nat} (hr : (ins n).1.reset = false) :
    ((core F).after s ins (n + 1)).inDeserializer.fifo =
      F.clock ((core F).after s ins n).inDeserializer.fifo false
        (((core F).after s ins n).inDeserializer.counters.allBitsTransmitted &&
          !F.full ((core F).after s ins n).inDeserializer.fifo)
        ((core F).after s ins n).inDeserializer.writeData
        ((ins n).1.readFifoReadEn && !F.empty ((core F).after s ins n).inDeserializer.fifo) := by
  rw [Clocked.after]
  show (((core F).after s ins n).clock (ins n).1 (ins n).2).inDeserializer.fifo = _
  rw [Rs232.clock, InDeserializer.clock, hr]

/-- The FIFO finds room for whatever arrives in the first `n` clocks. -/
def HasRoom (s : Rs232 F) (ins : Nat → Bus × Bool) (n : Nat) : Prop :=
  ∀ k < n, ((core F).after s ins k).inDeserializer.counters.allBitsTransmitted = true →
    F.full ((core F).after s ins k).inDeserializer.fifo = false

/-- What has arrived has been taken or is in the FIFO. -/
theorem taken_append (hs : s.Fresh) (hr : ∀ n, (ins n).1.reset = false) {n : Nat}
    (hroom : HasRoom s ins n) :
    taken s ins n ++ F.contents ((core F).after s ins n).inDeserializer.fifo =
      arrivals s ins n := by
  induction n with
  | zero => exact hs.rxFifo
  | succ n ih =>
    have hprev := ih fun k hk => hroom k (Nat.lt_succ_of_lt hk)
    have hstep := F.clock_guarded ((core F).after s ins n).inDeserializer.fifo
      ((core F).after s ins n).inDeserializer.counters.allBitsTransmitted
      ((core F).after s ins n).inDeserializer.writeData (ins n).1.readFifoReadEn
    rw [← core_fifo_next (hr n), F.stored_eq (hroom n (Nat.lt_succ_self n))] at hstep
    calc taken s ins (n + 1) ++ F.contents ((core F).after s ins (n + 1)).inDeserializer.fifo
        = taken s ins n ++ (F.contents ((core F).after s ins n).inDeserializer.fifo ++
            ((core F).after s ins n).inDeserializer.arrival) := by
          rw [← show _ = F.contents _ ++ InDeserializer.arrival _ from hstep, ← List.append_assoc]
          rfl
      _ = arrivals s ins (n + 1) := by
          rw [← List.append_assoc, hprev]
          rfl

/-! ### Between two polls -/

/-- No read of the data register. -/
def Quiet (ins : Nat → Bus × Bool) (n m : Nat) : Prop :=
  ∀ k, n ≤ k → k < m → (ins k).1.readFifoReadEn = false

theorem taken_quiet {n m : Nat} (hle : n ≤ m) (h : Quiet ins n m) :
    taken s ins m = taken s ins n := by
  induction m, hle using Nat.le_induction with
  | base => rfl
  | succ m hle ih =>
    have hnone : ((core F).after s ins m).takenBy (ins m).1 = [] := by
      rw [Rs232.takenBy, Fifo.popped, h m hle (Nat.lt_succ_self m)]
      rfl
    rw [taken, Clocked.logTo_succ, ← taken, hnone, List.append_nil]
    exact ih fun k hk hkm => h k hk (Nat.lt_succ_of_lt hkm)

/-- What is in the FIFO stays. -/
theorem held_quiet (hr : ∀ n, (ins n).1.reset = false) {n m : Nat} (hle : n ≤ m)
    (h : Quiet ins n m) (hne : F.contents ((core F).after s ins n).inDeserializer.fifo ≠ []) :
    F.HeldFor ((core F).after s ins m).inDeserializer.fifo (m - n) := by
  induction m, hle using Nat.le_induction with
  | base => exact Nat.sub_self n ▸ F.heldFor_zero hne
  | succ m hle ih =>
    have hnext := (ih fun k hk hkm => h k hk (Nat.lt_succ_of_lt hkm)).write
      ((core F).after s ins m).inDeserializer.counters.allBitsTransmitted
      ((core F).after s ins m).inDeserializer.writeData
    rw [core_fifo_next (hr m), h m hle (Nat.lt_succ_self m), Nat.succ_sub hle]
    exact hnext

/-- What has not been taken shows. -/
theorem shown_quiet (hr : ∀ n, (ins n).1.reset = false) {n m : Nat} (hle : n + F.lag ≤ m)
    (h : Quiet ins n m) (hne : F.contents ((core F).after s ins n).inDeserializer.fifo ≠ []) :
    F.empty ((core F).after s ins m).inDeserializer.fifo = false :=
  (held_quiet (s := s) hr (by omega) h hne).shown (by omega)

end Core

/-! ### A processor that polls -/

/-- The reads of the data register are in the clocks `clockOf k`, in all of them for which
the processor still `asks k`. -/
structure Polls (lag : Nat) (ins : Nat → Bus × Bool) (clockOf : Nat → Nat) (asks : Nat → Prop) :
    Prop where
  reads : ∀ k, asks k → (ins (clockOf k)).1.readFifoReadEn = true
  only : ∀ n, (ins n).1.readFifoReadEn = true → ∃ k, clockOf k = n
  /-- a word that is there at one poll shows at the next -/
  apart : ∀ k, clockOf k + lag < clockOf (k + 1)

namespace Polls

variable {lag : Nat} {ins : Nat → Bus × Bool} {clockOf : Nat → Nat} {asks : Nat → Prop}

theorem strictMono (h : Polls lag ins clockOf asks) : StrictMono clockOf :=
  strictMono_nat_of_lt_succ fun k => Nat.lt_of_le_of_lt (Nat.le_add_right _ _) (h.apart k)

theorem clockOf_lt (h : Polls lag ins clockOf asks) {j k : Nat} (hjk : j < k) :
    clockOf j < clockOf k :=
  h.strictMono hjk

theorem quiet_first (h : Polls lag ins clockOf asks) : Quiet ins 0 (clockOf 0) := by
  intro n _ hn
  refine Bool.eq_false_iff.mpr fun hread => ?_
  obtain ⟨k, rfl⟩ := h.only n hread
  rcases Nat.eq_zero_or_pos k with rfl | hk
  · exact Nat.lt_irrefl _ hn
  · exact absurd (h.clockOf_lt hk) (Nat.not_lt_of_lt hn)

theorem quiet (h : Polls lag ins clockOf asks) (k : Nat) :
    Quiet ins (clockOf k + 1) (clockOf (k + 1)) := by
  intro n hkn hn
  refine Bool.eq_false_iff.mpr fun hread => ?_
  obtain ⟨j, rfl⟩ := h.only n hread
  rcases Nat.lt_or_ge k j with hkj | hjk
  · rcases Nat.lt_or_eq_of_le (Nat.succ_le_of_lt hkj) with hlt | heq
    · exact absurd (h.clockOf_lt hlt) (Nat.not_lt_of_lt hn)
    · rw [← heq] at hn
      exact Nat.lt_irrefl _ hn
  · rcases Nat.lt_or_eq_of_le hjk with hlt | rfl
    · exact absurd (h.clockOf_lt hlt) (by omega)
    · omega

/-- Behind the first poll every clock is between two of them. -/
theorem between (h : Polls lag ins clockOf asks) {n : Nat} (hn : clockOf 0 < n) :
    ∃ k, clockOf k < n ∧ n ≤ clockOf (k + 1) := by
  induction n, hn using Nat.le_induction with
  | base => exact ⟨0, Nat.lt_succ_self _, h.clockOf_lt Nat.one_pos⟩
  | succ n _ ih =>
    obtain ⟨k, hlow, hhigh⟩ := ih
    rcases Nat.lt_or_eq_of_le hhigh with hlt | rfl
    · exact ⟨k, by omega, hlt⟩
    · exact ⟨k + 1, Nat.lt_succ_self _, h.clockOf_lt (Nat.lt_succ_self _)⟩

end Polls

/-- What waits in the FIFO before clock `n`. -/
def waiting {F : SyncFifo} (s : Rs232 F) (ins : Nat → Bus × Bool) (n : Nat) : List (BitVec 8) :=
  F.contents ((core F).after s ins n).inDeserializer.fifo

section Often

variable {F : SyncFifo} {s : Rs232 F} {ins : Nat → Bus × Bool} {clockOf : Nat → Nat}

theorem waiting_length (hs : s.Fresh) (hr : ∀ n, (ins n).1.reset = false) {n : Nat}
    (hroom : HasRoom s ins n) :
    (taken s ins n).length + (waiting s ins n).length = (arrivals s ins n).length := by
  have h := congrArg List.length (taken_append hs hr hroom)
  rw [List.length_append] at h
  exact h

/-- Room for 128 bytes that nobody takes. -/
theorem hasRoom_of_few (hs : s.Fresh) (hr : ∀ n, (ins n).1.reset = false) {n : Nat}
    (hfew : (arrivals s ins n).length ≤ 128) : HasRoom s ins n := by
  induction n with
  | zero => exact fun k hk => absurd hk (Nat.not_lt_zero k)
  | succ n ih =>
    have harrivals : arrivals s ins (n + 1) =
        arrivals s ins n ++ ((core F).after s ins n).inDeserializer.arrival := rfl
    rw [harrivals, List.length_append] at hfew
    have hroom := ih (by omega)
    intro k hk hall
    rcases Nat.lt_succ_iff_lt_or_eq.mp hk with hk | rfl
    · exact hroom k hk hall
    · have hwaiting := waiting_length hs hr hroom
      rw [InDeserializer.arrival, if_pos hall, List.length_singleton] at hfew
      rw [F.full_eq]
      exact decide_eq_false fun hfull => by
        rw [waiting, hfull] at hwaiting
        omega

/-- In the time of a frame one byte arrives at most. -/
theorem arrivals_length_le (hs : s.Fresh) (hr : ∀ n, (ins n).1.reset = false) {n m : Nat}
    (hle : n ≤ m) (hm : m ≤ n + 6523) :
    (arrivals s ins n).length ≤ (arrivals s ins m).length ∧
      (arrivals s ins m).length ≤ (arrivals s ins n).length + 1 := by
  have haway : ∀ k, ((receiver F).after s.inDeserializer (rxInput ins) k).Away 0 := by
    intro k
    induction k with
    | zero => exact .inl hs.rx
    | succ k ih =>
      rcases ih.step_zero (i := rxInput ins k) (hr k) with ⟨-, hnext⟩ | ⟨-, hready⟩
      · exact hnext
      · exact .inl hready
  obtain ⟨d, rfl⟩ := Nat.exists_eq_add_of_le hle
  rw [arrivals_eq, arrivals_eq]
  have hreset : ∀ k, (rxInput ins k).reset = false := hr
  rcases one_arrival hreset (haway n) (show d ≤ 6523 by omega) with ⟨hnone, -⟩ | ⟨-, hone, -⟩
  · rw [hnone]
    exact ⟨Nat.le_refl _, Nat.le_succ _⟩
  · rw [hone]
    exact ⟨Nat.le_succ _, Nat.le_refl _⟩

/-- A FIFO that holds two bytes has room. -/
theorem HasRoom.succ {n : Nat} (h : HasRoom s ins n) (hfew : (waiting s ins n).length ≤ 2) :
    HasRoom s ins (n + 1) := by
  intro k hk hall
  rcases Nat.lt_succ_iff_lt_or_eq.mp hk with hk | rfl
  · exact h k hk hall
  · rw [F.full_eq]
    exact decide_eq_false fun hfull => by
      rw [waiting, hfull] at hfew
      exact absurd hfew (by decide)

/-- From a clock on in which at most one byte waits, without a read. -/
theorem few_quiet (hs : s.Fresh) (hr : ∀ n, (ins n).1.reset = false) {n m : Nat} (hle : n ≤ m)
    (hm : m ≤ n + 6523) (hquiet : Quiet ins n m) (hroom : HasRoom s ins n)
    (hone : (waiting s ins n).length ≤ 1) :
    HasRoom s ins m ∧ (waiting s ins m).length ≤ 2 := by
  induction m, hle using Nat.le_induction with
  | base => exact ⟨hroom, by omega⟩
  | succ m hle ih =>
    obtain ⟨hprev, hfew⟩ := ih (by omega) fun k hk hkm => hquiet k hk (Nat.lt_succ_of_lt hkm)
    have hnext := hprev.succ hfew
    have hwaiting := waiting_length hs hr hroom
    have hwaiting' := waiting_length hs hr hnext
    have harrivals := arrivals_length_le hs hr (show n ≤ m + 1 by omega) hm
    rw [taken_quiet (show n ≤ m + 1 by omega) hquiet] at hwaiting'
    exact ⟨hnext, by omega⟩

/-- **Step lemma**: from behind one poll to behind the next. -/
theorem few_poll (hs : s.Fresh) (hr : ∀ n, (ins n).1.reset = false)
    {asks : Nat → Prop} (hpolls : Polls F.lag ins clockOf asks) {k : Nat} (hasks : asks (k + 1))
    (hoften : clockOf (k + 1) ≤ clockOf k + 6523) (hroom : HasRoom s ins (clockOf k + 1))
    (hone : (waiting s ins (clockOf k + 1)).length ≤ 1) :
    HasRoom s ins (clockOf (k + 1) + 1) ∧ (waiting s ins (clockOf (k + 1) + 1)).length ≤ 1 := by
  have hapart := hpolls.apart k
  have hquiet := hpolls.quiet k
  have hread : (ins (clockOf (k + 1))).1.readFifoReadEn = true :=
    hpolls.reads _ hasks
  obtain ⟨hbefore, hfew⟩ := few_quiet hs hr (show clockOf k + 1 ≤ clockOf (k + 1) by omega)
    (by omega) hquiet hroom hone
  have hnext := hbefore.succ hfew
  have hwaiting := waiting_length hs hr hroom
  have hwaiting' := waiting_length hs hr hnext
  have harrivals := arrivals_length_le hs hr
    (show clockOf k + 1 ≤ clockOf (k + 1) + 1 by omega) (by omega)
  have htaken : (taken s ins (clockOf (k + 1) + 1)).length = (taken s ins (clockOf k + 1)).length +
      (((core F).after s ins (clockOf (k + 1))).takenBy (ins (clockOf (k + 1))).1).length := by
    rw [taken, Clocked.logTo_succ, ← taken, taken_quiet (by omega) hquiet, List.length_append]
  refine ⟨hnext, ?_⟩
  by_cases hnone : waiting s ins (clockOf k + 1) = []
  · rw [hnone, List.length_nil] at hwaiting
    omega
  · -- what waited is taken
    have hshown := shown_quiet (s := s) hr (show clockOf k + 1 + F.lag ≤ clockOf (k + 1) by omega)
      hquiet hnone
    rw [Rs232.takenBy, Fifo.popped, hread, hshown] at htaken
    rw [show (if (true && !false) = true then
      [F.q ((core F).after s ins (clockOf (k + 1))).inDeserializer.fifo] else []).length = 1
      from rfl] at htaken
    omega

/-- **Run lemma**: up to the end of a poll interval. -/
theorem few_between (hs : s.Fresh) (hr : ∀ n, (ins n).1.reset = false) {asks : Nat → Prop}
    (hpolls : Polls F.lag ins clockOf asks) (hfirst : clockOf 0 ≤ 6522)
    (hoften : ∀ k, clockOf (k + 1) ≤ clockOf k + 6523) {n : Nat}
    (hasks : ∀ k, clockOf k < n → asks k) :
    HasRoom s ins n ∧ (waiting s ins n).length ≤ 2 := by
  have hstart : HasRoom s ins 0 := fun k hk => absurd hk (Nat.not_lt_zero k)
  have hempty : (waiting s ins 0).length = 0 := congrArg List.length hs.rxFifo
  have hbehind : ∀ k, clockOf k < n →
      HasRoom s ins (clockOf k + 1) ∧ (waiting s ins (clockOf k + 1)).length ≤ 1 := by
    intro k hk
    induction k with
    | zero =>
      obtain ⟨hbefore, hfew⟩ := few_quiet hs hr (Nat.zero_le (clockOf 0)) (by omega)
        hpolls.quiet_first hstart (by omega)
      have hnext := hbefore.succ hfew
      have hwaiting := waiting_length hs hr hnext
      have harrivals := arrivals_length_le hs hr (Nat.zero_le (clockOf 0 + 1)) (by omega)
      rw [show (arrivals s ins 0).length = 0 from rfl] at harrivals
      exact ⟨hnext, by omega⟩
    | succ k ih =>
      obtain ⟨hroom, hone⟩ := ih (Nat.lt_trans (hpolls.clockOf_lt (Nat.lt_succ_self k)) hk)
      exact few_poll hs hr hpolls (hasks _ hk) (hoften k) hroom hone
  rcases Nat.lt_or_ge (clockOf 0) n with hlt | hge
  · obtain ⟨k, hlow, hhigh⟩ := hpolls.between hlt
    have hnext := hoften k
    exact few_quiet hs hr (show clockOf k + 1 ≤ n from hlow) (by omega)
      (fun j hj hjn => hpolls.quiet k j hj (by omega)) (hbehind k hlow).1 (hbehind k hlow).2
  · exact few_quiet hs hr (Nat.zero_le n) (by omega)
      (fun j hj hjn => hpolls.quiet_first j hj (by omega)) hstart (by omega)

/-- **Polled once in the time of a frame** the core loses nothing that arrives, whatever
the line does, and the last two bytes at most still wait. -/
theorem polled_in_time (F : SyncFifo) (s : Rs232 F) {i : Bus × Bool} (hi : i.1.reset = true)
    (hr : ∀ n, (ins n).1.reset = false) (hpolls : Polls F.lag ins clockOf fun _ => True)
    (hfirst : clockOf 0 ≤ 6522) (hoften : ∀ k, clockOf (k + 1) ≤ clockOf k + 6523) (n : Nat) :
    ∃ l, l.length ≤ 2 ∧
      taken ((core F).next s i) ins n ++ l = arrivals ((core F).next s i) ins n := by
  have hs : ((core F).next s i).Fresh := s.fresh_reset hi _
  obtain ⟨hroom, hfew⟩ := few_between hs hr hpolls hfirst hoften
    fun k (_ : clockOf k < n) => trivial
  exact ⟨_, hfew, taken_append hs hr hroom⟩

end Often

/-- A processor that polls every 6523 clocks. -/
theorem polls_every {lag : Nat} (hlag : lag ≤ 6522) {ins : Nat → Bus × Bool}
    (hreads : ∀ n, (ins n).1.readFifoReadEn = decide (n % 6523 = 0)) (asks : Nat → Prop) :
    Polls lag ins (6523 * ·) asks where
  reads k _ := by rw [hreads, Nat.mul_mod_right, decide_eq_true rfl]
  only n hread := by
    have hn : n % 6523 = 0 := of_decide_eq_true ((hreads n).symm.trans hread)
    exact ⟨n / 6523, show 6523 * (n / 6523) = n by omega⟩
  apart k := show 6523 * k + lag < 6523 * (k + 1) by omega

/-- On a line that changes every 652 clocks, with frames of 0x55. -/
theorem polled_in_time_alternating :
    let ins : Nat → Bus × Bool := fun n =>
      (readBus (fun n => decide (n % 6523 = 0)) n, decide (n / 652 % 2 = 0))
    ∃ l, l.length ≤ 2 ∧
      taken ((core _).next scrambled (resetBus, true)) ins 100000 ++ l =
        arrivals ((core _).next scrambled (resetBus, true)) ins 100000 :=
  polled_in_time _ scrambled rfl (fun _ => rfl) (polls_every (Nat.zero_le _) (readBus_reads _) _)
    (by decide) (fun k => by omega) 100000

end DcnnFpga.Uart
