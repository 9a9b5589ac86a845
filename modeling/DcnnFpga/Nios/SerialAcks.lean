import DcnnFpga.Nios.SerialLoad
import DcnnFpga.Uart.Acknowledge

/-!
# Acknowledging over the serial core

`read_event` writes a 1 behind every byte it takes. On the bus that is a processor that
acknowledges (`acknowledges_of_handshake`), so the ones all go out on the line: one for
every byte taken, at most seven of them still to come, and each in bounded time after its
write (`acks_over_wire`).
-/

namespace DcnnFpga.Nios

open Lib Uart

/-! ## What the bus sees of `read_event` -/

/-- Of what `read_event` does, the accesses of the data register. -/
def SerialEvent.onData : SerialEvent → Bool
  | .poll _ => true
  | .writeData _ => true
  | _ => false

/-- A poll that takes a byte. -/
def SerialEvent.takes : SerialEvent → Bool
  | .poll dataReg => (dequeued dataReg).isSome
  | _ => false

def SerialEvent.acknowledges : SerialEvent → Bool
  | .writeData _ => true
  | _ => false

/-- The logs of calls, one behind the other. -/
theorem Handshake.append {a b : List SerialEvent} (ha : Handshake a) (hb : Handshake b) :
    Handshake (a ++ b) := by
  induction hb with
  | nil =>
    rw [List.append_nil]
    exact ha
  | idle _ hnone ih =>
    rw [← List.append_assoc]
    exact ih.idle hnone
  | byte i _ hbyte ih =>
    rw [← List.append_assoc]
    exact ih.byte i hbyte

/-- So many of the bytes taken are still to be acknowledged. -/
def Owing (n : Nat) (l : List SerialEvent) : Prop :=
  l.countP SerialEvent.takes = l.countP SerialEvent.acknowledges + n

section Owing

variable {n : Nat} {l : List SerialEvent}

theorem Owing.poll_none {dataReg : BitVec 32} (h : Owing n l) (hnone : dequeued dataReg = none) :
    Owing n (l ++ [.poll dataReg]) := by
  have hpoll : [SerialEvent.poll dataReg].countP SerialEvent.takes = 0 := by
    rw [List.countP_singleton, SerialEvent.takes, hnone]
    rfl
  rw [Owing, List.countP_append, List.countP_append, hpoll]
  exact h

theorem Owing.poll_some {dataReg : BitVec 32} {b : BitVec 8} (h : Owing n l)
    (hbyte : dequeued dataReg = some b) : Owing (n + 1) (l ++ [.poll dataReg]) := by
  have hpoll : [SerialEvent.poll dataReg].countP SerialEvent.takes = 1 := by
    rw [List.countP_singleton, SerialEvent.takes, hbyte]
    rfl
  rw [Owing, List.countP_append, List.countP_append, hpoll]
  exact congrArg (· + 1) h

theorem Owing.write {data : BitVec 8} (h : Owing (n + 1) l) : Owing n (l ++ [.writeData data]) := by
  rw [Owing, List.countP_append, List.countP_append, show l.countP _ = _ from h]
  exact Nat.add_right_comm _ n 1

end Owing

/-- As far as a log has come, at most one byte is yet to be acknowledged. -/
theorem Handshake.owing {l : List SerialEvent} (h : Handshake l) :
    Owing 0 (l.filter SerialEvent.onData) ∧
      ∀ l', l' <+: l.filter SerialEvent.onData → Owing 0 l' ∨ Owing 1 l' := by
  induction h with
  | nil =>
    refine ⟨rfl, fun l' hl' => .inl ?_⟩
    rw [List.prefix_nil.mp hl']
    rfl
  | @idle l dataReg _ hnone ih =>
    obtain ⟨heven, hle⟩ := ih
    rw [List.filter_append, show [SerialEvent.poll dataReg].filter SerialEvent.onData =
      [.poll dataReg] from rfl]
    refine ⟨heven.poll_none hnone, fun l' hl' => ?_⟩
    rcases List.prefix_concat_iff.mp hl' with rfl | hl'
    · exact .inl (heven.poll_none hnone)
    · exact hle l' hl'
  | @byte l dataReg b i _ hbyte ih =>
    obtain ⟨heven, hle⟩ := ih
    have hfilter : (l ++ [SerialEvent.poll dataReg, .store i (transform b), .disableReadInterrupt,
        .writeData 1, .enableReadInterrupt]).filter SerialEvent.onData =
          l.filter SerialEvent.onData ++ [.poll dataReg] ++ [.writeData 1] := by
      rw [List.filter_append, List.append_assoc]
      rfl
    have hone := heven.poll_some hbyte
    rw [hfilter]
    refine ⟨hone.write, fun l' hl' => ?_⟩
    rcases List.prefix_concat_iff.mp hl' with rfl | hl'
    · exact .inl hone.write
    · rcases List.prefix_concat_iff.mp hl' with rfl | hl'
      · exact .inr hone
      · exact hle l' hl'

/-- All that is written is ones. -/
theorem Handshake.ones {l : List SerialEvent} (h : Handshake l) {data : BitVec 8}
    (hmem : SerialEvent.writeData data ∈ l) : data = 1 := by
  induction h with
  | nil => cases hmem
  | idle _ _ ih =>
    rcases List.mem_append.mp hmem with hmem | hmem
    · exact ih hmem
    · simp at hmem
  | byte i _ _ ih =>
    rcases List.mem_append.mp hmem with hmem | hmem
    · exact ih hmem
    · simpa using hmem

/-- The accesses of the data register in clock `n`. -/
def dataEvents {F : SyncFifo} (s : Rs232 F) (ins : Nat → Bus × Bool) (n : Nat) :
    List SerialEvent :=
  (if (ins n).1.readFifoReadEn then [.poll ((core F).after s ins (n + 1)).readdata] else []) ++
    if (ins n).1.writesData then [.writeData ((ins n).1.writedata.extractLsb' 0 8)] else []

/-- And in the first `n` clocks. -/
def dataLog {F : SyncFifo} (s : Rs232 F) (ins : Nat → Bus × Bool) (n : Nat) : List SerialEvent :=
  (List.range n).flatMap (dataEvents s ins)

section Bus

variable {F : SyncFifo} {s : Rs232 F} {ins : Nat → Bus × Bool} {clockOf : Nat → Nat}

/-- A read gets the byte it takes. -/
theorem dequeued_readdata (hr : ∀ n, (ins n).1.reset = false) {n : Nat}
    (hread : (ins n).1.readFifoReadEn = true) :
    (dequeued ((core F).after s ins (n + 1)).readdata).toList =
      ((core F).after s ins n).takenBy (ins n).1 :=
  @dequeued_pollLine F s ins id hr n hread

theorem dataEvents_counts (hr : ∀ n, (ins n).1.reset = false) (n : Nat) :
    (dataEvents s ins n).countP SerialEvent.takes =
        (((core F).after s ins n).takenBy (ins n).1).length ∧
      (dataEvents s ins n).countP SerialEvent.acknowledges = (ins n).1.written.length := by
  have htakes : ((if (ins n).1.readFifoReadEn then
      [SerialEvent.poll ((core F).after s ins (n + 1)).readdata] else []).countP SerialEvent.takes) =
        (((core F).after s ins n).takenBy (ins n).1).length := by
    cases hread : (ins n).1.readFifoReadEn with
    | true =>
      rw [← dequeued_readdata hr hread, if_pos rfl, List.countP_singleton, SerialEvent.takes]
      cases dequeued ((core F).after s ins (n + 1)).readdata <;> rfl
    | false =>
      rw [Rs232.takenBy, Fifo.popped, hread]
      rfl
  rw [dataEvents, List.countP_append, List.countP_append, htakes, Bus.written]
  constructor
  · split <;> rfl
  · split <;> split <;> rfl

theorem dataLog_succ (n : Nat) : dataLog s ins (n + 1) = dataLog s ins n ++ dataEvents s ins n := by
  rw [dataLog, List.range_succ, List.flatMap_append]
  exact congrArg _ (List.append_nil _)

theorem dataLog_counts (hr : ∀ n, (ins n).1.reset = false) (n : Nat) :
    (dataLog s ins n).countP SerialEvent.takes = (taken s ins n).length ∧
      (dataLog s ins n).countP SerialEvent.acknowledges = writes (fun j => (ins j).1) n := by
  induction n with
  | zero => exact ⟨rfl, rfl⟩
  | succ n ih =>
    obtain ⟨htakes, hacks⟩ := dataEvents_counts (s := s) hr n
    rw [dataLog_succ, List.countP_append, List.countP_append, htakes, hacks, ih.1, ih.2,
      length_written, taken, taken, Clocked.logTo_succ, List.length_append]
    exact ⟨rfl, rfl⟩

/-- The accesses of the data register are those of calls of `read_event`, in their order. -/
def RunsReadEvent (s : Rs232 F) (ins : Nat → Bus × Bool) : Prop :=
  ∀ n, ∃ l, Handshake l ∧ dataLog s ins n <+: l.filter SerialEvent.onData

/-- Then the processor acknowledges. -/
theorem RunsReadEvent.acknowledges (h : RunsReadEvent s ins)
    (hr : ∀ n, (ins n).1.reset = false) : Acknowledges s ins := by
  intro n
  obtain ⟨l, hl, hlog⟩ := h n
  obtain ⟨htakes, hacks⟩ := dataLog_counts (s := s) hr n
  rcases hl.owing.2 _ hlog with howing | howing
  · rw [Owing, htakes, hacks] at howing
    omega
  · rw [Owing, htakes, hacks] at howing
    omega

theorem written_mem {n : Nat} {data : BitVec 8} (h : data ∈ written s ins n) :
    SerialEvent.writeData data ∈ dataLog s ins n := by
  induction n with
  | zero => cases h
  | succ n ih =>
    rw [dataLog_succ, List.mem_append]
    rw [written, Clocked.logTo_succ, ← written, List.mem_append] at h
    rcases h with h | h
    · exact .inl (ih h)
    · refine .inr (List.mem_append.mpr (.inr ?_))
      rw [Bus.written] at h
      split at h
      next hwrite => rw [if_pos hwrite, List.mem_singleton.mp h]; exact List.mem_singleton_self _
      next => cases h

/-- And all it writes is ones. -/
theorem RunsReadEvent.written_eq (h : RunsReadEvent s ins) (n : Nat) :
    written s ins n = List.replicate (writes (fun j => (ins j).1) n) 1 := by
  obtain ⟨l, hl, hlog⟩ := h n
  exact List.eq_replicate_iff.mpr ⟨written_length n, fun data hmem =>
    hl.ones (List.mem_of_mem_filter (hlog.subset (written_mem hmem)))⟩

/-- **Acknowledgements over the wire**: `read_event` polls once in the time of a frame and
never asks for room. After a reset clock from any registers and whatever the line does,
a 1 leaves the FIFO for the shift register for every byte taken, at any time at most seven
of them late, and each within 32616 clocks of its write. -/
theorem acks_over_wire (F : SyncFifo) (hlag : F.lag ≤ 6522) (s : Rs232 F) {i : Bus × Bool}
    (hi : i.1.reset = true) (hr : ∀ n, (ins n).1.reset = false)
    (hpolls : Polls F.lag ins clockOf fun _ => True) (hfirst : clockOf 0 ≤ 6522)
    (hoften : ∀ k, clockOf (k + 1) ≤ clockOf k + 6523)
    (hprogram : RunsReadEvent ((core F).next s i) ins) (n : Nat) :
    (∃ k, sent ((core F).next s i) ins n = List.replicate k 1 ∧
        k ≤ (taken ((core F).next s i) ins n).length ∧
        (taken ((core F).next s i) ins n).length ≤ k + 7) ∧
      written ((core F).next s i) ins n <+: sent ((core F).next s i) ins (n + 32616) := by
  have hacks := hprogram.acknowledges hr
  obtain ⟨⟨l, hl, hsent⟩, htime⟩ := acks_kept F hlag s hi hr hpolls hfirst hoften hacks n
  have hones := hprogram.written_eq n
  have hlength := congrArg List.length hsent
  rw [List.length_append, written_length] at hlength
  refine ⟨⟨(sent ((core F).next s i) ins n).length, ?_, ?_, ?_⟩, htime⟩
  · refine List.eq_replicate_iff.mpr ⟨rfl, fun data hmem => ?_⟩
    have hwritten := hsent ▸ List.mem_append_left l hmem
    rw [hones] at hwritten
    exact List.eq_of_mem_replicate hwritten
  · have hfirst := (hacks n).1
    omega
  · have hlate := (hacks n).2
    omega

end Bus

/-! ## One byte -/

/-- A byte of ones, from a start bit of one clock, is taken in clock 6523 and acknowledged
in the next. -/
def oneByte (n : Nat) : Bus × Bool :=
  (⟨false, false, true, 1, n % 6523 == 0, n == 6524, 1⟩, n != 0)

theorem oneByte_reads (n : Nat) : (oneByte n).1.readFifoReadEn = (n % 6523 == 0) := by
  simp [oneByte, Bus.readFifoReadEn]

theorem oneByte_polls : Polls 0 oneByte (6523 * ·) fun _ => True :=
  polls_every (Nat.zero_le _) oneByte_reads _

section OneByte

variable {s : Rs232 (Fifo.ofList (BitVec 8) 7)}

theorem oneByte_arrives (hs : s.Fresh) {n : Nat} (hn : 6523 ≤ n) :
    (arrivals s oneByte n).length = 1 := by
  have hcarries : Carries (fun n => n != 0) 0 [0xFF] n := by
    refine .frame rfl (fun k hk => ?_) ((Carries.nil n).high hn fun v hv _ => ?_)
    · have hbit : ∀ k < 8, (0xFF : BitVec 8).getLsbD k = true := by decide
      rw [hbit k hk]
      simp
    · simp only [bne_iff_ne]
      omega
  have hreset : ∀ n, (rxInput oneByte n).reset = false := fun _ => rfl
  have hone := carries_received hreset (fun _ => rfl) hcarries hs.rx
  rw [arrivals_eq, hone.2]
  rfl

theorem oneByte_taken (hs : s.Fresh) (n : Nat) :
    (taken s oneByte n).length = if n ≤ 6523 then 0 else 1 := by
  have hr : ∀ n, (oneByte n).1.reset = false := fun _ => rfl
  have hwaiting : ∀ n, (taken s oneByte n).length + (waiting s oneByte n).length =
      (arrivals s oneByte n).length := fun n =>
    waiting_length hs hr (few_between hs hr oneByte_polls (by decide) (fun k => by omega)
      fun k (_ : 6523 * k < n) => trivial).1
  have hquiet : Quiet oneByte 1 6523 := oneByte_polls.quiet 0
  have hbefore : (taken s oneByte 6523).length = 0 := by
    have harrived := arrivals_le hs hr 1
    have hlength := hwaiting 1
    rw [taken_quiet (by decide) hquiet]
    omega
  by_cases hn : n ≤ 6523
  · have hle := taken_length_le s oneByte hn
    rw [if_pos hn]
    omega
  · -- the FIFO shows the byte, and the poll takes it
    have hthere : waiting s oneByte 6523 ≠ [] := by
      intro hnone
      have hlength := hwaiting 6523
      rw [hnone, hbefore, oneByte_arrives hs (Nat.le_refl _)] at hlength
      cases hlength
    have hshown := (Fifo.heldFor_zero _ hthere).shown (Nat.zero_le 0)
    have hpoll : (taken s oneByte 6524).length = 1 := by
      rw [taken, Clocked.logTo_succ, ← taken, List.length_append, hbefore, Rs232.takenBy,
        Fifo.popped, hshown, oneByte_reads]
      rfl
    have hle := taken_length_le s oneByte (show 6524 ≤ n by omega)
    have hlength := hwaiting n
    rw [oneByte_arrives hs (by omega)] at hlength
    rw [if_neg hn]
    omega

theorem oneByte_dequeued (hs : s.Fresh) {n : Nat} (hn : n % 6523 = 0) :
    (dequeued ((core _).after s oneByte (n + 1)).readdata).toList.length =
      if n = 6523 then 1 else 0 := by
  have hread : (oneByte n).1.readFifoReadEn = true := by rw [oneByte_reads, hn]; rfl
  have hnext : (taken s oneByte (n + 1)).length = (taken s oneByte n).length +
      (((core _).after s oneByte n).takenBy (oneByte n).1).length := List.length_append
  rw [oneByte_taken hs, oneByte_taken hs] at hnext
  rw [dequeued_readdata (fun _ => rfl) hread]
  split at hnext <;> split at hnext <;> split <;> omega

/-- What has been logged: all of a handshake, but for the clock in between. -/
theorem oneByte_log (hs : s.Fresh) (n : Nat) :
    (n ≠ 6524 ∧ ∃ l, Handshake l ∧ dataLog s oneByte n = l.filter SerialEvent.onData) ∨
      n = 6524 ∧ ∃ l dataReg b, Handshake l ∧ dequeued dataReg = some b ∧
        dataLog s oneByte n = l.filter SerialEvent.onData ++ [.poll dataReg] := by
  induction n with
  | zero => exact .inl ⟨by decide, [], .nil, rfl⟩
  | succ n ih =>
    rw [dataLog_succ]
    rcases ih with ⟨hn, l, hl, hlog⟩ | ⟨rfl, l, dataReg, b, hl, hbyte, hlog⟩
    · have hsilent : (oneByte n).1.writesData = false := by
        simpa [oneByte, Bus.writesData] using hn
      rw [hlog, dataEvents, hsilent, oneByte_reads, if_neg Bool.false_ne_true, List.append_nil]
      by_cases hpoll : n % 6523 = 0
      · have hgot := oneByte_dequeued hs hpoll
        rw [hpoll, beq_self_eq_true, if_pos rfl]
        cases hdequeued : dequeued ((core _).after s oneByte (n + 1)).readdata with
        | none =>
          rw [hdequeued] at hgot
          refine .inl ⟨fun h => ?_, _, hl.idle hdequeued, ?_⟩
          · rw [if_pos (by omega)] at hgot
            cases hgot
          · rw [List.filter_append]
            rfl
        | some b =>
          rw [hdequeued] at hgot
          refine .inr ⟨?_, l, _, b, hl, hdequeued, rfl⟩
          by_contra hother
          rw [if_neg (by omega)] at hgot
          cases hgot
      · refine .inl ⟨by omega, l, hl, ?_⟩
        rw [beq_eq_false_iff_ne.mpr hpoll]
        exact List.append_nil _
    · refine .inl ⟨by decide, _, hl.byte 0 hbyte, ?_⟩
      rw [hlog, List.filter_append, List.append_assoc]
      rfl

theorem oneByte_runs (hs : s.Fresh) : RunsReadEvent s oneByte := by
  intro n
  rcases oneByte_log hs n with ⟨-, l, hl, heq⟩ | ⟨-, l, dataReg, b, hl, hbyte, heq⟩
  · exact ⟨l, hl, heq ▸ List.prefix_refl _⟩
  · refine ⟨_, hl.byte 0 hbyte, ?_⟩
    rw [heq, List.filter_append]
    exact (List.prefix_append_right_inj _).mpr ⟨[.writeData 1], rfl⟩

end OneByte

theorem acks_over_wire_one :
    let s := (core _).next scrambled (resetBus, true)
    (∃ k, sent s oneByte 50000 = List.replicate k 1 ∧ k ≤ (taken s oneByte 50000).length ∧
        (taken s oneByte 50000).length ≤ k + 7) ∧
      written s oneByte 50000 <+: sent s oneByte (50000 + 32616) :=
  acks_over_wire _ (Nat.zero_le _) scrambled rfl (fun _ => rfl) oneByte_polls (by decide)
    (fun k => by omega) (oneByte_runs (scrambled.fresh_reset rfl _)) 50000

end DcnnFpga.Nios
