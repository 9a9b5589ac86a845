import DcnnFpga.Uart.InDeserializer
import Mathlib.Tactic.IntervalCases

/-!
# How exact the sender has to be

A sender with `L` clocks a bit, against the receiver's 652. The receiver looks for the
next start bit 6523 clocks after the last one, so what a sender is fast, it is late:
the *slack* of a frame is how far its start bit has got by then. While the samples of
every frame still fall into their bits (`Paced`), all bytes arrive (`Paced.understands`).

Frames that are 6523 clocks apart leave no slack, and then the sender may be off by
five percent, and no more (`understands_spaced_iff`). Back to back the slack adds up, and
a burst has a longest length (`understands_burst_iff`). All this is about the bytes the
deserializer completes; whether there is room for them is up to who reads the FIFO
(`Tolerance.lean`).
-/

namespace DcnnFpga.Uart

open Lib

/-- A byte, and the clocks its sender waits after the ten bits. -/
structure Frame where
  byte : BitVec 8
  gap : Nat

/-- The line of a sender with `L` clocks a bit. -/
def wave (L : Nat) : List Frame → Nat → Bool
  | [], _ => true
  | f :: rest, t =>
    if t < 10 * L + f.gap then frameBit f.byte (t / L) else wave L rest (t - (10 * L + f.gap))

def waveLength (L : Nat) (frames : List Frame) : Nat := (frames.map fun f => 10 * L + f.gap).sum

/-- With this slack the start bit is still seen, the samples are of the right bits, and
the receiver is done before the frame is. -/
structure InTime (L slack : Nat) : Prop where
  start : slack < L
  samples : ∀ k, k < 8 →
    (k + 1) * L ≤ slack + (979 + 652 * k) ∧ slack + (979 + 652 * k) < (k + 2) * L
  done : 9 * L ≤ slack + 6523

/-- Every frame comes in time, the first one with this slack. -/
def Paced (L : Nat) : Nat → List Frame → Prop
  | _, [] => True
  | slack, f :: rest => InTime L slack ∧ Paced L (slack + 6523 - (10 * L + f.gap)) rest

/-! ## The line of a sender -/

section Wave

variable {L : Nat} {f : Frame} {rest : List Frame} {line : Nat → Bool} {t : Nat}

theorem wave_rest (u : Nat) : wave L (f :: rest) (10 * L + f.gap + u) = wave L rest u := by
  rw [wave, if_neg (by omega), Nat.add_sub_cancel_left]

/-- In the bits of a frame. -/
theorem wave_bit {u k : Nat} (hu : u < 10 * L + f.gap) (hlow : k * L ≤ u)
    (hhigh : u < (k + 1) * L) : wave L (f :: rest) u = frameBit f.byte k := by
  rw [wave, if_pos hu, Nat.div_eq_of_lt_le hlow hhigh]

/-- From the stop bit to the next frame. -/
theorem wave_high {u : Nat} (hL : 1 ≤ L) (hlow : 9 * L ≤ u) (hu : u < 10 * L + f.gap) :
    wave L (f :: rest) u = true := by
  have hbit : 9 ≤ u / L := (Nat.le_div_iff_mul_le hL).mpr hlow
  rw [wave, if_pos hu, frameBit, if_neg (by omega), if_neg (by omega)]

/-- A high line carries nothing. -/
theorem Carries.high {u t' : Nat} {bytes : List (BitVec 8)} (h : Carries line u bytes t')
    (hle : t ≤ u) (hhigh : ∀ v, t ≤ v → v < u → line v = true) : Carries line t bytes t' := by
  induction u, hle using Nat.le_induction with
  | base => exact h
  | succ u hle ih =>
    exact ih (.idle (hhigh u hle (Nat.lt_succ_self u)) h)
      fun v hv hvu => hhigh v hv (Nat.lt_succ_of_lt hvu)

/-- Behind some frames the line is that of the later ones. -/
theorem wave_append (frames later : List Frame) (u : Nat) :
    wave L (frames ++ later) (waveLength L frames + u) = wave L later u := by
  induction frames with
  | nil => exact congrArg _ (Nat.zero_add u)
  | cons f rest ih =>
    rw [waveLength, List.map_cons, List.sum_cons, Nat.add_assoc, List.cons_append, wave_rest]
    exact ih

/-- The slack of the frame behind these. -/
def slackAfter (L : Nat) : Nat → List Frame → Nat
  | slack, [] => slack
  | slack, f :: rest => slackAfter L (slack + 6523 - (10 * L + f.gap)) rest

/-- **A sender in time is understood**, whatever it sends later. -/
theorem Paced.carries (hL : 1 ≤ L) {frames : List Frame} (later : List Frame) {slack : Nat}
    (h : Paced L slack frames) (hline : ∀ u, line (t + u) = wave L (frames ++ later) u) :
    Carries line (t + slack) (frames.map Frame.byte)
      (t + waveLength L frames + slackAfter L slack frames) := by
  induction frames generalizing slack t with
  | nil => exact .nil _
  | cons f rest ih =>
    obtain ⟨hin, hrest⟩ := h
    have hstart := hin.start
    have hdone := hin.done
    -- the next frame, with its own slack
    have hcarries := ih (t := t + (10 * L + f.gap)) hrest fun u => by
      rw [Nat.add_assoc, hline, List.cons_append, wave_rest]
    have hnext : Carries line (t + slack + 6523) (rest.map Frame.byte)
        (t + waveLength L (f :: rest) + slackAfter L slack (f :: rest)) := by
      rw [show t + waveLength L (f :: rest) = t + (10 * L + f.gap) + waveLength L rest from
        (Nat.add_assoc _ _ _).symm]
      refine hcarries.high (by omega) fun v hv hvu => ?_
      rw [show v = t + (v - t) by omega, hline]
      exact wave_high hL (by omega) (by omega)
    refine .frame ?_ (fun k hk => ?_) hnext
    · rw [hline, List.cons_append, wave_bit (k := 0) (by omega) (by omega) (by omega)]
      rfl
    · obtain ⟨hlow, hup⟩ := hin.samples k hk
      have hbits : (k + 2) * L ≤ 10 * L := Nat.mul_le_mul_right L (by omega)
      rw [Nat.add_assoc, hline, List.cons_append, wave_bit (by omega) hlow hup, frameBit,
        if_neg (Nat.succ_ne_zero k), if_pos (by omega), Nat.add_sub_cancel]

theorem Paced.slackAfter_le {frames : List Frame} {slack : Nat} (h : Paced L slack frames)
    (hslack : slack ≤ 6523) : slackAfter L slack frames ≤ 6523 := by
  induction frames generalizing slack with
  | nil => exact hslack
  | cons f rest ih =>
    have hstart := h.1.start
    exact ih h.2 (by omega)

theorem Carries.trail {u t' : Nat} {bytes : List (BitVec 8)} (h : Carries line t bytes t')
    (hle : t' ≤ u) (hhigh : ∀ v, t' ≤ v → line v = true) : Carries line t bytes u := by
  induction h with
  | nil t => exact (Carries.nil u).high hle fun v hv _ => hhigh v hv
  | idle hone _ ih => exact .idle hone (ih hle hhigh)
  | frame hlow hbits _ ih => exact .frame hlow hbits (ih hle hhigh)

end Wave

/-! ## What arrives -/

/-- The deserializer completes exactly these bytes of this sender, after any idle time. -/
def Understands {F : SyncFifo} (s : InDeserializer F) (L : Nat) (frames : List Frame) : Prop :=
  ∀ (start : Nat) (ins : Nat → RxInput), (∀ n, (ins n).reset = false) →
    (∀ n, (ins n).serialDataIn = if n < start then true else wave L frames (n - start)) →
    ∀ n, start + waveLength L frames + 6523 ≤ n →
      (receiver F).eventsTo s ins n = frames.map Frame.byte

section Received

variable {F : SyncFifo} {s : InDeserializer F} {L : Nat}

/-- In time from the first frame on, everything arrives. -/
theorem Paced.understands (hs : s.Ready) (hL : 1 ≤ L) {frames : List Frame}
    (h : Paced L 0 frames) : Understands s L frames := by
  intro start ins hr hline n hn
  have hslack := h.slackAfter_le (Nat.zero_le 6523)
  have hbehind : ∀ u, (ins (start + u)).serialDataIn = wave L frames u := by
    intro u
    rw [hline, if_neg (by omega), Nat.add_sub_cancel_left]
  have hcarries : Carries (fun n => (ins n).serialDataIn) start (frames.map Frame.byte)
      (start + waveLength L frames + slackAfter L 0 frames) :=
    h.carries hL [] fun u => by rw [List.append_nil]; exact hbehind u
  have hall : Carries (fun n => (ins n).serialDataIn) 0 (frames.map Frame.byte) n := by
    refine (hcarries.trail (by omega) fun v hv => ?_).high (Nat.zero_le start) fun v _ hv => ?_
    · have hlast := wave_append (L := L) frames [] (v - start - waveLength L frames)
      rw [List.append_nil] at hlast
      rw [show v = start + (waveLength L frames + (v - start - waveLength L frames)) by omega]
      exact (hbehind _).trans hlast
    · exact (hline v).trans (if_pos hv)
  obtain ⟨-, hevents⟩ := carries_received hr (fun _ => rfl) hall hs
  exact hevents

/-- The last data bit of a frame that is understood is the one sampled, when the
receiver is ready for the frame. -/
theorem Understands.last_bit {frames : List Frame} (h : Understands s L frames)
    {pre : List (BitVec 8)} {t : Nat} (hs : s.Ready)
    (hcarries : Carries (wave L frames) 0 pre t) (hlow : wave L frames t = false) :
    ∃ byte, pre ++ [byte] <+: frames.map Frame.byte ∧
      byte.getLsbD 7 = wave L frames (t + 5543) := by
  let ins : Nat → RxInput := fun n => ⟨false, wave L frames n, false⟩
  have hr : ∀ n, (ins n).reset = false := fun _ => rfl
  obtain ⟨hready, hpre⟩ := carries_received (s := s) hr (fun _ => rfl) hcarries hs
  obtain ⟨byte, hbits, -, hone⟩ := frame_received hr hready hlow
  refine ⟨byte, ?_, hbits 7 (by decide)⟩
  have hevents := h 0 ins hr (fun _ => rfl) (max (t + 6523) (0 + waveLength L frames + 6523))
    (Nat.le_max_right _ _)
  rw [← hevents]
  have hlead := (receiver F).eventsTo_isPrefix s ins
    (Nat.le_max_left (t + 6523) (0 + waveLength L frames + 6523))
  rw [hone, hpre] at hlead
  exact hlead

/-! ## The tolerance -/

theorem inTime_zero (hlow : 616 ≤ L) (hhigh : L ≤ 692) : InTime L 0 where
  start := by omega
  samples k hk := by
    interval_cases k <;> omega
  done := by omega

theorem paced_of_spaced (hlow : 616 ≤ L) (hhigh : L ≤ 692) {frames : List Frame}
    (hspaced : ∀ f ∈ frames, 6523 ≤ 10 * L + f.gap) : Paced L 0 frames := by
  induction frames with
  | nil => trivial
  | cons f rest ih =>
    have hgap := hspaced f List.mem_cons_self
    refine ⟨inTime_zero hlow hhigh, ?_⟩
    rw [show 0 + 6523 - (10 * L + f.gap) = 0 by omega]
    exact ih fun g hg => hspaced g (List.mem_cons_of_mem _ hg)

/-- One frame, by its last data bit. -/
theorem Understands.one (hs : s.Ready) (hL : 1 ≤ L) {byte : BitVec 8}
    (h : Understands s L [⟨byte, 6523⟩]) : byte.getLsbD 7 = frameBit byte (5543 / L) := by
  have hlow : wave L [⟨byte, 6523⟩] 0 = false := by
    rw [wave_bit (k := 0) (by dsimp only; omega) (by omega) (by omega)]
    rfl
  obtain ⟨byte', hlead, hbit⟩ := h.last_bit hs (.nil 0) hlow
  have hbyte : byte' = byte := by
    have heq := hlead.eq_of_length rfl
    exact (List.cons.inj heq).1
  rw [← hbyte, hbit, wave, if_pos (by dsimp only; omega), hbyte]

/-- The tolerance: a sender that keeps its frames 6523 clocks apart is understood,
whatever it sends, exactly with 616 to 692 clocks a bit. -/
theorem understands_spaced_iff (hs : s.Ready) (hL : 1 ≤ L) :
    (∀ frames : List Frame, (∀ f ∈ frames, 6523 ≤ 10 * L + f.gap) → Understands s L frames) ↔
      616 ≤ L ∧ L ≤ 692 := by
  constructor
  · intro h
    have hone : ∀ byte : BitVec 8, byte.getLsbD 7 = frameBit byte (5543 / L) := by
      intro byte
      refine (h [⟨byte, 6523⟩] fun f hf => ?_).one hs hL
      rw [List.mem_singleton.mp hf]
      dsimp only
      omega
    constructor
    · -- too fast: the stop bit is sampled for the last bit of 0
      by_contra hlt
      have hstop : 9 ≤ 5543 / L := (Nat.le_div_iff_mul_le hL).mpr (by omega)
      have hzero := hone 0
      rw [frameBit, if_neg (by omega), if_neg (by omega)] at hzero
      cases hzero
    · -- too slow: an earlier bit is sampled for the last one of 128
      by_contra hgt
      have hearly : 5543 / L < 8 := Nat.div_lt_of_lt_mul (by omega)
      have hbits : ∀ k < 8, frameBit 128 k = false := by decide
      have htop := hone 128
      rw [hbits _ hearly] at htop
      cases htop
  · rintro ⟨hlow, hhigh⟩ frames hspaced
    exact (paced_of_spaced hlow hhigh hspaced).understands hs hL

/-! ## Bursts -/

/-- Frames back to back. -/
def burst (bytes : List (BitVec 8)) : List Frame := bytes.map fun byte => ⟨byte, 0⟩

theorem burst_bytes (bytes : List (BitVec 8)) : (burst bytes).map Frame.byte = bytes := by
  rw [burst, List.map_map]
  exact List.map_id _

/-- Each frame of a fast sender adds to the slack. -/
theorem slackAfter_burst (hhigh : L ≤ 652) (slack : Nat) (bytes : List (BitVec 8)) :
    slackAfter L slack (burst bytes) = slack + bytes.length * (6523 - 10 * L) := by
  induction bytes generalizing slack with
  | nil => exact (congrArg (slack + ·) (Nat.zero_mul _)).symm
  | cons byte rest ih =>
    show slackAfter L (slack + 6523 - (10 * L + 0)) (burst rest) = _
    rw [ih, List.length_cons, Nat.add_mul, Nat.one_mul]
    omega

theorem inTime_iff (hlow : 616 ≤ L) (hhigh : L ≤ 652) {slack : Nat} :
    InTime L slack ↔ slack + 5543 < 9 * L := by
  constructor
  · intro h
    exact (h.samples 7 (by decide)).2
  · intro h
    refine ⟨by omega, fun k hk => ?_, by omega⟩
    interval_cases k <;> omega

theorem paced_burst_iff (hlow : 616 ≤ L) (hhigh : L ≤ 652) {slack : Nat}
    {bytes : List (BitVec 8)} (hne : bytes ≠ []) :
    Paced L slack (burst bytes) ↔
      slack + (bytes.length - 1) * (6523 - 10 * L) + 5543 < 9 * L := by
  induction bytes generalizing slack with
  | nil => exact absurd rfl hne
  | cons byte rest ih =>
    show InTime L slack ∧ Paced L (slack + 6523 - (10 * L + 0)) (burst rest) ↔ _
    rw [inTime_iff hlow hhigh, List.length_cons, Nat.add_sub_cancel]
    by_cases hrest : rest = []
    · subst hrest
      rw [List.length_nil, Nat.zero_mul, Nat.add_zero]
      exact ⟨fun h => h.1, fun h => ⟨h, trivial⟩⟩
    · rw [ih hrest]
      obtain ⟨n, hn⟩ := Nat.exists_eq_succ_of_ne_zero (mt List.length_eq_zero_iff.mp hrest)
      rw [hn, Nat.succ_sub_one, Nat.succ_eq_add_one, Nat.add_mul, Nat.one_mul]
      omega

/-- The first frame that comes too late, behind `m` that did not, has its stop bit
sampled for its last data bit. -/
theorem not_understands_late (hs : s.Ready) (hlow : 616 ≤ L) (hhigh : L ≤ 652) {m n : Nat}
    (hm : 1 ≤ m) (hmn : m < n) (hin : (m - 1) * (6523 - 10 * L) + 5543 < 9 * L)
    (hlate : 9 * L ≤ m * (6523 - 10 * L) + 5543) :
    ¬ Understands s L (burst (List.replicate n 0)) := by
  intro h
  obtain ⟨r, rfl⟩ := Nat.exists_eq_add_of_lt hmn
  have hslack : m * (6523 - 10 * L) = (m - 1) * (6523 - 10 * L) + (6523 - 10 * L) := by
    rw [← Nat.succ_mul, Nat.succ_eq_add_one, Nat.sub_add_cancel hm]
  have hsplit : burst (List.replicate (m + r + 1) 0) =
      burst (List.replicate m 0) ++ ⟨0, 0⟩ :: burst (List.replicate r 0) := by
    rw [Nat.add_assoc, List.replicate_add, burst, List.map_append]
    rfl
  have hpaced : Paced L 0 (burst (List.replicate m 0)) := by
    rw [paced_burst_iff hlow hhigh fun he => by simp at he; omega, List.length_replicate]
    omega
  have hcarries : Carries (wave L (burst (List.replicate (m + r + 1) 0))) (0 + 0) _ _ :=
    hpaced.carries (by omega) (⟨0, 0⟩ :: burst (List.replicate r 0)) fun u => by
      rw [Nat.zero_add, hsplit]
  rw [burst_bytes, slackAfter_burst hhigh, List.length_replicate, Nat.zero_add, Nat.zero_add,
    Nat.zero_add] at hcarries
  have hframe : ∀ u, wave L (burst (List.replicate (m + r + 1) 0))
      (waveLength L (burst (List.replicate m 0)) + u)
        = wave L (⟨0, 0⟩ :: burst (List.replicate r 0)) u := by
    intro u
    rw [hsplit]
    exact wave_append _ _ u
  have hstart : wave L (⟨0, 0⟩ :: burst (List.replicate r 0)) (m * (6523 - 10 * L)) = false :=
    wave_bit (k := 0) (by dsimp only; omega) (by omega) (by omega)
  obtain ⟨byte, hlead, hbit⟩ := h.last_bit hs hcarries (by rw [hframe, hstart])
  rw [burst_bytes] at hlead
  have hbyte : byte = 0 := List.eq_of_mem_replicate (hlead.subset (by simp))
  rw [Nat.add_assoc (waveLength _ _), hframe, wave_high (by omega) hlate (by dsimp only; omega),
    hbyte] at hbit
  cases hbit

/-- Bursts: `n` bytes back to back are understood, whatever they are, exactly while
the slack of the last one leaves its last sample before the stop bit. -/
theorem understands_burst_iff (hs : s.Ready) (hlow : 616 ≤ L) (hhigh : L ≤ 652) (n : Nat) :
    (∀ bytes : List (BitVec 8), bytes.length = n → Understands s L (burst bytes)) ↔
      (n - 1) * (6523 - 10 * L) + 5543 < 9 * L := by
  constructor
  · intro h
    by_contra hover
    have hexists : ∃ m, 9 * L ≤ m * (6523 - 10 * L) + 5543 := ⟨n - 1, Nat.le_of_not_lt hover⟩
    -- the first frame that is too late
    have hlate := Nat.find_spec hexists
    have hle := Nat.find_min' hexists (Nat.le_of_not_lt hover)
    have hpos : 1 ≤ Nat.find hexists := by
      by_contra hzero
      rw [show Nat.find hexists = 0 by omega, Nat.zero_mul] at hlate
      omega
    have hin := Nat.find_min hexists (show Nat.find hexists - 1 < Nat.find hexists by omega)
    exact not_understands_late hs hlow hhigh hpos (by omega) (Nat.lt_of_not_le hin) hlate
      (h _ List.length_replicate)
  · intro hin bytes hlen
    refine Paced.understands hs (by omega) ?_
    by_cases hne : bytes = []
    · subst hne
      trivial
    · rw [paced_burst_iff hlow hhigh hne, hlen]
      omega

end Received

end DcnnFpga.Uart
