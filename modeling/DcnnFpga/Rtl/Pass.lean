import DcnnFpga.Rtl.TopMvm
import Mathlib.Algebra.Order.Group.Unbundled.Int
import Mathlib.Algebra.Order.Group.Abs
import Mathlib.Algebra.Order.Ring.Int

/-!
# One pass of the accumulator array

A *pass* is the stretch of clocks in which `fsm_gen` stays 1 after a start
pulse. Three register shapes matter outside and inside it:

- `MVM.Quiet`: at rest, ready for a start pulse;
- `MVM.Running W j rem`: `j` clocks of the pass have been enabled, `rem` more
  will be (`W` is the weight magnitude the `DCounter` compares with);
- `MVM.Draining`: the clock after a pass, in which `FSM_16_state` is stopped.

One lemma per shape and start level says what a clock does to the shape, to
`fsm_gen` and to the lanes. The selector lags the enable by one clock, so the
`j`-th enabled clock of *every* pass samples bit `passSel j`, where
`passSel 0 = passSel 1 = 7`.
-/

namespace DcnnFpga.Rtl

open NumTransformer

/-- The weight magnitude, i.e. what `DCounter` counts to. -/
def mag (w : BitVec 8) : Nat := (oWtNumTran w).toNat

/-- The number of enabled clocks of a pass. A zero weight still gets one: the
start pulse raises `gen_w` before `DCounter` has a say. -/
def passLen (w : BitVec 8) : Nat := max 1 (mag w)

/-- The bit position sampled in the `j`-th enabled clock of a pass. -/
def passSel (j : Nat) : Nat := FSM16State.sel (BitVec.ofNat 8 (j - 1))

theorem mag_le (w : BitVec 8) : mag w ≤ 128 := by
  revert w
  decide

theorem passLen_pos (w : BitVec 8) : 1 ≤ passLen w := Nat.le_max_left ..

theorem passLen_le (w : BitVec 8) : passLen w ≤ 128 :=
  Nat.max_le.mpr ⟨by decide, mag_le w⟩

/-- What the `j`-th enabled clock adds to a lane. -/
def sample (x w : BitVec 8) (j : Nat) : Int :=
  if w.msb ^^ mux4to1 (passSel j) (oXNumTran x) then 1 else -1

/-- What the first `k` enabled clocks of a pass add to a lane. -/
def streak (x w : BitVec 8) : Nat → Int
  | 0 => 0
  | k + 1 => streak x w k + sample x w k

theorem sample_abs (x w : BitVec 8) (j : Nat) : |sample x w j| = 1 := by
  rw [sample]
  split <;> rfl

/-- A lane moves by at most one per enabled clock. -/
theorem streak_abs_le (x w : BitVec 8) (k : Nat) : |streak x w k| ≤ k := by
  induction k with
  | zero => exact le_of_eq rfl
  | succ k ih =>
    calc |streak x w k + sample x w k|
        ≤ |streak x w k| + |sample x w k| := abs_add_le _ _
      _ ≤ k + 1 := by rw [sample_abs]; exact Int.add_le_add_right ih 1
      _ = (k + 1 : Nat) := (Nat.cast_succ k).symm

namespace MVM

/-- One clock with the operands as `TOP_MVM` presents them. -/
def drive (m : MVM) (rst start : Bool) (x : Fin DIM → BitVec 8) (w : BitVec 8) : MVM :=
  m.clock rst start w.msb (fun i => oXNumTran (x i)) (oWtNumTran w)

/-! ## A single pass from the cleared state -/

/-- Clock on with the start pulse gone for as long as `o_ismvm` is raised. -/
def finish (x w : BitVec 8) : Nat → MVM → MVM
  | 0, m => m
  | fuel + 1, m =>
    if m.fsmGen false (oWtNumTran w) then
      finish x w fuel (m.drive false false (fun _ => x) w)
    else m

/-- A single pass: cleared by `i_rst_mvm`, one clock of `i_start_mvm`, and then
clocks without it until the enable falls. -/
def singlePass (x w : BitVec 8) : MVM :=
  finish x w 256 (cleared.drive false true (fun _ => x) w)

end MVM

/-- `g x w`: the count a lane holds after a single pass from the cleared state. -/
def g (x w : BitVec 8) : Int := ((MVM.singlePass x w).oWxResult 0).toInt

namespace MVM

/-! ## Register shapes -/

/-- At rest: a start pulse begins a pass from its first sample. -/
structure Quiet (m : MVM) : Prop where
  state : m.fsmMux.currentStateR = .idle
  start : m.fsmMux.startFsmR = false
  fsm : m.fsmMux.fsm = FSM16State.cleared
  dcounter : m.dcounter = DCounter.cleared

/-- In a pass: `j` clocks enabled so far, `rem` still to come. -/
structure Running (m : MVM) (W : BitVec 8) (j rem : Nat) : Prop where
  pos : 1 ≤ j
  bound : j + rem ≤ 200
  state : m.fsmMux.currentStateR = .gen
  counter : m.fsmMux.counterR = BitVec.ofNat 8 (j - 1)
  start : m.fsmMux.startFsmR = decide (j = 1)
  stop : m.fsmMux.stopFsmR = false
  fsm : m.fsmMux.fsm =
    if j = 1 then FSM16State.cleared else ⟨BitVec.ofNat 8 (j - 2), true⟩
  dstart : m.dcounter.startR = decide (W ≠ 0)
  dcount : m.dcounter.counterR.toNat + rem + 1 = max 1 W.toNat

/-- The clock after a pass: the enable is down, `FSM_16_state` not yet. -/
structure Draining (m : MVM) : Prop where
  state : m.fsmMux.currentStateR = .idle
  start : m.fsmMux.startFsmR = false
  stop : m.fsmMux.stopFsmR = true
  fsm : m.fsmMux.fsm.startR = true
  dcounter : m.dcounter = DCounter.cleared

/-- The lanes of `m'` are those of `m`. -/
def Held (m m' : MVM) : Prop := ∀ i, m'.oWxResult i = m.oWxResult i

/-- The lanes of `m'` are those of `m` plus the `j`-th sample of a pass. -/
def Sampled (m m' : MVM) (x : Fin DIM → BitVec 8) (w : BitVec 8) (j : Nat) : Prop :=
  ∀ i, m'.oWxResult i = m.oWxResult i + BitVec.ofInt 16 (sample (x i) w j)

theorem quiet_cleared : Quiet cleared := ⟨rfl, rfl, rfl, rfl⟩

/-- `i_rst_mvm` wins over everything else in the clock. -/
@[simp] theorem drive_reset (m : MVM) (start : Bool) (x : Fin DIM → BitVec 8)
    (w : BitVec 8) : m.drive true start x w = cleared := rfl

theorem drive_fsmMux (m : MVM) (start : Bool) (x : Fin DIM → BitVec 8) (w : BitVec 8) :
    (m.drive false start x w).fsmMux =
      { m.fsmMux.next start (m.fsmMuxStop start (oWtNumTran w)) with
        fsm := m.fsmMux.fsm.next m.fsmMux.startFsmR m.fsmMux.stopFsmR } := rfl

theorem drive_dcounter (m : MVM) (start : Bool) (x : Fin DIM → BitVec 8) (w : BitVec 8) :
    (m.drive false start x w).dcounter = m.dcounter.next start (oWtNumTran w) := rfl

/-! ## Lanes -/

/-- A clock without the enable leaves the lanes alone. -/
theorem held_of_not_gen {m : MVM} {start : Bool} {x : Fin DIM → BitVec 8}
    {w : BitVec 8} (h : m.fsmGen start (oWtNumTran w) = false) :
    Held m (m.drive false start x w) := by
  intro i
  simp [drive, clock, oWxResult, UpDCounter.clock, UpDCounter.next, h]

/-- A clock with the enable takes the sample the selector points at. -/
theorem sampled_of_gen {m : MVM} {start : Bool} {x : Fin DIM → BitVec 8}
    {w : BitVec 8} {j : Nat} (h : m.fsmGen start (oWtNumTran w) = true)
    (hsel : m.fsmMux.sel = passSel j) :
    Sampled m (m.drive false start x w) x w j := by
  intro i
  have hbit : m.fsmMux.oSnBit (oXNumTran (x i)) = mux4to1 (passSel j) (oXNumTran (x i)) := by
    rw [FSMMux.oSnBit, hsel]
  simp only [drive, clock, oWxResult, UpDCounter.clock, UpDCounter.next, h, hbit, sample]
  cases w.msb ^^ mux4to1 (passSel j) (oXNumTran (x i)) with
  | true => simp
  | false => simp [BitVec.sub_eq_add_neg]

/-! ## The selector -/

theorem Quiet.sel_eq {m : MVM} (h : Quiet m) : m.fsmMux.sel = passSel 0 := by
  rw [FSMMux.sel, h.start, h.fsm]
  cases m.fsmMux.stopFsmR <;> rfl

/-- Inside a pass the selector stands one step behind the enable. -/
theorem Running.sel_eq {m : MVM} {W : BitVec 8} {j rem : Nat} (h : Running m W j rem) :
    m.fsmMux.sel = passSel j := by
  have hpos := h.pos
  rw [FSMMux.sel, h.start, h.stop, h.fsm]
  by_cases hj : j = 1
  · subst hj
    rfl
  · rw [if_neg hj, decide_eq_false hj]
    show FSM16State.sel (BitVec.ofNat 8 (j - 2) + 1) = FSM16State.sel (BitVec.ofNat 8 (j - 1))
    rw [show j - 1 = (j - 2) + 1 by omega, BitVec.ofNat_add]
    rfl

/-! ## What a clock does to each shape -/

section Clocks

variable {m : MVM} {x : Fin DIM → BitVec 8} {w : BitVec 8} {j rem : Nat}

theorem Quiet.fsmGen_rest (h : Quiet m) (W : BitVec 8) : m.fsmGen false W = false := by
  rw [fsmGen, FSMMux.oIsgen, FSMMux.next_idle_rest h.state]

/-- Without a start pulse a quiet array stays quiet. -/
theorem Quiet.rest (h : Quiet m) : Quiet (m.drive false false x w) where
  state := by rw [drive_fsmMux, FSMMux.next_idle_rest h.state]; exact h.state
  start := by rw [drive_fsmMux, FSMMux.next_idle_rest h.state]; exact h.start
  fsm := by
    rw [drive_fsmMux, h.start, h.fsm]
    cases m.fsmMux.stopFsmR <;> rfl
  dcounter := by
    rw [drive_dcounter, h.dcounter]
    exact DCounter.next_idle rfl _

/-- `gen_w` goes up with the start pulse itself, whatever the weight. -/
theorem Quiet.fsmGen_start (h : Quiet m) (W : BitVec 8) : m.fsmGen true W = true := by
  rw [fsmGen, FSMMux.oIsgen, FSMMux.next_idle_start h.state]

/-- A start pulse enables the first clock of a pass. -/
theorem Quiet.begin (h : Quiet m) :
    Running (m.drive false true x w) (oWtNumTran w) 1 (passLen w - 1) where
  pos := Nat.le_refl 1
  bound := by
    have := passLen_le w
    omega
  state := by rw [drive_fsmMux, FSMMux.next_idle_start h.state]
  counter := by rw [drive_fsmMux, FSMMux.next_idle_start h.state]; rfl
  start := by rw [drive_fsmMux, FSMMux.next_idle_start h.state]; rfl
  stop := by rw [drive_fsmMux, FSMMux.next_idle_start h.state]
  fsm := by
    rw [drive_fsmMux, h.start, h.fsm]
    cases m.fsmMux.stopFsmR <;> rfl
  dstart := by rw [drive_dcounter, DCounter.next_start]
  dcount := by
    rw [drive_dcounter, DCounter.next_start, h.dcounter]
    show 0 + (max 1 (oWtNumTran w).toNat - 1) + 1 = _
    omega

/-- `stop` wins in the `GEN` state: the enable falls and the array drains. -/
theorem Running.drain {W : BitVec 8} {start : Bool} (h : Running m W j rem)
    (hW : oWtNumTran w = W) (hnext : m.dcounter.next start W = DCounter.cleared) :
    m.fsmGen start W = false ∧ Draining (m.drive false start x w) := by
  subst hW
  have hstop : m.fsmMuxStop start (oWtNumTran w) = true := by
    rw [fsmMuxStop, DCounter.oCount, hnext]
    rfl
  have hmux := FSMMux.next_gen_stop h.state start
  refine ⟨by rw [fsmGen, FSMMux.oIsgen, hstop, hmux], ?_⟩
  refine { state := ?_, start := ?_, stop := ?_, fsm := ?_, dcounter := ?_ }
  · rw [drive_fsmMux, hstop, hmux]
  · rw [drive_fsmMux, hstop, hmux]
  · rw [drive_fsmMux, hstop, hmux]
  · -- the selector is running: by now it was started, and not yet stopped
    rw [drive_fsmMux, h.start, h.stop, h.fsm]
    by_cases hj : j = 1 <;> simp [hj, FSM16State.next]
  · rw [drive_dcounter, hnext]

/-- Without `stop` the pass goes on for one more enabled clock. -/
theorem Running.advance {W : BitVec 8} {start : Bool} {rem' : Nat}
    (h : Running m W j rem) (hW : oWtNumTran w = W) (hne : W ≠ 0)
    (hbound : j + 1 + rem' ≤ 200)
    (hstart : (m.dcounter.next start W).startR = true)
    (hcount : (m.dcounter.next start W).counterR.toNat + rem' + 1 = max 1 W.toNat) :
    m.fsmGen start W = true ∧ Running (m.drive false start x w) W (j + 1) rem' ∧
      Sampled m (m.drive false start x w) x w j := by
  subst hW
  have hpos := h.pos
  have hstop : m.fsmMuxStop start (oWtNumTran w) = false := by
    rw [fsmMuxStop, DCounter.oCount, hstart]
    rfl
  have hlt : m.fsmMux.counterR.toNat < 255 := by
    rw [h.counter, BitVec.toNat_ofNat]
    omega
  have hmux := FSMMux.next_gen_go h.state hlt start
  have hgen : m.fsmGen start (oWtNumTran w) = true := by
    rw [fsmGen, FSMMux.oIsgen, hstop, hmux]
  refine ⟨hgen, ?_, sampled_of_gen hgen h.sel_eq⟩
  refine { pos := by omega, bound := hbound, state := ?_, counter := ?_, start := ?_,
           stop := ?_, fsm := ?_, dstart := ?_, dcount := ?_ }
  · rw [drive_fsmMux, hstop, hmux]
    exact h.state
  · rw [drive_fsmMux, hstop, hmux]
    show m.fsmMux.counterR + 1 = BitVec.ofNat 8 (j + 1 - 1)
    rw [h.counter, show j + 1 - 1 = (j - 1) + 1 by omega, BitVec.ofNat_add]
    rfl
  · rw [drive_fsmMux, hstop, hmux, decide_eq_false (by omega)]
  · rw [drive_fsmMux, hstop, hmux]
    exact h.stop
  · -- the first clock of a pass starts the selector, the later ones step it
    rw [drive_fsmMux, h.start, h.stop, h.fsm, if_neg (by omega : ¬ j + 1 = 1)]
    by_cases hj : j = 1
    · subst hj
      rfl
    · rw [if_neg hj, decide_eq_false hj]
      show FSM16State.mk (BitVec.ofNat 8 (j - 2) + 1) true = ⟨BitVec.ofNat 8 (j + 1 - 2), true⟩
      rw [show j + 1 - 2 = (j - 2) + 1 by omega, BitVec.ofNat_add]
      rfl
  · rw [drive_dcounter, hstart, decide_eq_true hne]
  · rw [drive_dcounter]
    exact hcount

/-- `DCounter` stops the pass in the clock after its last enabled one. -/
theorem Running.last {W : BitVec 8} (h : Running m W j 0) (hW : oWtNumTran w = W) :
    m.fsmGen false W = false ∧ Draining (m.drive false false x w) := by
  refine h.drain hW ?_
  have hcount := h.dcount
  by_cases hz : W = 0
  · -- a zero weight never armed the counter
    subst hz
    rw [DCounter.next_idle (by rw [h.dstart]; rfl)]
    have hc : m.dcounter.counterR = 0 := by
      apply BitVec.eq_of_toNat_eq
      simpa using hcount
    calc m.dcounter = ⟨m.dcounter.counterR, m.dcounter.startR⟩ := rfl
      _ = DCounter.cleared := by rw [hc, h.dstart]; rfl
  · refine DCounter.next_last (by rw [h.dstart, decide_eq_true hz]) ?_
    apply BitVec.eq_of_toNat_eq
    rw [DCounter.toNat_num hz]
    omega

/-- While samples remain, each clock without a start pulse takes the next one. -/
theorem Running.step {W : BitVec 8} (h : Running m W j (rem + 1)) (hW : oWtNumTran w = W) :
    m.fsmGen false W = true ∧ Running (m.drive false false x w) W (j + 1) rem ∧
      Sampled m (m.drive false false x w) x w j := by
  have hcount := h.dcount
  have hlt := W.isLt
  have hne : W ≠ 0 := by
    rintro rfl
    simp at hcount
  have hn : m.dcounter.counterR ≠ DCounter.num W := by
    intro hc
    rw [hc, DCounter.toNat_num hne] at hcount
    omega
  have hnext := DCounter.next_count (by rw [h.dstart, decide_eq_true hne]) hn
  have hadd : (m.dcounter.counterR + 1).toNat = m.dcounter.counterR.toNat + 1 := by
    rw [BitVec.toNat_add]
    show (_ + 1) % 2 ^ 8 = _
    omega
  have hb := h.bound
  refine h.advance hW hne (by omega) (by rw [hnext]) ?_
  rw [hnext, hadd]
  omega

/-- A start pulse held for a second clock makes a pass of a non-zero weight one
sample longer: `DCounter` does not count in that clock. -/
theorem Running.restart {W : BitVec 8} (h : Running m W 1 rem) (hW : oWtNumTran w = W)
    (hne : W ≠ 0) :
    m.fsmGen true W = true ∧ Running (m.drive false true x w) W 2 rem ∧
      Sampled m (m.drive false true x w) x w 1 := by
  have hcount := h.dcount
  have hle : W.toNat ≤ 128 := hW ▸ mag_le w
  refine h.advance hW hne (by omega) ?_ ?_
  · rw [DCounter.next_start]
    exact decide_eq_true hne
  · rw [DCounter.next_start]
    exact hcount

/-- With a zero weight the second clock of a start pulse ends the pass. -/
theorem Running.restart_zero (h : Running m 0 1 rem) (hW : oWtNumTran w = 0) :
    m.fsmGen true 0 = false ∧ Draining (m.drive false true x w) := by
  refine h.drain hW ?_
  have hcount := h.dcount
  have hc : m.dcounter.counterR = 0 := by
    apply BitVec.eq_of_toNat_eq
    simp at hcount
    simp
    omega
  rw [DCounter.next_start, hc]
  rfl

theorem Draining.fsmGen_rest (h : Draining m) (W : BitVec 8) : m.fsmGen false W = false := by
  rw [fsmGen, FSMMux.oIsgen, FSMMux.next_idle_rest h.state]

/-- One clock after a pass the array is quiet again. -/
theorem Draining.quiet (h : Draining m) : Quiet (m.drive false false x w) where
  state := by rw [drive_fsmMux, FSMMux.next_idle_rest h.state]; exact h.state
  start := by rw [drive_fsmMux, FSMMux.next_idle_rest h.state]; exact h.start
  fsm := by
    rw [drive_fsmMux, h.start, h.stop]
    simp [FSM16State.next, h.fsm, FSM16State.cleared]
  dcounter := by
    rw [drive_dcounter, h.dcounter]
    exact DCounter.next_idle rfl _

/-- Outside a pass the enable stays down without a start pulse. -/
theorem fsmGen_at_rest (h : Quiet m ∨ Draining m) (W : BitVec 8) : m.fsmGen false W = false := by
  rcases h with hq | hd
  · exact hq.fsmGen_rest W
  · exact hd.fsmGen_rest W

/-- And the array is quiet one clock later. -/
theorem quiet_after_rest (h : Quiet m ∨ Draining m) : Quiet (m.drive false false x w) := by
  rcases h with hq | hd
  · exact hq.rest
  · exact hd.quiet

end Clocks

/-! ## The whole pass -/

/-- From inside a pass, `finish` adds exactly the remaining samples and stops
with the enable down. -/
theorem Running.finish {m : MVM} {x w : BitVec 8} {j rem fuel : Nat}
    (h : Running m (oWtNumTran w) j rem) (hfuel : rem < fuel) :
    (finish x w fuel m).fsmGen false (oWtNumTran w) = false ∧
      ∀ i, (finish x w fuel m).oWxResult i =
        m.oWxResult i + BitVec.ofInt 16 (streak x w (j + rem) - streak x w j) := by
  induction rem generalizing m j fuel with
  | zero =>
    obtain ⟨fuel, rfl⟩ := Nat.exists_eq_succ_of_ne_zero (Nat.ne_of_gt hfuel)
    -- nothing left: the enable is down, and `finish` stops
    obtain ⟨hgen, -⟩ := h.last (x := fun _ => x) rfl
    rw [MVM.finish, if_neg (by simp [hgen])]
    refine ⟨hgen, fun i => ?_⟩
    rw [Nat.add_zero, Int.sub_self, BitVec.ofInt_ofNat]
    exact (BitVec.add_zero _).symm
  | succ rem ih =>
    obtain ⟨fuel, rfl⟩ := Nat.exists_eq_succ_of_ne_zero (Nat.ne_of_gt (Nat.zero_lt_of_lt hfuel))
    -- one sample in this clock, the others by induction
    obtain ⟨hgen, hrun, hlane⟩ := h.step (x := fun _ => x) rfl
    obtain ⟨hdone, hrest⟩ := ih hrun (Nat.lt_of_succ_lt_succ hfuel)
    rw [MVM.finish, if_pos hgen]
    refine ⟨hdone, fun i => ?_⟩
    rw [hrest, hlane, BitVec.add_assoc, ← BitVec.ofInt_add]
    congr 2
    rw [show j + 1 + rem = j + (rem + 1) by omega, streak]
    show sample x w j + (_ - (_ + sample x w j)) = _
    omega

/-- A single pass ends within its fuel, with the enable down. -/
theorem singlePass_spec (x w : BitVec 8) :
    (singlePass x w).fsmGen false (oWtNumTran w) = false ∧
      ∀ i, (singlePass x w).oWxResult i = BitVec.ofInt 16 (streak x w (passLen w)) := by
  have hlen := passLen_le w
  have hpos := passLen_pos w
  -- the clock of the start pulse takes sample 0, `finish` takes the rest
  have hlane : Sampled cleared (cleared.drive false true (fun _ => x) w) (fun _ => x) w 0 :=
    sampled_of_gen (quiet_cleared.fsmGen_start _) quiet_cleared.sel_eq
  obtain ⟨hdone, hrest⟩ := Running.finish (x := x)
    (quiet_cleared.begin (x := fun _ => x) (w := w)) (show passLen w - 1 < 256 by omega)
  refine ⟨hdone, fun i => ?_⟩
  rw [singlePass, hrest, hlane, ← Nat.add_sub_assoc hpos, Nat.add_sub_cancel_left]
  show 0#16 + BitVec.ofInt 16 (sample x w 0) + _ = _
  rw [BitVec.zero_add, ← BitVec.ofInt_add]
  congr 1
  show sample x w 0 + (streak x w (passLen w) - (0 + sample x w 0)) = _
  omega

end MVM

/-- The count of a single pass is the sum of its samples. -/
theorem g_eq_streak (x w : BitVec 8) : g x w = streak x w (passLen w) := by
  have habs := abs_le.mp (streak_abs_le x w (passLen w))
  have hlen := passLen_le w
  rw [g, (MVM.singlePass_spec x w).2, BitVec.toInt_ofInt]
  exact Int.bmod_eq_of_le (by omega) (by omega)

theorem g_abs_le (x w : BitVec 8) : |g x w| ≤ 128 := by
  rw [g_eq_streak]
  exact (streak_abs_le x w _).trans (by exact_mod_cast passLen_le w)

/-- Two zero operands do not cancel: the start pulse alone counts the top bit. -/
theorem g_zero_zero : g 0 0 = 1 := by decide

end DcnnFpga.Rtl
