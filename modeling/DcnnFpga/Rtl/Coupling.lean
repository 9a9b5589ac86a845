import DcnnFpga.Rtl.Ledger

/-!
# The composed design follows the ledger

`Coupled a s n` relates the ledger `a` of the transfers accepted so far to the
registers `s` of all modules, with `n` a bound on the clocks until `test_slave`
is in `IDLE` again. There is one constructor per state of `test_slave`; where a
product is being accumulated, the state of `TOP_MVM` decides how much of it the
lanes still *owe* to the ledger:

- `Launched`: the clock after the start (`test_slave` in `WAIT`). The first
  vector of a group of 128 is still before its pass, every later one is in it.
- `Passing`: the clocks after that (`test_slave` in `DONE`), until `TOP_MVM` is
  in `DUMMY` and `isAcc` lets `test_slave` go.

`coupled_clock` is the step lemma: every clock keeps the relation, with the
ledger reading the transfers of that clock, and a clock outside `IDLE` lowers the
bound. Everything about runs follows from it.
-/

namespace DcnnFpga.Rtl

open NumTransformer MVM

namespace TopMvm

/-! ## What a clock of the sequencer does -/

section Clocks

variable {t : TopMvm} {rst start : Bool} {mat : Matrix}

/-- The enable as the sequencer sees it. -/
def gen (t : TopMvm) (start : Bool) (mat : Matrix) : Bool :=
  t.mvm.fsmGen start (oWtNumTran (iWt mat))

theorem clock_idle_start (h : t.currentStateR = .idle) :
    t.clock false rst true mat =
      ⟨.wait, 0, true, t.mvm.drive rst true (iXVector mat) (iWt mat)⟩ := by
  simp [clock, mvmClock, drive, currentStateW, counterW, startMvmW, h]

theorem clock_idle_rest (h : t.currentStateR = .idle) (hs : t.startMvmR = false) :
    t.clock false rst false mat =
      ⟨.idle, t.counterR, false, t.mvm.drive rst false (iXVector mat) (iWt mat)⟩ := by
  simp [clock, mvmClock, drive, currentStateW, counterW, startMvmW, h, hs]

theorem clock_wait (h : t.currentStateR = .wait) (hs : t.startMvmR = true) :
    t.clock false rst start mat =
      ⟨.cal, t.counterR, true, t.mvm.drive rst true (iXVector mat) (iWt mat)⟩ := by
  simp [clock, mvmClock, drive, currentStateW, counterW, startMvmW, h, hs]

/-- While the enable is up the sequencer stays in `CAL`. -/
theorem clock_cal_gen (h : t.currentStateR = .cal) (hg : t.gen false mat = true) :
    t.clock false rst start mat =
      ⟨.cal, t.counterR, false, t.mvm.drive rst false (iXVector mat) (iWt mat)⟩ := by
  rw [gen] at hg
  simp [clock, mvmClock, drive, currentStateW, counterW, startMvmW, isMvm, h, hg]

/-- In the clock in which it falls the vector is counted. -/
theorem clock_cal_done (h : t.currentStateR = .cal) (hg : t.gen false mat = false) :
    t.clock false rst start mat =
      ⟨.dummy, t.counterR + 1, false, t.mvm.drive rst false (iXVector mat) (iWt mat)⟩ := by
  rw [gen] at hg
  simp [clock, mvmClock, drive, currentStateW, counterW, startMvmW, isMvm, h, hg]

theorem clock_dummy_start (h : t.currentStateR = .dummy) (hc : t.counterR ≠ NUM_VECTOR) :
    t.clock false rst true mat =
      ⟨.cal, t.counterR, true, t.mvm.drive rst true (iXVector mat) (iWt mat)⟩ := by
  simp [clock, mvmClock, drive, currentStateW, counterW, startMvmW, h, hc]

theorem clock_dummy_rest (h : t.currentStateR = .dummy) (hs : t.startMvmR = false) :
    t.clock false rst false mat =
      ⟨if t.counterR = NUM_VECTOR then .idle else .dummy, t.counterR, false,
        t.mvm.drive rst false (iXVector mat) (iWt mat)⟩ := by
  simp [clock, mvmClock, drive, currentStateW, counterW, startMvmW, h, hs]

end Clocks

/-- Between vectors, `k` of them counted since reset. -/
structure Resting (t : TopMvm) (k : Nat) : Prop where
  start : t.startMvmR = false
  state : if k % 128 = 0 then t.currentStateR = .idle
    else t.currentStateR = .dummy ∧ t.counterR = BitVec.ofNat 15 (k % 128)

/-- Inside a group the sequencer's counter is short of its target. -/
theorem Resting.counterR_ne {t : TopMvm} {k : Nat} (h : t.Resting k) (hk : k % 128 ≠ 0) :
    t.counterR ≠ NUM_VECTOR := by
  have hstate := h.state
  rw [if_neg hk] at hstate
  intro heq
  have hval := congrArg BitVec.toNat (hstate.2.symm.trans heq)
  rw [BitVec.toNat_ofNat, NUM_VECTOR] at hval
  have h128 : (128 : BitVec 15).toNat = 128 := rfl
  omega

end TopMvm

/-- The lanes still lack `k r` of what the ledger has for them. -/
def Owes (y : Fin DIM → BitVec 16) (m : MVM) (k : Fin DIM → Int) : Prop :=
  ∀ r, y r = m.oWxResult r + BitVec.ofInt 16 (k r)

/-- The samples `from ..< to` of a pass over the operands `mat`. -/
def samples (mat : Matrix) (a b : Nat) (r : Fin DIM) : Int :=
  streak (TopMvm.iXVector mat r) (TopMvm.iWt mat) b -
    streak (TopMvm.iXVector mat r) (TopMvm.iWt mat) a

theorem samples_self (mat : Matrix) (k : Nat) (r : Fin DIM) : samples mat k k r = 0 :=
  Int.sub_self _

theorem Owes.held {y : Fin DIM → BitVec 16} {m m' : MVM} {k : Fin DIM → Int}
    (h : Owes y m k) (hh : Held m m') : Owes y m' k := by
  intro r
  rw [h r, hh r]

/-- A sample taken is a sample less owed. -/
theorem Owes.sampled {y : Fin DIM → BitVec 16} {m m' : MVM} {mat : Matrix} {a b : Nat}
    (h : Owes y m (samples mat a b))
    (hs : Sampled m m' (TopMvm.iXVector mat) (TopMvm.iWt mat) a) :
    Owes y m' (samples mat (a + 1) b) := by
  intro r
  rw [h r, hs r, BitVec.add_assoc, ← BitVec.ofInt_add]
  congr 2
  show _ - _ = sample _ _ a + (_ - (_ + sample _ _ a))
  omega

/-- The clock after the start of the last vector, `test_slave` in `WAIT`. -/
inductive Launched (a : Ledger) (t : TopMvm) : Nat → Prop
  /-- the long route: the pass begins in this clock -/
  | first : t.currentStateR = .wait → Quiet t.mvm →
      Owes a.y t.mvm (samples a.mat 0 (passLen (TopMvm.iWt a.mat))) →
      Launched a t (passLen (TopMvm.iWt a.mat) + 2)
  /-- the short route: the pass has begun -/
  | later (rem : Nat) : t.currentStateR = .cal →
      Running t.mvm (oWtNumTran (TopMvm.iWt a.mat)) 1 rem →
      Owes a.y t.mvm (samples a.mat 1 (1 + rem)) → Launched a t (rem + 2)
  /-- the short route with a clear: the start pulse is gone -/
  | lost : t.currentStateR = .cal → Quiet t.mvm → Owes a.y t.mvm (fun _ => 0) →
      Launched a t 2
  /-- the long route without a clear: the pass has begun and the pulse is still up -/
  | doubled (rem : Nat) : t.currentStateR = .wait →
      Running t.mvm (oWtNumTran (TopMvm.iWt a.mat)) 1 rem →
      rem + 1 = passLen (TopMvm.iWt a.mat) →
      Owes a.y t.mvm
        (samples a.mat 1 (if mag (TopMvm.iWt a.mat) = 0 then 1 else 2 + rem)) →
      Launched a t (rem + 3)

/-- The clocks after that, `test_slave` in `DONE`. -/
inductive Passing (a : Ledger) (t : TopMvm) : Nat → Prop
  | running (j rem : Nat) : t.currentStateR = .cal →
      t.counterR = BitVec.ofNat 15 ((a.completed - 1) % 128) →
      Running t.mvm (oWtNumTran (TopMvm.iWt a.mat)) j rem →
      Owes a.y t.mvm (samples a.mat j (j + rem)) → Passing a t (rem + 2)
  /-- the pass is over before `TOP_MVM` has looked at the enable -/
  | drained : t.currentStateR = .cal →
      t.counterR = BitVec.ofNat 15 ((a.completed - 1) % 128) →
      Draining t.mvm → Owes a.y t.mvm (fun _ => 0) → Passing a t 2
  | finished : t.currentStateR = .dummy → t.startMvmR = false →
      t.counterR = BitVec.ofNat 15 ((a.completed - 1) % 128 + 1) →
      (Quiet t.mvm ∨ Draining t.mvm) → Owes a.y t.mvm (fun _ => 0) → Passing a t 1

/-- Between vectors: the sequencer rests, and once settled the array is quiet
and holds the ledger's accumulators. -/
structure Rest (a : Ledger) (t : TopMvm) : Prop where
  top : t.Resting a.completed
  quiet : a.settled = true → Quiet t.mvm
  lanes : a.settled = true → ∀ r, a.y r = t.mvm.oWxResult r
  fresh : a.settled = false → a.completed = 0 ∧ a.vectors = 0

/-- The bus counters and the operand buffer. -/
structure Counters (a : Ledger) (s : TestSlave) (dim rd : Nat) (vec : BitVec 10) : Prop where
  dim : s.dimCounterR = BitVec.ofNat 10 dim
  rd : s.readCounterR = BitVec.ofNat 10 rd
  vec : s.vectorCounterR = vec
  mat : s.matrixR = a.mat

/-- What is left of a pass is shorter than a pass. -/
theorem rem_lt_passLen {m : MVM} {w : BitVec 8} {j rem : Nat}
    (h : Running m (oWtNumTran w) j rem) : rem < passLen w := by
  have hcount := h.dcount
  rw [passLen, mag]
  omega

theorem Launched.bound_le {a : Ledger} {t : TopMvm} {n : Nat} (h : Launched a t n) :
    n ≤ 130 := by
  have hlen := passLen_le (TopMvm.iWt a.mat)
  cases h with
  | first _ _ _ => omega
  | later rem _ hrun _ =>
    have := rem_lt_passLen hrun
    omega
  | lost _ _ _ => omega
  | doubled rem _ hrun _ _ =>
    have := rem_lt_passLen hrun
    omega

theorem Passing.bound_le {a : Ledger} {t : TopMvm} {n : Nat} (h : Passing a t n) :
    n ≤ 129 := by
  have hlen := passLen_le (TopMvm.iWt a.mat)
  cases h with
  | running j rem _ _ hrun _ =>
    have := rem_lt_passLen hrun
    omega
  | drained _ _ _ _ => omega
  | finished _ _ _ _ _ => omega

/-- The relation between ledger and registers; see the head of this file. -/
inductive Coupled (a : Ledger) (s : TestSlave) : Nat → Prop
  | idle : s.currentStateR = .idle → s.matStartR = false →
      Counters a s (a.writes % 65) (a.reads % 128) (BitVec.ofNat 10 a.vectors) →
      Rest a s.topMvm → Coupled a s 0
  | send : s.currentStateR = .send → s.matStartR = false → 0 < a.reads →
      Counters a s (a.writes % 65) ((a.reads - 1) % 128) (BitVec.ofNat 10 a.vectors) →
      Rest a s.topMvm → Coupled a s 1
  /-- a write inside a vector has been taken -/
  | get : s.currentStateR = .get → s.matStartR = false → a.writes % 65 ≠ 0 →
      Counters a s (a.writes % 65 - 1) (a.reads % 128) (BitVec.ofNat 10 a.vectors) →
      Rest a s.topMvm → Coupled a s 1
  /-- the last write of a vector has been taken: the ledger has its product,
  the array is about to start -/
  | full (vec : BitVec 10) : s.currentStateR = .get → s.matStartR = false →
      a.writes % 65 = 0 → 0 < a.writes → a.settled = true →
      Counters a s 64 (a.reads % 128) vec → vec + 1 = BitVec.ofNat 10 a.vectors →
      s.topMvm.Resting (a.completed - 1) → (vec ≠ 0 → Quiet s.topMvm.mvm) →
      (∀ r, a.y r = (if vec = 0 then 0 else s.topMvm.mvm.oWxResult r) +
        BitVec.ofInt 16 (Ledger.contribution (vec == 0) ((a.completed - 1) % 128 == 0)
          (TopMvm.iXVector a.mat r) (TopMvm.iWt a.mat))) →
      Coupled a s (passLen (TopMvm.iWt a.mat) + 3)
  | wait (n : Nat) : s.currentStateR = .wait → s.matStartR = true →
      a.writes % 65 = 0 → 0 < a.writes → a.settled = true →
      Counters a s 0 (a.reads % 128) (BitVec.ofNat 10 a.vectors) →
      s.topMvm.startMvmR = true →
      s.topMvm.counterR = BitVec.ofNat 15 ((a.completed - 1) % 128) →
      Launched a s.topMvm n → Coupled a s n
  | done (n : Nat) : s.currentStateR = .done → a.writes % 65 = 0 → 0 < a.writes →
      a.settled = true →
      Counters a s 0 (a.reads % 128) (BitVec.ofNat 10 a.vectors) →
      Passing a s.topMvm n → Coupled a s n

/-- In `IDLE` there is no start pulse, the bus counters stand at the positions of
the next transfers, and the sequencer rests. -/
theorem Coupled.at_idle {a : Ledger} {s : TestSlave} {n : Nat} (h : Coupled a s n)
    (hs : s.currentStateR = .idle) :
    s.matStartR = false ∧
      Counters a s (a.writes % 65) (a.reads % 128) (BitVec.ofNat 10 a.vectors) ∧
      Rest a s.topMvm := by
  cases h with
  | idle _ hm hc hr => exact ⟨hm, hc, hr⟩
  | send h _ _ _ _ => rw [hs] at h; cases h
  | get h _ _ _ _ => rw [hs] at h; cases h
  | full _ h _ _ _ _ _ _ _ _ _ => rw [hs] at h; cases h
  | wait _ h _ _ _ _ _ _ _ _ => rw [hs] at h; cases h
  | done _ h _ _ _ _ _ => rw [hs] at h; cases h

/-- The slave is never busy for longer than the longest pass and its handshake. -/
theorem Coupled.bound_le {a : Ledger} {s : TestSlave} {n : Nat} (h : Coupled a s n) :
    n ≤ 131 := by
  have hlen := passLen_le (TopMvm.iWt a.mat)
  cases h with
  | idle _ _ _ _ => omega
  | send _ _ _ _ _ => omega
  | get _ _ _ _ _ => omega
  | full _ _ _ _ _ _ _ _ _ _ _ => omega
  | wait _ _ _ _ _ _ _ _ _ hl => exact hl.bound_le.trans (by omega)
  | done _ _ _ _ _ _ hp => exact hp.bound_le.trans (by omega)

/-! ## The sequencer, phase by phase -/

theorem completed_pos {a : Ledger} (hw : a.writes % 65 = 0) (hpos : 0 < a.writes) :
    0 < a.completed := by
  rw [Ledger.completed]
  omega

section Sequencer

variable {a : Ledger} {t : TopMvm} {start : Bool}

/-- A clock of `CAL` inside a pass: one more sample, or the end of the pass. -/
theorem running_clock {j rem : Nat} (h : t.currentStateR = .cal)
    (hc : t.counterR = BitVec.ofNat 15 ((a.completed - 1) % 128))
    (hrun : Running t.mvm (oWtNumTran (TopMvm.iWt a.mat)) j rem)
    (ho : Owes a.y t.mvm (samples a.mat j (j + rem))) :
    ∃ k, k < rem + 2 ∧ Passing a (t.clock false false start a.mat) k := by
  cases rem with
  | zero =>
    obtain ⟨hgen, hdrain⟩ := hrun.last (x := TopMvm.iXVector a.mat) rfl
    rw [TopMvm.clock_cal_done h hgen]
    refine ⟨1, by omega, .finished rfl rfl ?_ (.inr hdrain) ?_⟩
    · show t.counterR + 1 = _
      rw [hc, BitVec.ofNat_add]
      rfl
    · intro r
      rw [ho.held (held_of_not_gen hgen) r]
      exact congrArg (_ + BitVec.ofInt 16 ·) (samples_self a.mat j r)
  | succ rem =>
    obtain ⟨hgen, hrun', hlane⟩ := hrun.step (x := TopMvm.iXVector a.mat) rfl
    rw [TopMvm.clock_cal_gen h hgen]
    refine ⟨rem + 2, by omega, .running (j + 1) rem rfl hc hrun' ?_⟩
    rw [show j + 1 + rem = j + (rem + 1) by omega]
    exact ho.sampled hlane

/-- `CAL` with the array at rest: the sequencer moves on at once. -/
theorem idle_cal_clock (h : t.currentStateR = .cal)
    (hc : t.counterR = BitVec.ofNat 15 ((a.completed - 1) % 128))
    (hm : Quiet t.mvm ∨ Draining t.mvm) (ho : Owes a.y t.mvm (fun _ => 0)) :
    Passing a (t.clock false false start a.mat) 1 := by
  have hgen : t.gen false a.mat = false := fsmGen_at_rest hm _
  rw [TopMvm.clock_cal_done h hgen]
  refine .finished rfl rfl ?_ (.inl (quiet_after_rest hm)) (ho.held (held_of_not_gen hgen))
  show t.counterR + 1 = _
  rw [hc, BitVec.ofNat_add]
  rfl

/-- The clock of `WAIT`. -/
theorem launched_clock {n : Nat} (h : Launched a t n) (hs : t.startMvmR = true)
    (hc : t.counterR = BitVec.ofNat 15 ((a.completed - 1) % 128)) :
    ∃ k, k < n ∧ Passing a (t.clock false false start a.mat) k := by
  cases h with
  | first hw hq ho =>
    have hpos := passLen_pos (TopMvm.iWt a.mat)
    have hlane := sampled_of_gen (m := t.mvm) (x := TopMvm.iXVector a.mat)
      (w := TopMvm.iWt a.mat) (hq.fsmGen_start _) hq.sel_eq
    rw [TopMvm.clock_wait hw hs]
    refine ⟨_, ?_, .running 1 (passLen (TopMvm.iWt a.mat) - 1) rfl hc hq.begin ?_⟩
    · omega
    · rw [show 1 + (passLen (TopMvm.iWt a.mat) - 1) = passLen (TopMvm.iWt a.mat) by omega]
      exact ho.sampled hlane
  | later rem hw hrun ho => exact running_clock hw hc hrun ho
  | lost hw hq ho => exact ⟨1, by omega, idle_cal_clock hw hc (.inl hq) ho⟩
  | doubled rem hw hrun hrem ho =>
    rw [TopMvm.clock_wait hw hs]
    by_cases hmag : mag (TopMvm.iWt a.mat) = 0
    · have hz : oWtNumTran (TopMvm.iWt a.mat) = 0 := BitVec.eq_of_toNat_eq hmag
      obtain ⟨hgen, hdrain⟩ := Running.restart_zero (x := TopMvm.iXVector a.mat)
        (hz ▸ hrun) hz
      refine ⟨2, by omega, .drained rfl hc hdrain ?_⟩
      rw [if_pos hmag] at ho
      intro r
      rw [ho.held (held_of_not_gen (by rw [hz]; exact hgen)) r]
      exact congrArg (_ + BitVec.ofInt 16 ·) (samples_self a.mat 1 r)
    · have hz : oWtNumTran (TopMvm.iWt a.mat) ≠ 0 := fun h0 => hmag (congrArg BitVec.toNat h0)
      obtain ⟨-, hrun', hlane⟩ := hrun.restart (x := TopMvm.iXVector a.mat) rfl hz
      rw [if_neg hmag] at ho
      exact ⟨rem + 2, by omega, .running 2 rem rfl hc hrun' (ho.sampled hlane)⟩

/-- A clock of `DONE`: either the pass is still on, or the sequencer comes to
rest and `test_slave` leaves for `IDLE`. -/
theorem passing_clock {n : Nat} (h : Passing a t n) (hpos : 0 < a.completed)
    (hsettled : a.settled = true) :
    (t.isAcc = true ∧ ∃ k, k < n ∧ Passing a (t.clock false false false a.mat) k) ∨
      (t.isAcc = false ∧ n = 1 ∧ Rest a (t.clock false false false a.mat)) := by
  cases h with
  | running j rem hw hc hrun ho =>
    exact .inl ⟨by rw [TopMvm.isAcc, hw]; rfl, running_clock hw hc hrun ho⟩
  | drained hw hc hd ho =>
    exact .inl ⟨by rw [TopMvm.isAcc, hw]; rfl, 1, by omega, idle_cal_clock hw hc (.inr hd) ho⟩
  | finished hw hs hc hm ho =>
    right
    have hgen := fsmGen_at_rest hm (oWtNumTran (TopMvm.iWt a.mat))
    refine ⟨by rw [TopMvm.isAcc, hw]; rfl, rfl, ?_⟩
    rw [TopMvm.clock_dummy_rest hw hs]
    refine { top := ⟨rfl, ?_⟩, quiet := fun _ => ?_, lanes := fun _ r => ?_,
             fresh := fun hf => by rw [hsettled] at hf; cases hf }
    · -- the counter has reached 128 exactly when the group is complete
      have hcmp : t.counterR = TopMvm.NUM_VECTOR ↔ a.completed % 128 = 0 := by
        rw [hc, TopMvm.NUM_VECTOR]
        constructor
        · intro heq
          have := congrArg BitVec.toNat heq
          rw [BitVec.toNat_ofNat] at this
          have h128 : (128 : BitVec 15).toNat = 128 := rfl
          omega
        · intro hz
          rw [show (a.completed - 1) % 128 + 1 = 128 by omega]
          rfl
      by_cases hz : a.completed % 128 = 0
      · rw [if_pos hz, if_pos (hcmp.mpr hz)]
      · rw [if_neg hz, if_neg (mt hcmp.mp hz)]
        refine ⟨rfl, ?_⟩
        rw [hc, show (a.completed - 1) % 128 + 1 = a.completed % 128 by omega]
    · exact quiet_after_rest hm
    · rw [ho.held (held_of_not_gen hgen) r, BitVec.ofInt_ofNat]
      exact BitVec.add_zero _

/-- A resting sequencer without a start pulse keeps resting. -/
theorem Rest.clock (h : Rest a t) (mat : Matrix) : Rest a (t.clock false false false mat) := by
  have hstart := h.top.start
  have hstate := h.top.state
  have hquiet : ∀ hs : a.settled = true,
      Quiet (t.mvm.drive false false (TopMvm.iXVector mat) (TopMvm.iWt mat)) :=
    fun hs => (h.quiet hs).rest
  have hlanes : ∀ hs : a.settled = true, ∀ r, a.y r =
      (t.mvm.drive false false (TopMvm.iXVector mat) (TopMvm.iWt mat)).oWxResult r := by
    intro hs r
    rw [held_of_not_gen ((h.quiet hs).fsmGen_rest _) r]
    exact h.lanes hs r
  by_cases hz : a.completed % 128 = 0
  · rw [if_pos hz] at hstate
    rw [TopMvm.clock_idle_rest hstate hstart]
    exact ⟨⟨rfl, by rw [if_pos hz]⟩, hquiet, hlanes, h.fresh⟩
  · rw [if_neg hz] at hstate
    rw [TopMvm.clock_dummy_rest hstate.1 hstart, if_neg (h.top.counterR_ne hz)]
    exact ⟨⟨rfl, by rw [if_neg hz]; exact ⟨rfl, hstate.2⟩⟩, hquiet, hlanes, h.fresh⟩

/-- A quiet array whose pass begins in this clock owes all samples but the first. -/
theorem owes_begin {m : MVM} (hq : Quiet m) {k : Nat}
    (hy : ∀ r, a.y r = m.oWxResult r +
      BitVec.ofInt 16 (streak (TopMvm.iXVector a.mat r) (TopMvm.iWt a.mat) k)) :
    Owes a.y (m.drive false true (TopMvm.iXVector a.mat) (TopMvm.iWt a.mat))
      (samples a.mat 1 k) := by
  have ho : Owes a.y m (samples a.mat 0 k) := by
    intro r
    rw [hy r, samples]
    exact congrArg (_ + BitVec.ofInt 16 ·) (Int.sub_zero _).symm
  exact ho.sampled (sampled_of_gen (hq.fsmGen_start _) hq.sel_eq)

/-- The clock in which `test_slave` starts the array, for each agreement or
disagreement of the two vector counters. -/
theorem start_clock {vec : BitVec 10} (htop : t.Resting (a.completed - 1))
    (hquiet : vec ≠ 0 → Quiet t.mvm)
    (hy : ∀ r, a.y r = (if vec = 0 then 0 else t.mvm.oWxResult r) +
        BitVec.ofInt 16 (Ledger.contribution (vec == 0) ((a.completed - 1) % 128 == 0)
          (TopMvm.iXVector a.mat r) (TopMvm.iWt a.mat))) :
    (t.clock false (vec == 0) true a.mat).startMvmR = true ∧
      (t.clock false (vec == 0) true a.mat).counterR
        = BitVec.ofNat 15 ((a.completed - 1) % 128) ∧
      ∃ k, k < passLen (TopMvm.iWt a.mat) + 3 ∧
        Launched a (t.clock false (vec == 0) true a.mat) k := by
  have hlen := passLen_pos (TopMvm.iWt a.mat)
  have hstate := htop.state
  -- the sequencer's counter decides the route, the slave's (`vec`) the clear
  by_cases hz : (a.completed - 1) % 128 = 0
  · rw [if_pos hz] at hstate
    rw [TopMvm.clock_idle_start hstate]
    refine ⟨rfl, by rw [hz]; rfl, ?_⟩
    by_cases hv : vec = 0
    · -- both counters at the start of a group: cleared, then a whole pass
      subst hv
      refine ⟨_, Nat.lt_succ_self _, .first rfl quiet_cleared fun r => ?_⟩
      rw [hy r, if_pos rfl, hz]
      show 0 + BitVec.ofInt 16 (g _ _) = 0 + BitVec.ofInt 16 (streak _ _ _ - 0)
      rw [g_eq_streak, Int.sub_zero]
    · -- no clear: the pass starts under a pulse that stays for another clock
      have hq := hquiet hv
      rw [beq_false_of_ne hv]
      refine ⟨_, ?_, .doubled (passLen (TopMvm.iWt a.mat) - 1) rfl hq.begin (by omega) ?_⟩
      · omega
      · refine owes_begin hq fun r => ?_
        rw [hy r, if_neg hv, beq_false_of_ne hv, hz]
        show _ + BitVec.ofInt 16 (if mag (TopMvm.iWt a.mat) = 0 then _ else _) = _
        by_cases hm : mag (TopMvm.iWt a.mat) = 0
        · rw [if_pos hm, if_pos hm, g_eq_streak, passLen, hm]
          rfl
        · rw [if_neg hm, if_neg hm, passLen]
          congr 3
          omega
  · rw [if_neg hz] at hstate
    rw [TopMvm.clock_dummy_start hstate.1 (htop.counterR_ne hz)]
    refine ⟨rfl, hstate.2, ?_⟩
    have hf : ((a.completed - 1) % 128 == 0) = false := beq_false_of_ne hz
    by_cases hv : vec = 0
    · -- the clear takes the only clock of the start pulse
      subst hv
      refine ⟨2, by omega, .lost rfl quiet_cleared fun r => ?_⟩
      rw [hy r, if_pos rfl, hf]
      rfl
    · have hq := hquiet hv
      rw [beq_false_of_ne hv]
      refine ⟨_, ?_, .later (passLen (TopMvm.iWt a.mat) - 1) rfl hq.begin ?_⟩
      · omega
      · refine owes_begin hq fun r => ?_
        rw [hy r, if_neg hv, beq_false_of_ne hv, hf]
        show _ + BitVec.ofInt 16 (g _ _) = _
        rw [g_eq_streak, show 1 + (passLen (TopMvm.iWt a.mat) - 1)
          = passLen (TopMvm.iWt a.mat) by omega]

end Sequencer

/-! ## The bus side -/

theorem toNat_shiftLeft_small {m k : Nat} (h : m * 2 ^ k < 1024) :
    (BitVec.ofNat 10 m <<< k).toNat = m * 2 ^ k := by
  have hm : m < 1024 := Nat.lt_of_le_of_lt (Nat.le_mul_of_pos_right _ (Nat.two_pow_pos k)) h
  rw [BitVec.toNat_shiftLeft, BitVec.toNat_ofNat, Nat.mod_eq_of_lt (show m < 2 ^ 10 from hm),
    Nat.shiftLeft_eq, Nat.mod_eq_of_lt (by omega)]

/-- The write position is the register value 64 only at the weight byte. -/
theorem dimCounterR_ne {s : TestSlave} {m : Nat} (h : s.dimCounterR = BitVec.ofNat 10 m)
    (hm : m < 64) : s.dimCounterR ≠ TestSlave.DIM_WRITE := by
  rw [h]
  exact mt (ofNat_eq_iff (k := 64) (by omega) (by omega)).mp (by omega)

/-- The four write indices, for any write position below 64. -/
theorem finalWrite_toNat {s : TestSlave} {m : Nat} (h : s.dimCounterR = BitVec.ofNat 10 m)
    (hm : m < 64) :
    s.finalWrite1.toNat = 4 * m ∧ s.finalWrite2.toNat = 4 * m + 1 ∧
      s.finalWrite3.toNat = 4 * m + 2 ∧ s.finalWrite4.toNat = 4 * m + 3 := by
  have hshift : s.writeShift.toNat = m * 4 := by
    rw [TestSlave.writeShift, h]
    exact toNat_shiftLeft_small (m := m) (k := 2) (by omega)
  have hadd : ∀ c : Nat, c < 4 → (s.writeShift + BitVec.ofNat 10 c).toNat = 4 * m + c := by
    intro c hc
    rw [BitVec.toNat_add, hshift, BitVec.toNat_ofNat]
    omega
  exact ⟨hshift.trans (Nat.mul_comm m 4), hadd 1 (by omega), hadd 2 (by omega), hadd 3 (by omega)⟩

/-- The four (or one) buffer assignments of an accepted write are the ledger's `store`. -/
theorem writeMatrix_eq {s : TestSlave} {m : Nat} (h : s.dimCounterR = BitVec.ofNat 10 m)
    (hm : m ≤ 64) (d : BitVec 32) : s.writeMatrix d = store s.matrixR m d := by
  funext j
  rw [TestSlave.writeMatrix, store]
  by_cases h64 : m = 64
  · subst h64
    rw [h]
    rfl
  · have hlt : m < 64 := by omega
    obtain ⟨h1, h2, h3, h4⟩ := finalWrite_toNat h hlt
    rw [beq_false_of_ne (dimCounterR_ne h hlt), if_neg Bool.false_ne_true, if_neg h64]
    simp only [TestSlave.setMatrix, h1, h2, h3, h4]
    -- the last assignment to a cell wins: the four indices are tried from the top
    by_cases hj : j.val / 4 = m
    · rw [if_pos hj]
      have hr : j.val % 4 = 0 ∨ j.val % 4 = 1 ∨ j.val % 4 = 2 ∨ j.val % 4 = 3 := by omega
      rcases hr with hr | hr | hr | hr <;> rw [hr]
      · rw [if_neg (by omega), if_neg (by omega), if_neg (by omega), if_pos (by omega)]
      · rw [if_neg (by omega), if_neg (by omega), if_pos (by omega)]
      · rw [if_neg (by omega), if_pos (by omega)]
      · rw [if_pos (by omega)]
    · rw [if_neg hj, if_neg (by omega), if_neg (by omega), if_neg (by omega),
        if_neg (by omega)]

theorem emit_idle_write {s : TestSlave} {i : Input} (h : s.currentStateR = .idle)
    (hw : i.iWriteReq = true) : slave.emit s i = [.write i.iData32bCtrl] := by
  simp [slave, TestSlave.oWaitReq_idle h, hw]

theorem emit_idle_read {s : TestSlave} {i : Input} (h : s.currentStateR = .idle)
    (hw : i.iWriteReq = false) (hq : i.iReadReq = true) : slave.emit s i = [.read] := by
  simp [slave, TestSlave.oWaitReq_idle h, hw, hq]

theorem emit_idle_rest {s : TestSlave} {i : Input} (h : s.currentStateR = .idle)
    (hw : i.iWriteReq = false) (hq : i.iReadReq = false) : slave.emit s i = [] := by
  simp [slave, TestSlave.oWaitReq_idle h, hw, hq]

theorem emit_busy {s : TestSlave} (h : s.currentStateR ≠ .idle) (i : Input) :
    slave.emit s i = [] := by
  simp [slave, TestSlave.oWaitReq_busy h]

section Bus

variable {a : Ledger} {s : TestSlave} {i : Input}

/-- `IDLE`, write taken inside a vector. -/
theorem coupled_write (h : s.currentStateR = .idle) (hm : s.matStartR = false)
    (hc : Counters a s (a.writes % 65) (a.reads % 128) (BitVec.ofNat 10 a.vectors))
    (hrest : Rest a s.topMvm) (hr : i.iRstCtrl = false) (hw : i.iWriteReq = true) :
    ∃ k, Coupled (a.apply (.write i.iData32bCtrl)) (s.clock i) k := by
  have hmat : s.writeMatrix i.iData32bCtrl = store a.mat (a.writes % 65) i.iData32bCtrl := by
    rw [writeMatrix_eq hc.dim (by omega), hc.mat]
  have hrest' := hrest.clock s.matrixR
  rw [TestSlave.clock_idle_write h hr hw, hm, hmat]
  by_cases hfull : a.writes % 65 = 64
  · -- the vector is complete
    have hcompleted : (a.writes + 1) / 65 - 1 = a.completed := by
      rw [Ledger.completed]
      omega
    have hsettled : BitVec.ofNat 10 a.vectors ≠ 0 → a.settled = true := by
      intro hv
      cases hs : a.settled with
      | true => rfl
      | false => exact absurd (by rw [(hrest.fresh hs).2]; rfl) hv
    rw [Ledger.apply, if_pos hfull]
    refine ⟨_, .full (BitVec.ofNat 10 a.vectors) rfl rfl ?_ (Nat.succ_pos _) rfl ?_ ?_ ?_ ?_ ?_⟩
    · show (a.writes + 1) % 65 = 0
      omega
    · exact ⟨by rw [hc.dim, hfull], hc.rd, hc.vec, rfl⟩
    · exact (BitVec.ofNat_add a.vectors 1).symm
    · show TopMvm.Resting _ ((a.writes + 1) / 65 - 1)
      rw [hcompleted]
      exact hrest'.top
    · exact fun hv => hrest'.quiet (hsettled hv)
    · intro r
      show (if a.clears then 0 else a.y r) + _ = _
      rw [Ledger.clears, Ledger.isFirst, Ledger.completed,
        show (Ledger.completed { a with
          writes := a.writes + 1, vectors := a.vectors + 1, settled := true,
          mat := store a.mat (a.writes % 65) i.iData32bCtrl,
          y := a.accumulate (store a.mat (a.writes % 65) i.iData32bCtrl) }) - 1
            = a.writes / 65 from hcompleted]
      by_cases hv : BitVec.ofNat 10 a.vectors = 0
      · rw [if_pos (beq_iff_eq.mpr hv), if_pos hv]
        rfl
      · rw [if_neg (by simpa using hv), if_neg hv, hrest'.lanes (hsettled hv) r]
        rfl
  · have hcompleted : (a.writes + 1) / 65 = a.writes / 65 := by omega
    rw [Ledger.apply, if_neg hfull]
    refine ⟨1, .get rfl rfl ?_ ⟨?_, hc.rd, hc.vec, rfl⟩
      ⟨?_, hrest'.quiet, hrest'.lanes, fun hs => ?_⟩⟩
    · show (a.writes + 1) % 65 ≠ 0
      omega
    · show s.dimCounterR = BitVec.ofNat 10 ((a.writes + 1) % 65 - 1)
      rw [hc.dim, show (a.writes + 1) % 65 - 1 = a.writes % 65 by omega]
    · show TopMvm.Resting _ ((a.writes + 1) / 65)
      rw [hcompleted]
      exact hrest'.top
    · exact ⟨hcompleted.trans (hrest.fresh hs).1, (hrest.fresh hs).2⟩

/-- `IDLE`, read taken. -/
theorem coupled_read (h : s.currentStateR = .idle) (hm : s.matStartR = false)
    (hc : Counters a s (a.writes % 65) (a.reads % 128) (BitVec.ofNat 10 a.vectors))
    (hrest : Rest a s.topMvm) (hr : i.iRstCtrl = false) (hw : i.iWriteReq = false)
    (hq : i.iReadReq = true) : Coupled (a.apply .read) (s.clock i) 1 := by
  have hrest' := hrest.clock s.matrixR
  rw [TestSlave.clock_idle_read h hr hw hq, hm]
  refine .send rfl rfl (Nat.succ_pos _) ⟨hc.dim, hc.rd, ?_, hc.mat⟩
    ⟨hrest'.top, hrest'.quiet, hrest'.lanes, fun hs => ⟨(hrest.fresh hs).1, ?_⟩⟩
  · -- `read_counter_r == 0` is the ledger's "a read of word 0"
    have hz : s.readCounterR = 0 ↔ a.reads % 128 = 0 := by
      rw [hc.rd]
      exact ofNat_eq_iff (k := 0) (by omega) (by omega)
    show (if s.readCounterR = 0 then 0 else s.vectorCounterR)
      = BitVec.ofNat 10 (if a.reads % 128 = 0 then 0 else a.vectors)
    by_cases h0 : a.reads % 128 = 0
    · rw [if_pos h0, if_pos (hz.mpr h0)]
      rfl
    · rw [if_neg h0, if_neg (mt hz.mp h0), hc.vec]
  · show (if a.reads % 128 = 0 then 0 else a.vectors) = 0
    rw [(hrest.fresh hs).2, ite_self]

/-- `SEND`: the read position moves on. -/
theorem coupled_send (h : s.currentStateR = .send) (hm : s.matStartR = false)
    (hpos : 0 < a.reads)
    (hc : Counters a s (a.writes % 65) ((a.reads - 1) % 128) (BitVec.ofNat 10 a.vectors))
    (hrest : Rest a s.topMvm) (hr : i.iRstCtrl = false) : Coupled a (s.clock i) 0 := by
  rw [TestSlave.clock_send h hr, hm]
  refine .idle rfl rfl ⟨hc.dim, ?_, hc.vec, hc.mat⟩ (hrest.clock _)
  have hlast : s.readCounterR = TestSlave.DIM_SHRINK - 1 ↔ (a.reads - 1) % 128 = 127 := by
    rw [hc.rd]
    exact ofNat_eq_iff (k := 127) (by omega) (by omega)
  show (if s.readCounterR = TestSlave.DIM_SHRINK - 1 then 0 else s.readCounterR + 1) = _
  by_cases h127 : (a.reads - 1) % 128 = 127
  · rw [if_pos (hlast.mpr h127), show a.reads % 128 = 0 by omega]
    rfl
  · rw [if_neg (mt hlast.mp h127), hc.rd, show a.reads % 128 = (a.reads - 1) % 128 + 1 by omega,
      BitVec.ofNat_add]
    rfl

/-- `GET` inside a vector: the write position moves on. -/
theorem coupled_get (h : s.currentStateR = .get) (hm : s.matStartR = false)
    (hne : a.writes % 65 ≠ 0)
    (hc : Counters a s (a.writes % 65 - 1) (a.reads % 128) (BitVec.ofNat 10 a.vectors))
    (hrest : Rest a s.topMvm) (hr : i.iRstCtrl = false) : Coupled a (s.clock i) 0 := by
  rw [TestSlave.clock_get h hr (dimCounterR_ne hc.dim (by omega)), hm]
  refine .idle rfl rfl ⟨?_, hc.rd, hc.vec, hc.mat⟩ (hrest.clock _)
  show s.dimCounterR + 1 = _
  rw [hc.dim, show a.writes % 65 = (a.writes % 65 - 1) + 1 by omega, BitVec.ofNat_add]
  rfl

/-- **Step lemma**: a clock keeps the relation, the ledger reading the transfers
of that clock; outside `IDLE` it also lowers the bound. -/
theorem coupled_clock {n : Nat} (h : Coupled a s n) (hr : i.iRstCtrl = false) :
    ∃ k, Coupled ((slave.emit s i).foldl Ledger.apply a) (slave.next s i) k ∧
      (s.currentStateR ≠ .idle → k < n) := by
  show ∃ k, Coupled _ (s.clock i) k ∧ _
  cases h with
  | idle h hm hc hrest =>
    cases hw : i.iWriteReq with
    | true =>
      rw [emit_idle_write h hw]
      obtain ⟨k, hk⟩ := coupled_write h hm hc hrest hr hw
      exact ⟨k, hk, fun hne => absurd h hne⟩
    | false =>
      cases hq : i.iReadReq with
      | true =>
        rw [emit_idle_read h hw hq]
        exact ⟨1, coupled_read h hm hc hrest hr hw hq, fun hne => absurd h hne⟩
      | false =>
        rw [emit_idle_rest h hw hq, TestSlave.clock_idle_rest h hr hw hq, hm]
        exact ⟨0, .idle h rfl ⟨hc.dim, hc.rd, hc.vec, hc.mat⟩ (hrest.clock _),
          fun hne => absurd h hne⟩
  | send h hm hpos hc hrest =>
    rw [emit_busy (by rw [h]; decide)]
    exact ⟨0, coupled_send h hm hpos hc hrest hr, fun _ => Nat.one_pos⟩
  | get h hm hne hc hrest =>
    rw [emit_busy (by rw [h]; decide)]
    exact ⟨0, coupled_get h hm hne hc hrest hr, fun _ => Nat.one_pos⟩
  | full vec h hm hw hpos hs hc hvec htop hquiet hy =>
    rw [emit_busy (by rw [h]; decide), TestSlave.clock_get_full h hr hc.dim, hc.vec]
    obtain ⟨hstart, hcount, k, hk, hlaunch⟩ := start_clock htop hquiet hy
    rw [← hc.mat] at hstart hcount hlaunch
    exact ⟨k, .wait k rfl rfl hw hpos hs ⟨rfl, hc.rd, hvec, hc.mat⟩ hstart hcount hlaunch,
      fun _ => hk⟩
  | wait n h hm hw hpos hs hc hstart hcount hlaunch =>
    -- `mat_start` is still up, but in `WAIT` and `CAL` the sequencer does not look at it
    have hclock : ∃ k, k < n ∧ Passing a (s.topMvm.clock false false s.matStartR a.mat) k :=
      launched_clock hlaunch hstart hcount
    obtain ⟨k, hk, hpass⟩ := hclock
    rw [← hc.mat] at hpass
    rw [emit_busy (by rw [h]; decide), TestSlave.clock_wait h hr]
    exact ⟨k, .done k rfl hw hpos hs ⟨hc.dim, hc.rd, hc.vec, hc.mat⟩ hpass, fun _ => hk⟩
  | done n h hw hpos hs hc hpass =>
    rw [emit_busy (by rw [h]; decide)]
    rcases passing_clock hpass (completed_pos hw hpos) hs with
      ⟨hacc, k, hk, hpass'⟩ | ⟨hacc, hn, hrest⟩
    · rw [← hc.mat] at hpass'
      rw [TestSlave.clock_done_busy h hr hacc]
      exact ⟨k, .done k h hw hpos hs ⟨hc.dim, hc.rd, hc.vec, hc.mat⟩ hpass', fun _ => hk⟩
    · rw [← hc.mat] at hrest
      rw [TestSlave.clock_done_free h hr hacc]
      refine ⟨0, .idle rfl rfl ⟨?_, hc.rd, hc.vec, hc.mat⟩ hrest, fun _ => by omega⟩
      show s.dimCounterR = BitVec.ofNat 10 (a.writes % 65)
      rw [hc.dim, hw]

end Bus

/-! ## Runs -/

theorem completed_start (settled : Bool) (y : Fin DIM → BitVec 16) :
    (Ledger.start settled y).completed = 0 := Nat.zero_div 65

theorem resting_afterReset (mvm : MVM) (settled : Bool) (y : Fin DIM → BitVec 16) :
    (TestSlave.afterReset mvm).topMvm.Resting (Ledger.start settled y).completed := by
  rw [completed_start]
  exact ⟨rfl, by rw [if_pos (Nat.zero_mod 128)]; rfl⟩

/-- After a reset the array may hold anything: the first vector clears it. -/
theorem coupled_afterReset (mvm : MVM) (y : Fin DIM → BitVec 16) :
    Coupled (Ledger.start false y) (TestSlave.afterReset mvm) 0 :=
  .idle rfl rfl ⟨rfl, rfl, rfl, rfl⟩
    { top := resting_afterReset mvm false y
      quiet := fun h => nomatch h
      lanes := fun h => nomatch h
      fresh := fun _ => ⟨completed_start false y, rfl⟩ }

/-- When the array starts cleared as well, its lanes are known from the start. -/
theorem coupled_cleared :
    Coupled (Ledger.start true fun _ => 0) (TestSlave.afterReset MVM.cleared) 0 :=
  .idle rfl rfl ⟨rfl, rfl, rfl, rfl⟩
    { top := resting_afterReset MVM.cleared true fun _ => 0
      quiet := fun _ => quiet_cleared
      lanes := fun _ _ => rfl
      fresh := fun h => nomatch h }

/-- **Run lemma**: along every run without a reset the registers stay related to
the ledger of the transfers accepted so far. -/
theorem coupled_run {a : Ledger} {s : TestSlave} {n : Nat} (h : Coupled a s n)
    (ins : List Input) (hr : ∀ i ∈ ins, i.iRstCtrl = false) :
    ∃ k, Coupled ((slave.events s ins).foldl Ledger.apply a) (slave.run s ins) k := by
  refine slave.run_sim (R := fun a s => ∃ n, Coupled a s n)
    (A := fun i => i.iRstCtrl = false) Ledger.apply ?_ ⟨n, h⟩ ins hr
  rintro a s i hi ⟨n, hn⟩
  obtain ⟨k, hk, -⟩ := coupled_clock hn hi
  exact ⟨k, hk⟩

end DcnnFpga.Rtl
