import DcnnFpga.Rtl.BusOrder

/-!
# Operands are frozen while a product accumulates

Nothing gates the bus on the accumulate enable itself: `test_slave` only watches
`isAcc`, which `TOP_MVM` raises after the start and drops after the enable has
fallen. The coupling relation shows the hand-over is tight on every start route:
in `IDLE` the sequencer rests and the array is quiet, so the enable is down.

The relation has a quiet array in `IDLE` only once the accumulators are settled,
so the statement is about runs from a reset in which every register is cleared.
-/

namespace DcnnFpga.Rtl

open MVM

section Clock

variable {a : Ledger} {s : TestSlave} {i : Input} {n : Nat}

/-- Settling is for good. -/
theorem settled_foldl {a : Ledger} (h : a.settled = true) (es : List Transfer) :
    (es.foldl Ledger.apply a).settled = true := by
  induction es generalizing a with
  | nil => exact h
  | cons e rest ih =>
    refine ih ?_
    cases e with
    | read => exact h
    | write d =>
      rw [Ledger.apply]
      split
      · rfl
      · exact h

/-- A resting sequencer does not pass a start pulse on. -/
theorem Rest.startMvmW {t : TopMvm} (h : Rest a t) : t.startMvmW false = false := by
  have hstart := h.top.start
  rw [TopMvm.startMvmW]
  cases t.currentStateR <;> simp [hstart]

/-- In `IDLE` the accumulate enable is down. -/
theorem Coupled.fsmGen_idle (h : Coupled a s n) (hset : a.settled = true)
    (hs : s.currentStateR = .idle) : s.fsmGen i = false := by
  obtain ⟨hm, -, hrest⟩ := h.at_idle hs
  have hstart : (s.comb i).matStartW = false := by
    rw [TestSlave.comb, hs]
    dsimp only
    split
    · exact hm
    · split <;> exact hm
  rw [TestSlave.fsmGen, TopMvm.isMvm, hstart, hrest.startMvmW]
  exact (hrest.quiet hset).fsmGen_rest _

/-- In `IDLE` no accumulator moves, whatever is requested. -/
theorem Coupled.yVector_idle (h : Coupled a s n) (hset : a.settled = true)
    (hs : s.currentStateR = .idle) (hr : i.iRstCtrl = false) (r : Fin DIM) :
    (s.clock i).yVector r = s.yVector r := by
  obtain ⟨hm, -, hrest⟩ := h.at_idle hs
  have hlanes := hrest.lanes hset r
  have hlanes' := (hrest.clock s.matrixR).lanes hset r
  have htop : (s.clock i).topMvm = s.topMvm.clock false false false s.matrixR := by
    cases hw : i.iWriteReq with
    | true => rw [TestSlave.clock_idle_write hs hr hw, hm]
    | false =>
      cases hq : i.iReadReq with
      | true => rw [TestSlave.clock_idle_read hs hr hw hq, hm]
      | false => rw [TestSlave.clock_idle_rest hs hr hw hq, hm]
  rw [TestSlave.yVector, htop, TestSlave.yVector, ← hlanes', hlanes]

end Clock

/-- **Operands frozen**: in every clock of every run from a fully cleared reset,
an accumulating array keeps the bus waiting and its operands in place, and a
slave that answers the bus keeps its accumulators still. -/
theorem operands_frozen (ins : List Input) (i : Input)
    (hr : ∀ j ∈ ins ++ [i], j.iRstCtrl = false) :
    let s := slave.run (TestSlave.afterReset MVM.cleared) ins
    (s.fsmGen i = true →
      s.currentStateR ≠ .idle ∧ s.oWaitReq i = true ∧ (s.clock i).matrixR = s.matrixR) ∧
    (s.currentStateR = .idle → ∀ r, (s.clock i).yVector r = s.yVector r) := by
  obtain ⟨n, hn⟩ := coupled_run coupled_cleared ins fun j hj => hr j (List.mem_append_left _ hj)
  have hset := settled_foldl (a := Ledger.start true fun _ => 0) rfl
    (slave.events (TestSlave.afterReset MVM.cleared) ins)
  have hi := hr i (List.mem_append_right _ List.mem_cons_self)
  refine ⟨fun hgen => ?_, fun hs r => hn.yVector_idle hset hs hi r⟩
  -- the enable is down in `IDLE`, so this is another state, and that one waits
  have hne : (slave.run (TestSlave.afterReset MVM.cleared) ins).currentStateR ≠ .idle := by
    intro hs
    rw [hn.fsmGen_idle hset hs] at hgen
    cases hgen
  have hwait := TestSlave.oWaitReq_busy (i := i) hne
  refine ⟨hne, hwait, matrixR_still hi ?_⟩
  rw [TestSlave.acceptsWrite, hwait]
  exact Bool.and_false _

/-- A vector of threes, and then some clocks without a request. -/
def vectorOfThrees (pauses : Nat) : List Input :=
  threes 65 ++ List.replicate pauses ⟨false, false, false, 0⟩

set_option maxRecDepth 10000 in
/-- In the third clock of its product a write is held off, and in `IDLE` behind it the
accumulators rest. -/
theorem operands_frozen_threes :
    let s := slave.run (TestSlave.afterReset MVM.cleared) (vectorOfThrees 2)
    let s' := slave.run (TestSlave.afterReset MVM.cleared) (vectorOfThrees 8)
    let i : Input := ⟨false, false, true, 0xff⟩
    s.fsmGen i = true ∧ s.currentStateR ≠ .idle ∧ s.oWaitReq i = true ∧
      (s.clock i).matrixR = s.matrixR ∧
      s'.currentStateR = .idle ∧ ∀ r, (s'.clock i).yVector r = s'.yVector r := by
  intro s s' i
  have hgen : s.fsmGen i = true := by decide
  have hidle : s'.currentStateR = .idle := by decide
  obtain ⟨hrunning, -⟩ := operands_frozen (vectorOfThrees 2) i (by decide)
  obtain ⟨-, hstill⟩ := operands_frozen (vectorOfThrees 8) i (by decide)
  obtain ⟨hbusy, hwait, hmatrix⟩ := hrunning hgen
  exact ⟨hgen, hbusy, hwait, hmatrix, hidle, hstill hidle⟩

end DcnnFpga.Rtl
