import DcnnFpga.Lib.Clocked
import DcnnFpga.Rtl.Pass
import DcnnFpga.Rtl.TestSlave

/-!
# The slave, transfer by transfer

What the slave is for, said without clocks: a `Ledger` reads the accepted bus
transfers one after the other. The `n`-th write goes to position `n % 65` of the
operand buffer, every 65th write completes a vector and adds its product to the
accumulators, the `n`-th read returns the accumulator pair `n % 128`.

Two counters decide what a completed vector does. `test_slave` clears the
accumulators when *its* vector counter is 0 (no vector since the last read of
word 0); `TOP_MVM` takes its long start route when *its* counter has come round
(a multiple of 128 vectors since reset). `Ledger.contribution` has one line for
each of the four combinations; the two in which the counters disagree are not
products.

`slave` is the composed design as a clocked machine whose events are the
accepted transfers; `Coupling.lean` proves that it follows the ledger.
-/

namespace DcnnFpga.Rtl

open NumTransformer

/-- A bus transfer the slave has accepted. -/
inductive Transfer where
  | write (d : BitVec 32)
  | read
deriving Repr, DecidableEq

/-- The composed design; a clock in which `o_wait_req` answers a request is a transfer. -/
def slave : Lib.Clocked TestSlave Input Transfer where
  next := TestSlave.clock
  emit s i :=
    if s.oWaitReq i then []
    else if i.iWriteReq then [.write i.iData32bCtrl]
    else if i.iReadReq then [.read]
    else []

/-- The operand buffer after a write at position `m`: four data bytes below 64,
the weight byte at 64. -/
def store (mat : Matrix) (m : Nat) (d : BitVec 32) : Matrix := fun j =>
  if m = 64 then if j.val = 256 then d.extractLsb' 0 8 else mat j
  else if j.val / 4 = m then d.extractLsb' (8 * (j.val % 4)) 8 else mat j

/-- Distinct small counts are distinct register values. -/
theorem ofNat_eq_iff {m k : Nat} (hm : m < 1024) (hk : k < 1024) :
    BitVec.ofNat 10 m = BitVec.ofNat 10 k ↔ m = k := by
  constructor
  · intro h
    have hval := congrArg BitVec.toNat h
    rwa [BitVec.toNat_ofNat, BitVec.toNat_ofNat, Nat.mod_eq_of_lt hm, Nat.mod_eq_of_lt hk] at hval
  · rintro rfl
    rfl

/-- The transfers so far, summed up. -/
structure Ledger where
  /-- accepted writes since reset -/
  writes : Nat
  /-- accepted reads since reset -/
  reads : Nat
  /-- vectors completed since the last read of word 0 -/
  vectors : Nat
  /-- `y` is what the accumulators hold (not so before the first clear after
  power-up, when they hold anything) -/
  settled : Bool
  mat : Matrix
  y : Fin DIM → BitVec 16

namespace Ledger

/-- Vectors completed since reset. -/
def completed (a : Ledger) : Nat := a.writes / 65

/-- What a completed vector adds to a lane. `clear`: the slave clears the
accumulators for it; `first`: the sequencer starts it by its long route. -/
def contribution (clear first : Bool) (x w : BitVec 8) : Int :=
  match clear, first with
  | true, true => g x w
  | false, false => g x w
  -- the clear swallows the only start pulse
  | true, false => 0
  -- the pulse is seen twice, and the pass is a sample longer
  | false, true => if mag w = 0 then g x w else streak x w (mag w + 1)

/-- The slave clears the accumulators for the next vector. -/
def clears (a : Ledger) : Bool := BitVec.ofNat 10 a.vectors == 0

/-- The sequencer takes its long start route for the next vector. -/
def isFirst (a : Ledger) : Bool := a.completed % 128 == 0

/-- The accumulators after a vector `mat` completes. -/
def accumulate (a : Ledger) (mat : Matrix) : Fin DIM → BitVec 16 := fun r =>
  (if a.clears then 0 else a.y r) +
    BitVec.ofInt 16 (contribution a.clears a.isFirst (mat r.castSucc) (mat (Fin.last DIM)))

/-- One accepted transfer. -/
def apply (a : Ledger) : Transfer → Ledger
  | .write d =>
    let mat := store a.mat (a.writes % 65) d
    if a.writes % 65 = 64 then
      { a with
        writes := a.writes + 1, vectors := a.vectors + 1, settled := true,
        mat := mat, y := a.accumulate mat }
    else { a with writes := a.writes + 1, mat := mat }
  | .read =>
    { a with
      reads := a.reads + 1
      vectors := if a.reads % 128 = 0 then 0 else a.vectors }

/-- The ledger after a reset. -/
def start (settled : Bool) (y : Fin DIM → BitVec 16) : Ledger :=
  ⟨0, 0, 0, settled, fun _ => 0, y⟩

end Ledger

end DcnnFpga.Rtl
