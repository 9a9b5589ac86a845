import DcnnFpga.Rtl.Mvm

/-!
# The vector sequencer (`top_mvm.sv`)

`NumTransformer` turns the two's complement operands into the offset-binary data
byte and the weight magnitude the accumulators work on. `TOP_MVM` hands one
start pulse per vector to `MVM`, by two different routes: the first vector of a
group of `NUM_VECTOR` goes `IDLE → WAIT → CAL` and sees the pulse twice, every
later one goes `DUMMY → CAL` and sees it once.
-/

namespace DcnnFpga.Rtl

/-- The operand buffer: 256 data bytes and the weight byte at index 256. -/
abbrev Matrix : Type := Fin (DIM + 1) → BitVec 8

namespace NumTransformer

/-- `o_x_numTran` of one lane: the byte with its sign bit inverted. -/
def oXNumTran (iX : BitVec 8) : BitVec 8 :=
  BitVec.ofBool (!iX.msb) ++ iX.extractLsb' 0 7

def tmpWt (iWt : BitVec 8) : BitVec 8 :=
  if iWt.msb then iWt - 1 else iWt

/-- `o_wt_numTran`: the magnitude of the weight byte. -/
def oWtNumTran (iWt : BitVec 8) : BitVec 8 :=
  if iWt.msb then ~~~ tmpWt iWt else tmpWt iWt

end NumTransformer

/-- The two-bit state register of `TOP_MVM`; all four encodings are used. -/
inductive TopMvm.St where
  | idle | cal | wait | dummy
deriving Repr, DecidableEq

/-- Registers of `TOP_MVM`, with those of its `MVM` instance. -/
structure TopMvm where
  currentStateR : TopMvm.St
  counterR : BitVec 15
  startMvmR : Bool
  mvm : MVM

namespace TopMvm

def NUM_VECTOR : BitVec 15 := 128

/-- The registers under `i_rst_topMvm`, which does not reach the `MVM` instance. -/
def afterReset (mvm : MVM) : TopMvm := ⟨.idle, 0, false, mvm⟩

/-- `i_x_vector` of lane `j`. -/
def iXVector (iMatrix : Matrix) (j : Fin DIM) : BitVec 8 := iMatrix j.castSucc

def iWt (iMatrix : Matrix) : BitVec 8 := iMatrix (Fin.last DIM)

/-- `isAcc`, driven out as `o_isAcc`. -/
def isAcc (r : TopMvm) : Bool := r.currentStateR == .cal

/-- `startMvm_w`; in the source it is set in the same `always_comb` block as
`counter_w` and `current_state_w`, but does not depend on `isMvm`. -/
def startMvmW (r : TopMvm) (iStartTopMvm : Bool) : Bool :=
  match r.currentStateR with
  | .idle => if iStartTopMvm then true else r.startMvmR
  | .wait => r.startMvmR
  | .cal => false
  | .dummy =>
    if r.counterR == NUM_VECTOR then r.startMvmR
    else if iStartTopMvm then true else r.startMvmR

/-- `isMvm`, the accumulate enable `fsm_gen` of the `MVM` instance. -/
def isMvm (r : TopMvm) (iStartTopMvm : Bool) (iMatrix : Matrix) : Bool :=
  r.mvm.fsmGen (r.startMvmW iStartTopMvm) (NumTransformer.oWtNumTran (iWt iMatrix))

def counterW (r : TopMvm) (iStartTopMvm isMvm : Bool) : BitVec 15 :=
  match r.currentStateR with
  | .idle => if iStartTopMvm then 0 else r.counterR
  | .cal => if !isMvm then r.counterR + 1 else r.counterR
  | _ => r.counterR

def currentStateW (r : TopMvm) (iStartTopMvm isMvm : Bool) : St :=
  match r.currentStateR with
  | .idle => if iStartTopMvm then .wait else .idle
  | .wait => .cal
  | .cal => if !isMvm then .dummy else .cal
  | .dummy =>
    if r.counterR == NUM_VECTOR then .idle
    else if iStartTopMvm then .cal else .dummy

/-- The `MVM` instance for one clock. -/
def mvmClock (r : TopMvm) (iRstMvm iStartTopMvm : Bool) (iMatrix : Matrix) : MVM :=
  r.mvm.clock iRstMvm (r.startMvmW iStartTopMvm) (iWt iMatrix).msb
    (fun j => NumTransformer.oXNumTran (iXVector iMatrix j))
    (NumTransformer.oWtNumTran (iWt iMatrix))

def clock (r : TopMvm) (iRstTopMvm iRstMvm iStartTopMvm : Bool) (iMatrix : Matrix) :
    TopMvm :=
  let mvm := r.mvmClock iRstMvm iStartTopMvm iMatrix
  -- the array has a reset of its own, and is clocked in either case
  if iRstTopMvm then afterReset mvm
  else
    { currentStateR := r.currentStateW iStartTopMvm (r.isMvm iStartTopMvm iMatrix)
      counterR := r.counterW iStartTopMvm (r.isMvm iStartTopMvm iMatrix)
      startMvmR := r.startMvmW iStartTopMvm
      mvm := mvm }

end TopMvm

end DcnnFpga.Rtl
