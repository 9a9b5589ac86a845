import DcnnFpga.Rtl.BusOrder
import DcnnFpga.Rtl.VectorLaw
import Mathlib.Algebra.BigOperators.Group.List.Basic
import Mathlib.Data.List.GetD

/-!
# Vectors and matrices under any order of requests

A `History` reads the accepted transfers and says which vectors make up the
current matrix: a vector completes at every 65th write, a matrix begins with the
first vector completed after a reset or after a read of word 0. It knows nothing
of the two vector counters of the design.

The design starts a matrix right where *both* counters are at 0, and goes on
right where neither is: when the vectors before the matrix come in groups of 128
and the matrix itself has not more than 128 (`matrix_law`). In a run that closes
a matrix early the clear swallows the only start pulse of the next vector, and
the 129th vector of a matrix is a sample too long (`matrix_law_fails`).
-/

namespace DcnnFpga.Rtl

open Lib

/-- The accepted transfers, as vectors and matrices. -/
structure History where
  /-- the words of the vector being written -/
  pending : List (BitVec 32)
  /-- accepted reads since reset -/
  reads : Nat
  /-- vectors completed before the current matrix -/
  before : Nat
  /-- the vectors of the current matrix, oldest first -/
  current : List Matrix
  /-- word 0 has been read since the last completed vector -/
  closed : Bool

namespace History

/-- Nothing transferred yet. -/
def start : History := ⟨[], 0, 0, [], false⟩

/-- The vector that 65 words make. -/
def vectorOfWords (words : List (BitVec 32)) : Matrix := vectorOf fun row => words.getD row 0

/-- One accepted transfer. -/
def apply (h : History) : Transfer → History
  | .write d =>
    let words := h.pending ++ [d]
    if words.length = 65 then
      if h.closed then
        { h with
          pending := [], before := h.before + h.current.length,
          current := [vectorOfWords words], closed := false }
      else { h with pending := [], current := h.current ++ [vectorOfWords words] }
    else { h with pending := words }
  | .read => { h with reads := h.reads + 1, closed := h.closed || h.reads % 128 == 0 }

/-- The sum of the single-pass products over the current matrix, at lane `r`. -/
def total (h : History) (r : Fin DIM) : Int := (h.current.map (Ledger.product · r)).sum

/-- Both counters agree at every vector of the current matrix. -/
def Aligned (h : History) : Prop := h.before % 128 = 0 ∧ h.current.length ≤ 128

end History

/-! ## The ledger tracks the history -/

/-- The ledger of the same transfers, and what its accumulators hold. -/
structure Tracks (h : History) (a : Ledger) : Prop where
  pending : h.pending.length < 65
  writes : a.writes = 65 * (h.before + h.current.length) + h.pending.length
  reads : a.reads = h.reads
  vectors : a.vectors = if h.closed then 0 else h.current.length
  mat : ∀ j : Fin (DIM + 1), j.val / 4 < h.pending.length →
    a.mat j = History.vectorOfWords h.pending j
  settled : h.current ≠ [] → a.settled = true
  law : h.Aligned → h.current ≠ [] → ∀ r, a.y r = BitVec.ofInt 16 (h.total r)

theorem tracks_start (y : Fin DIM → BitVec 16) : Tracks History.start (Ledger.start false y) where
  pending := by decide
  writes := rfl
  reads := rfl
  vectors := rfl
  mat := fun _ hj => absurd hj (Nat.not_lt_zero _)
  settled := fun h => absurd rfl h
  law := fun _ h => absurd rfl h

section Steps

variable {h : History} {a : Ledger}

/-- A write lands in the buffer where the history has it. -/
theorem Tracks.store_eq (t : Tracks h a) (d : BitVec 32) (j : Fin (DIM + 1))
    (hj : j.val / 4 < (h.pending ++ [d]).length) :
    store a.mat (a.writes % 65) d j = History.vectorOfWords (h.pending ++ [d]) j := by
  have hj' : j.val < 257 := j.isLt
  have hpend := t.pending
  have hwrites := t.writes
  have hpos : a.writes % 65 = h.pending.length := by omega
  rw [List.length_append, List.length_singleton] at hj
  unfold store History.vectorOfWords vectorOf
  beta_reduce
  rw [hpos]
  by_cases hnew : j.val / 4 = h.pending.length
  · -- the bytes of the word just written
    rw [hnew, List.getD_append_right _ _ _ _ (Nat.le_refl _), Nat.sub_self]
    by_cases h64 : h.pending.length = 64
    · rw [if_pos h64, if_pos (by omega), show j.val % 4 = 0 by omega]
      rfl
    · rw [if_neg h64, if_pos rfl]
      rfl
  · -- the bytes of the words before it
    rw [List.getD_append _ _ _ _ (by omega)]
    have hold := t.mat j (by omega)
    by_cases h64 : h.pending.length = 64
    · rw [if_pos h64, if_neg (by omega)]
      exact hold
    · rw [if_neg h64, if_neg hnew]
      exact hold

/-- A write that does not complete a vector. -/
theorem Tracks.write_inside (t : Tracks h a) (d : BitVec 32) (hlen : h.pending.length < 64) :
    Tracks (h.apply (.write d)) (a.apply (.write d)) := by
  have hwrites := t.writes
  have happ : (h.pending ++ [d]).length = h.pending.length + 1 := List.length_append
  rw [History.apply, if_neg (show (h.pending ++ [d]).length ≠ 65 by omega), Ledger.apply,
    if_neg (show a.writes % 65 ≠ 64 by omega)]
  exact {
    pending := by dsimp only; omega
    writes := by dsimp only; omega
    reads := t.reads
    vectors := t.vectors
    mat := t.store_eq d
    settled := t.settled
    law := t.law }

/-- The vector that opens a matrix. -/
theorem Tracks.opens (t : Tracks h a) (hlen : h.pending.length = 64) (hclosed : h.closed = true)
    (v : Matrix) :
    Tracks
      { h with
        pending := [], before := h.before + h.current.length, current := [v], closed := false }
      { a with
        writes := a.writes + 1, vectors := a.vectors + 1, settled := true, mat := v,
        y := a.accumulate v } := by
  have hwrites := t.writes
  have hvec : a.vectors = 0 := by
    rw [t.vectors, hclosed]
    rfl
  exact {
    pending := Nat.succ_pos 64
    writes := by
      show a.writes + 1 = 65 * (h.before + h.current.length + 1) + 0
      omega
    reads := t.reads
    vectors := congrArg (· + 1) hvec
    mat := fun _ hj => absurd hj (Nat.not_lt_zero _)
    settled := fun _ => rfl
    law := by
      -- the slave clears, and the sequencer takes the long route
      rintro ⟨hbefore, -⟩ - r
      replace hbefore : (h.before + h.current.length) % 128 = 0 := hbefore
      have hcompleted : a.completed % 128 = 0 := by
        unfold Ledger.completed
        omega
      show a.accumulate v r = BitVec.ofInt 16 ([Ledger.product v r].sum)
      rw [Ledger.accumulate_first hvec hcompleted, List.sum_singleton] }

/-- The vector that joins a matrix. -/
theorem Tracks.joins (t : Tracks h a) (hlen : h.pending.length = 64) (hclosed : h.closed = false)
    (v : Matrix) :
    Tracks { h with pending := [], current := h.current ++ [v] }
      { a with
        writes := a.writes + 1, vectors := a.vectors + 1, settled := true, mat := v,
        y := a.accumulate v } := by
  have hwrites := t.writes
  have hvec : a.vectors = h.current.length := by
    rw [t.vectors, hclosed]
    rfl
  exact {
    pending := Nat.succ_pos 64
    writes := by
      show a.writes + 1 = 65 * (h.before + (h.current ++ [v]).length) + 0
      rw [List.length_append, List.length_singleton]
      omega
    reads := t.reads
    vectors := by
      show a.vectors + 1 = if h.closed then 0 else (h.current ++ [v]).length
      rw [hvec, hclosed, List.length_append]
      rfl
    mat := fun _ hj => absurd hj (Nat.not_lt_zero _)
    settled := fun _ => rfl
    law := by
      rintro ⟨hbefore, hlength⟩ - r
      replace hbefore : h.before % 128 = 0 := hbefore
      replace hlength : (h.current ++ [v]).length ≤ 128 := hlength
      rw [List.length_append, List.length_singleton] at hlength
      have hcount : a.completed % 128 = h.current.length := by
        unfold Ledger.completed
        omega
      show a.accumulate v r
        = BitVec.ofInt 16 (((h.current ++ [v]).map (Ledger.product · r)).sum)
      rw [List.map_append, List.sum_append, List.map_singleton, List.sum_singleton]
      by_cases hnil : h.current = []
      · -- the first vector after the reset
        rw [hnil] at hvec hcount
        rw [Ledger.accumulate_first hvec hcount, hnil, List.map_nil, List.sum_nil, Int.zero_add]
      · -- a later one: no clear, and the short route
        have hne : h.current.length ≠ 0 := mt List.length_eq_zero_iff.mp hnil
        rw [Ledger.accumulate_later (by omega) (by omega) (by omega),
          t.law ⟨hbefore, by omega⟩ hnil r, ← BitVec.ofInt_add]
        rfl }

/-- A write that completes one. -/
theorem Tracks.write_last (t : Tracks h a) (d : BitVec 32) (hlen : h.pending.length = 64) :
    Tracks (h.apply (.write d)) (a.apply (.write d)) := by
  have hwrites := t.writes
  have happ : (h.pending ++ [d]).length = 65 := by
    rw [List.length_append, hlen]
    rfl
  have hmat : store a.mat (a.writes % 65) d = History.vectorOfWords (h.pending ++ [d]) := by
    funext j
    have hj : j.val < 257 := j.isLt
    exact t.store_eq d j (by omega)
  rw [History.apply, if_pos happ, Ledger.apply, if_pos (show a.writes % 65 = 64 by omega), hmat]
  cases hclosed : h.closed with
  | true =>
    rw [if_pos rfl]
    exact t.opens hlen hclosed _
  | false =>
    rw [if_neg Bool.false_ne_true, ← hclosed]
    exact t.joins hlen hclosed _

theorem Tracks.read (t : Tracks h a) : Tracks (h.apply .read) (a.apply .read) where
  pending := t.pending
  writes := t.writes
  reads := congrArg (· + 1) t.reads
  vectors := by
    show (if a.reads % 128 = 0 then 0 else a.vectors)
      = if h.closed || h.reads % 128 == 0 then 0 else h.current.length
    rw [t.reads, t.vectors]
    by_cases h0 : h.reads % 128 = 0 <;> simp [h0]
  mat := t.mat
  settled := t.settled
  law := t.law

/-- **Step lemma**: a transfer keeps the ledger on the history. -/
theorem Tracks.apply (t : Tracks h a) (e : Transfer) : Tracks (h.apply e) (a.apply e) := by
  cases e with
  | read => exact t.read
  | write d =>
    by_cases hlen : h.pending.length = 64
    · exact t.write_last d hlen
    · exact t.write_inside d (by have := t.pending; omega)

theorem Tracks.foldl (t : Tracks h a) (es : List Transfer) :
    Tracks (es.foldl History.apply h) (es.foldl Ledger.apply a) := by
  induction es generalizing h a with
  | nil => exact t
  | cons e rest ih => exact ih (t.apply e)

end Steps

/-! ## Runs that carry given transfers -/

/-- The request that asks for a transfer. -/
def Transfer.request : Transfer → Input
  | .write d => ⟨false, false, true, d⟩
  | .read => ⟨false, true, false, 0⟩

/-- A clock without a request. -/
def pause : Input := ⟨false, false, false, 0⟩

/-- Each request for one clock, then as many pauses as the longest product takes. -/
def requests (ts : List Transfer) : List Input :=
  ts.flatMap fun t => t.request :: List.replicate 131 pause

theorem requests_quiet (ts : List Transfer) : ∀ i ∈ requests ts, i.iRstCtrl = false := by
  intro i hi
  obtain ⟨t, -, hi⟩ := List.mem_flatMap.mp hi
  rcases List.mem_cons.mp hi with rfl | hi
  · cases t <;> rfl
  · rw [List.eq_of_mem_replicate hi]
    rfl

section Serving

variable {a : Ledger} {s : TestSlave} {n : Nat}

/-- Enough pauses lead to `IDLE`, without a transfer. -/
theorem Coupled.pauses (h : Coupled a s n) (m : Nat) (hm : n ≤ m ∨ s.currentStateR = .idle) :
    slave.events s (List.replicate m pause) = [] ∧
      (slave.run s (List.replicate m pause)).currentStateR = .idle ∧
      ∃ k, Coupled a (slave.run s (List.replicate m pause)) k := by
  have hemit : ∀ s : TestSlave, slave.emit s pause = [] := by
    intro s
    simp [slave, pause]
  induction m generalizing s n with
  | zero =>
    refine ⟨rfl, ?_, n, h⟩
    -- outside `IDLE` the bound is positive
    by_contra hs
    obtain ⟨k, -, hlt⟩ := coupled_clock (i := pause) h rfl
    have := hlt hs
    rcases hm with hm | hm
    · omega
    · exact hs hm
  | succ m ih =>
    obtain ⟨k, hk, hlt⟩ := coupled_clock (i := pause) h rfl
    rw [hemit] at hk
    rw [List.replicate_succ, Clocked.events_cons, Clocked.run_cons, hemit, List.nil_append]
    refine ih hk ?_
    by_cases hs : s.currentStateR = .idle
    · refine Or.inr ?_
      show (s.clock pause).currentStateR = .idle
      rw [TestSlave.clock_idle_rest hs rfl rfl rfl]
      exact hs
    · have := hlt hs
      refine Or.inl ?_
      rcases hm with hm | hm
      · omega
      · exact absurd hm hs

/-- Every list of transfers is that of a run, which ends in `IDLE`. -/
theorem Coupled.served (h : Coupled a s n) (hs : s.currentStateR = .idle) (ts : List Transfer) :
    slave.events s (requests ts) = ts ∧
      (slave.run s (requests ts)).currentStateR = .idle ∧
      ∃ k, Coupled (ts.foldl Ledger.apply a) (slave.run s (requests ts)) k := by
  induction ts generalizing a s n with
  | nil => exact ⟨rfl, hs, n, h⟩
  | cons t rest ih =>
    have hemit : slave.emit s t.request = [t] := by
      cases t with
      | write d => exact emit_idle_write hs rfl
      | read => exact emit_idle_read hs rfl rfl
    obtain ⟨k, hk, -⟩ := coupled_clock (i := t.request) h (by cases t <;> rfl)
    rw [hemit] at hk
    obtain ⟨hnone, hidle, k', hk'⟩ := hk.pauses 131 (Or.inl hk.bound_le)
    obtain ⟨hevents, hlast, hcoupled⟩ := ih hk' hidle
    have hsplit : requests (t :: rest) =
        (t.request :: List.replicate 131 pause) ++ requests rest := List.flatMap_cons
    rw [hsplit, Clocked.events_append, Clocked.run_append, Clocked.events_cons,
      Clocked.run_cons, hemit, hnone, hevents]
    exact ⟨rfl, hlast, hcoupled⟩

end Serving

/-! ## Whole vectors as transfers -/

/-- The writes of one vector. -/
def vectorWrites (d : Nat → BitVec 32) : List Transfer :=
  (List.range 65).map fun row => .write (d row)

/-- The writes of `n` vectors. -/
def columnWrites (d : Nat → Nat → BitVec 32) (n : Nat) : List Transfer :=
  (List.range n).flatMap fun c => vectorWrites (d c)

theorem columnWrites_succ (d : Nat → Nat → BitVec 32) (n : Nat) :
    columnWrites d (n + 1) = columnWrites d n ++ vectorWrites (d n) := by
  unfold columnWrites
  rw [List.range_succ, List.flatMap_append, List.flatMap_singleton]

namespace History

variable {h : History}

/-- Words that do not complete a vector are pending. -/
theorem foldl_words (words : List (BitVec 32)) (hlen : h.pending.length + words.length < 65) :
    (words.map Transfer.write).foldl apply h = { h with pending := h.pending ++ words } := by
  induction words generalizing h with
  | nil =>
    show h = _
    rw [List.append_nil]
  | cons d rest ih =>
    rw [List.length_cons] at hlen
    have happ : (h.pending ++ [d]).length = h.pending.length + 1 := List.length_append
    rw [List.map_cons, List.foldl_cons, apply, if_neg (by omega), ih (by dsimp only; omega)]
    dsimp only
    rw [List.append_assoc, List.singleton_append]

/-- 65 writes complete the vector they make. -/
theorem foldl_vectorWrites (d : Nat → BitVec 32) (hp : h.pending = []) :
    (vectorWrites d).foldl apply h =
      if h.closed then
        { h with
          before := h.before + h.current.length, current := [vectorOf d], closed := false }
      else { h with current := h.current ++ [vectorOf d] } := by
  have hsplit : vectorWrites d = ((List.range 64).map d).map Transfer.write ++ [.write (d 64)] := by
    rw [vectorWrites, List.range_succ, List.map_append, List.map_map, List.map_singleton]
    rfl
  have hlen : ((List.range 64).map d ++ [d 64]).length = 65 := by
    rw [List.length_append, List.length_map, List.length_range]
    rfl
  have hvector : vectorOfWords ((List.range 64).map d ++ [d 64]) = vectorOf d := by
    funext j
    have hj : j.val < 257 := j.isLt
    have hwords : (List.range 64).map d ++ [d 64] = (List.range 65).map d := by
      rw [List.range_succ (n := 64), List.map_append, List.map_singleton]
    unfold vectorOfWords vectorOf
    beta_reduce
    rw [hwords, List.getD_eq_getElem?_getD, List.getElem?_map, List.getElem?_range (by omega)]
    rfl
  rw [hsplit, List.foldl_append, foldl_words _ (by simp [hp]), hp, List.nil_append,
    List.foldl_cons, List.foldl_nil, apply]
  dsimp only
  rw [if_pos hlen, hvector]

/-- `n` vectors in a row belong to one matrix. -/
theorem foldl_columnWrites (d : Nat → Nat → BitVec 32) (n : Nat) (hp : h.pending = [])
    (hopen : h.closed = false) :
    (columnWrites d n).foldl apply h =
      { h with current := h.current ++ (List.range n).map fun c => vectorOf (d c) } := by
  induction n with
  | zero =>
    show h = _
    rw [List.range_zero, List.map_nil, List.append_nil]
  | succ n ih =>
    rw [columnWrites_succ, List.foldl_append, ih, foldl_vectorWrites _ (by exact hp)]
    dsimp only
    rw [hopen, if_neg Bool.false_ne_true, List.range_succ, List.map_append, List.map_singleton,
      List.append_assoc]

end History

theorem foldl_vectorWrites (a : Ledger) (d : Nat → BitVec 32) :
    (vectorWrites d).foldl Ledger.apply a = a.vector d := by
  have hfold : ∀ n, ((List.range n).map fun row => Transfer.write (d row)).foldl Ledger.apply a =
      forN n (fun row a => a.apply (.write (d row))) a := by
    intro n
    induction n with
    | zero => rfl
    | succ n ih =>
      rw [List.range_succ, List.map_append, List.foldl_append, ih]
      rfl
  exact hfold 65

theorem foldl_columnWrites (a : Ledger) (d : Nat → Nat → BitVec 32) (n : Nat) :
    (columnWrites d n).foldl Ledger.apply a = a.columns d n := by
  induction n with
  | zero => rfl
  | succ n ih =>
    rw [columnWrites_succ, List.foldl_append, ih, foldl_vectorWrites, Ledger.columns_succ]

/-! ## The law -/

/-- The history of a run from a reset. -/
def historyOf (mvm : MVM) (ins : List Input) : History :=
  (slave.events (TestSlave.afterReset mvm) ins).foldl History.apply History.start

/-- In `IDLE`, with a vector completed and the matrix not closed since, the
accumulators hold the sum of the products of the current matrix. -/
def SumsMatrix (mvm : MVM) (ins : List Input) : Prop :=
  let s := slave.run (TestSlave.afterReset mvm) ins
  let h := historyOf mvm ins
  s.currentStateR = .idle → h.current ≠ [] → h.closed = false →
    ∀ r, s.yVector r = BitVec.ofInt 16 (h.total r)

/-- The accumulators in `IDLE`, by ledger and history. -/
theorem yVector_of_idle (mvm : MVM) {ins : List Input} (hr : ∀ i ∈ ins, i.iRstCtrl = false)
    (hidle : (slave.run (TestSlave.afterReset mvm) ins).currentStateR = .idle)
    (hne : (historyOf mvm ins).current ≠ []) :
    ∃ a, Tracks (historyOf mvm ins) a ∧
      a = (slave.events (TestSlave.afterReset mvm) ins).foldl Ledger.apply
        (Ledger.start false fun _ => 0) ∧
      ∀ r, (slave.run (TestSlave.afterReset mvm) ins).yVector r = a.y r := by
  obtain ⟨n, hn⟩ := coupled_run (coupled_afterReset mvm fun _ => 0) ins hr
  have htracks := (tracks_start fun _ => 0).foldl (slave.events (TestSlave.afterReset mvm) ins)
  obtain ⟨-, -, hrest⟩ := hn.at_idle hidle
  exact ⟨_, htracks, rfl, fun r => (hrest.lanes (htracks.settled hne) r).symm⟩

/-- **Matrix law**: in every run in which the vectors before the current matrix
come in groups of 128 and the matrix has at most 128, whatever the order of
requests and pauses and whatever the accumulator array held at the reset. -/
theorem matrix_law (mvm : MVM) (ins : List Input) (hr : ∀ i ∈ ins, i.iRstCtrl = false)
    (halign : (historyOf mvm ins).Aligned) : SumsMatrix mvm ins := by
  intro hidle hne _ r
  obtain ⟨a, htracks, -, hlanes⟩ := yVector_of_idle mvm hr hidle hne
  rw [hlanes r]
  exact htracks.law halign hne r

/-- In a run that carries the given transfers, the history is that of the transfers. -/
theorem historyOf_requests (mvm : MVM) (ts : List Transfer) :
    historyOf mvm (requests ts) = ts.foldl History.apply History.start := by
  rw [historyOf, ((coupled_afterReset mvm fun _ => 0).served rfl ts).1]

/-- A matrix of 128 vectors, its word 0 read, and then three vectors of the next one, with
a read in between. -/
def secondMatrix (d : Nat → Nat → BitVec 32) : List Transfer :=
  columnWrites d 128 ++ .read :: (vectorWrites (d 0) ++
    (vectorWrites (d 1) ++ .read :: vectorWrites (d 2)))

theorem foldl_secondMatrix (d : Nat → Nat → BitVec 32) :
    (secondMatrix d).foldl History.apply History.start =
      ⟨[], 2, 128, [vectorOf (d 0), vectorOf (d 1), vectorOf (d 2)], false⟩ := by
  have hfirst : (columnWrites d 128).foldl History.apply History.start =
      ⟨[], 0, 0, (List.range 128).map fun c => vectorOf (d c), false⟩ :=
    History.foldl_columnWrites d 128 rfl rfl
  have hread : History.apply ⟨[], 0, 0, (List.range 128).map fun c => vectorOf (d c), false⟩ .read =
      ⟨[], 1, 0, (List.range 128).map fun c => vectorOf (d c), true⟩ := rfl
  have hlen : ((List.range 128).map fun c => vectorOf (d c)).length = 128 := by
    rw [List.length_map, List.length_range]
  rw [secondMatrix, List.foldl_append, hfirst, List.foldl_cons, hread, List.foldl_append,
    History.foldl_vectorWrites _ rfl]
  dsimp only
  rw [if_pos rfl, hlen, List.foldl_append, History.foldl_vectorWrites _ rfl]
  dsimp only
  rw [if_neg Bool.false_ne_true, List.foldl_cons, History.foldl_vectorWrites _ rfl]
  rfl

/-- Lane 3 behind them: the products of the three. -/
theorem matrix_law_secondMatrix :
    (slave.run (TestSlave.afterReset MVM.cleared)
        (requests (secondMatrix fun c row => BitVec.ofNat 32 (c + row)))).yVector 3 =
      BitVec.ofInt 16 (Ledger.product (vectorOf fun row => BitVec.ofNat 32 (0 + row)) 3 +
        (Ledger.product (vectorOf fun row => BitVec.ofNat 32 (1 + row)) 3 +
          (Ledger.product (vectorOf fun row => BitVec.ofNat 32 (2 + row)) 3 + 0))) := by
  have hhist := (historyOf_requests MVM.cleared _).trans
    (foldl_secondMatrix fun c row => BitVec.ofNat 32 (c + row))
  have hlaw := matrix_law MVM.cleared _ (requests_quiet _) (by rw [hhist]; exact ⟨rfl, by decide⟩)
    ((coupled_afterReset MVM.cleared fun _ => 0).served rfl _).2.1
    (by rw [hhist]; exact List.cons_ne_nil _ _) (by rw [hhist]) 3
  rw [hhist] at hlaw
  exact hlaw

/-! ## Where it fails -/

/-- Two vectors of zeros, the first one read out. -/
def closedEarly : List Transfer :=
  vectorWrites (fun _ => 0) ++ .read :: vectorWrites fun _ => 0

/-- 129 vectors with weight 1 and data 0. -/
def tooLong : List Transfer := columnWrites (fun _ row => if row = 64 then 1 else 0) 129

/-- The law at a run that carries given transfers, with the ledger at its end. -/
theorem SumsMatrix.ledger {ts : List Transfer} {mvm : MVM} (h : SumsMatrix mvm (requests ts))
    (hne : (ts.foldl History.apply History.start).current ≠ [])
    (hopen : (ts.foldl History.apply History.start).closed = false) (r : Fin DIM) :
    (ts.foldl Ledger.apply (Ledger.start false fun _ => 0)).y r =
      BitVec.ofInt 16 ((ts.foldl History.apply History.start).total r) := by
  obtain ⟨hevents, hidle, -⟩ := (coupled_afterReset mvm fun _ => 0).served rfl ts
  have hhist := historyOf_requests mvm ts
  obtain ⟨a, -, ha, hlanes⟩ := yVector_of_idle mvm (requests_quiet ts) hidle (by rwa [hhist])
  have hlaw := h hidle (by rwa [hhist]) (by rwa [hhist]) r
  rw [hlanes r, hhist, ha, hevents] at hlaw
  exact hlaw

/-- The early read leaves the second vector without a start pulse: lane 0 holds 0
where `g 0 0 = 1` was due. -/
theorem not_sumsMatrix_closedEarly : ¬ SumsMatrix MVM.cleared (requests closedEarly) := by
  intro h
  have hhist : closedEarly.foldl History.apply History.start =
      ⟨[], 1, 1, [vectorOf fun _ => 0], false⟩ := by
    rw [closedEarly, List.foldl_append, History.foldl_vectorWrites _ rfl, List.foldl_cons,
      History.foldl_vectorWrites _ rfl]
    rfl
  have hledger : (closedEarly.foldl Ledger.apply (Ledger.start false fun _ => 0)).y 0 = 0 := by
    rw [closedEarly, List.foldl_append, foldl_vectorWrites, Ledger.vector_eq _ rfl,
      List.foldl_cons, foldl_vectorWrites, Ledger.vector_eq _ rfl]
    rfl
  have hlaw := h.ledger (by rw [hhist]; exact List.cons_ne_nil _ _) (by rw [hhist]) 0
  rw [hhist, hledger] at hlaw
  have htotal : History.total ⟨[], 1, 1, [vectorOf fun _ => 0], false⟩ 0 = 1 := by
    show g 0 0 + 0 = 1
    rw [g_zero_zero]
    rfl
  rw [htotal] at hlaw
  cases hlaw

/-- The 129th vector counts its bit twice: lane 0 holds 130 where 129 was due. -/
theorem not_sumsMatrix_tooLong : ¬ SumsMatrix MVM.cleared (requests tooLong) := by
  intro h
  set d : Nat → BitVec 32 := fun row => if row = 64 then 1 else 0 with hd
  have hone : Ledger.product (vectorOf d) 0 = 1 := by
    show g 0 1 = 1
    decide
  have hhist : tooLong.foldl History.apply History.start =
      ⟨[], 0, 0, List.replicate 129 (vectorOf d), false⟩ := by
    rw [tooLong, History.foldl_columnWrites _ 129 rfl rfl, ← hd, List.map_const',
      List.length_range]
    rfl
  obtain ⟨hw, -, hv, hy⟩ := Ledger.columns_spec (Ledger.ready_start false fun _ => 0)
    (fun _ => d) (Nat.le_refl 128)
  have hledger : (tooLong.foldl Ledger.apply (Ledger.start false fun _ => 0)).y 0 = 130 := by
    have hzero : (Ledger.start false fun _ => 0).writes = 0 := rfl
    rw [hzero, Nat.zero_add] at hw
    -- as an equation of its own: inside a projection the 129 vectors get unfolded
    have hlast : (Ledger.start false fun _ => 0).columns (fun _ => d) 129
        = ((Ledger.start false fun _ => 0).columns (fun _ => d) 128).vector d :=
      Ledger.columns_succ _ 128 _
    rw [tooLong, foldl_columnWrites, ← hd, hlast, Ledger.vector_eq d (by omega)]
    have hcompleted : ((Ledger.start false fun _ => 0).columns (fun _ => d) 128).completed
        = 128 := by
      unfold Ledger.completed
      omega
    dsimp only
    rw [Ledger.accumulate, Ledger.clears, Ledger.isFirst, hv, hcompleted,
      (hy (by omega)).2, Finset.sum_const, Finset.card_range, hone, nsmul_eq_mul, mul_one]
    show 128#16 + BitVec.ofInt 16 (if mag 1 = 0 then g 0 1 else streak 0 1 (mag 1 + 1)) = 130
    decide
  have hlaw := h.ledger (by rw [hhist]; exact List.cons_ne_nil _ _) (by rw [hhist]) 0
  rw [hhist, hledger, History.total, List.map_replicate, hone, List.sum_replicate,
    nsmul_eq_mul, mul_one] at hlaw
  revert hlaw
  decide

/-- The law fails in runs that close a matrix early, and in runs with more than
128 vectors in a matrix. -/
theorem matrix_law_fails :
    ¬ SumsMatrix MVM.cleared (requests closedEarly) ∧
      ¬ SumsMatrix MVM.cleared (requests tooLong) :=
  ⟨not_sumsMatrix_closedEarly, not_sumsMatrix_tooLong⟩

end DcnnFpga.Rtl
