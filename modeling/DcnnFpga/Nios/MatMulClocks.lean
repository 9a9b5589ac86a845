import DcnnFpga.Nios.Delivery
import DcnnFpga.Rtl.Timing

/-!
# The clocks of `mat_mul`

A call of `mat_mul` is 8448 turns of a master on the bus (`callTurns`), so its time is
that of `Lib.Clocked.serve`, and `slave_timed` counts it. Only the weights matter: a
column closes the bus for as long as its weight is large, and the fabric's own idle
clocks overlap with that (`matMulCalls_clocks`).
-/

namespace DcnnFpga.Nios

open Lib Rtl

/-- Transfer `k` of a call and the idle clocks before it. -/
def callTurn (f : Fabric) (matrix : Bytes) (k : Nat) : Turn Input where
  gap := (f.gap k).map idleInput
  request :=
    if k < 8320 then writeInput (matrix32 matrix (k % 65) (k / 65)) else readInput (f.readLines k)

def callTurns (f : Fabric) (matrix : Bytes) (n : Nat) : List (Turn Input) :=
  (List.range n).map (callTurn f matrix)

theorem callTurns_succ (f : Fabric) (matrix : Bytes) (n : Nat) :
    callTurns f matrix (n + 1) = callTurns f matrix n ++ [callTurn f matrix n] := by
  rw [callTurns, List.range_succ, List.map_append]
  rfl

/-! ## A call is its turns -/

/-- A master with these turns takes the slave from `s` to `s'`. -/
def Serves (fuel : Nat) (s : TestSlave) (turns : List (Turn Input)) (s' : TestSlave) : Prop :=
  ∃ ins, slave.serve TestSlave.oWaitReq fuel s turns = some ins ∧ slave.run s ins = s'

section Serves

variable {fuel : Nat} {s s' s'' : TestSlave}

theorem Serves.refl (s : TestSlave) : Serves fuel s [] s := ⟨[], rfl, rfl⟩

theorem Serves.trans {a b : List (Turn Input)} (h : Serves fuel s a s')
    (h' : Serves fuel s' b s'') : Serves fuel s (a ++ b) s'' := by
  obtain ⟨ins, hins, rfl⟩ := h
  obtain ⟨ins', hins', rfl⟩ := h'
  exact ⟨ins ++ ins', slave.serve_append hins hins', slave.run_append _ _ _⟩

theorem hold_serves {t : Turn Input}
    (h : slave.hold TestSlave.oWaitReq t.request fuel (slave.run s t.gap) = some s') :
    Serves fuel s [t] (s'.clock t.request) := by
  rw [Clocked.hold_eq_waits] at h
  obtain ⟨n, hn, rfl⟩ := Option.map_eq_some_iff.mp h
  refine ⟨_, by rw [Clocked.serve, hn, Option.bind_some, Clocked.serve, Option.map_some], ?_⟩
  rw [List.append_nil, Clocked.run_append, List.replicate_succ', Clocked.run_append]
  rfl

variable {f : Fabric} {matrix : Bytes} {p : Master}

theorem iowr_serves {p' : Master} {k : Nat} (hk : k < 8320)
    (h : iowr fuel f p (matrix32 matrix (k % 65) (k / 65)) = some p') (hp : p.transfers = k) :
    Serves fuel p.slave [callTurn f matrix k] p'.slave ∧ p'.transfers = k + 1 := by
  obtain ⟨s, hs, rfl⟩ := Option.map_eq_some_iff.mp h
  have hreq : (callTurn f matrix k).request = writeInput (matrix32 matrix (k % 65) (k / 65)) :=
    if_pos hk
  rw [idleClocks, hp, ← hreq] at hs
  refine ⟨?_, congrArg (· + 1) hp⟩
  rw [← hreq]
  exact hold_serves hs

theorem iord_serves {pt : Master × BitVec 32} {k : Nat} (hk : 8320 ≤ k)
    (h : iord fuel f p = some pt) (hp : p.transfers = k) :
    Serves fuel p.slave [callTurn f matrix k] pt.1.slave ∧ pt.1.transfers = k + 1 := by
  obtain ⟨s, hs, rfl⟩ := Option.map_eq_some_iff.mp h
  have hreq : (callTurn f matrix k).request = readInput (f.readLines k) := if_neg (by omega)
  rw [idleClocks, hp, ← hreq] at hs
  refine ⟨?_, congrArg (· + 1) hp⟩
  dsimp only
  rw [hp, ← hreq]
  exact hold_serves hs

theorem writeMatrix_serves (h : writeMatrix fuel f matrix s = some p) :
    Serves fuel s (callTurns f matrix 8320) p.slave ∧ p.transfers = 8320 := by
  refine forSome_inv_of_eq (P := fun c (p : Master) =>
    Serves fuel s (callTurns f matrix (65 * c)) p.slave ∧ p.transfers = 65 * c) 128
    ⟨.refl s, rfl⟩ ?_ h
  intro c hc p p' hp heq
  refine forSome_inv_of_eq (P := fun r (q : Master) =>
    Serves fuel s (callTurns f matrix (65 * c + r)) q.slave ∧ q.transfers = 65 * c + r) 65
    hp ?_ heq
  rintro r hr q q' ⟨hq, hcount⟩ heq
  rw [show matrix32 matrix r c = matrix32 matrix ((65 * c + r) % 65) ((65 * c + r) / 65) by
    rw [show (65 * c + r) % 65 = r by omega, show (65 * c + r) / 65 = c by omega]] at heq
  obtain ⟨hturn, hcount'⟩ := iowr_serves (by omega) heq hcount
  exact ⟨callTurns_succ f matrix (65 * c + r) ▸ hq.trans hturn, hcount'⟩

/-- **One call** is 8448 turns. -/
theorem matMul_serves {result res : Nat → BitVec 16}
    (h : matMul fuel f s matrix result = some (s', res)) :
    Serves fuel s (callTurns f matrix 8448) s' := by
  obtain ⟨p, hp, hread⟩ := Option.bind_eq_some_iff.mp h
  obtain ⟨pr, hpr, heq⟩ := Option.map_eq_some_iff.mp hread
  cases heq
  have hreads : Serves fuel s (callTurns f matrix (8320 + 128)) pr.1.slave ∧
      pr.1.transfers = 8320 + 128 := by
    refine forSome_inv_of_eq (P := fun n (q : Master × (Nat → BitVec 16)) =>
      Serves fuel s (callTurns f matrix (8320 + n)) q.1.slave ∧ q.1.transfers = 8320 + n) 128
      (writeMatrix_serves hp) ?_ hpr
    rintro n hn q q' ⟨hq, hcount⟩ heq
    obtain ⟨pt, hpt, rfl⟩ := Option.map_eq_some_iff.mp heq
    obtain ⟨hturn, hcount'⟩ := iord_serves (by omega) hpt hcount
    exact ⟨callTurns_succ f matrix (8320 + n) ▸ hq.trans hturn, hcount'⟩
  exact hreads.1

end Serves

theorem matMulCalls_serves {fuel : Nat} {s s' : TestSlave} {calls : List MatMulCall}
    {results : List (Nat → BitVec 16)} (h : matMulCalls fuel s calls = some (s', results)) :
    Serves fuel s (calls.flatMap fun call => callTurns call.fabric call.matrix 8448) s' := by
  induction calls generalizing s results with
  | nil =>
    cases h
    exact .refl _
  | cons call rest ih =>
    obtain ⟨sr, hcall, hrest⟩ := Option.bind_eq_some_iff.mp h
    obtain ⟨srs, hsrs, heq⟩ := Option.map_eq_some_iff.mp hrest
    cases heq
    rw [List.flatMap_cons]
    exact (matMul_serves hcall).trans (ih hsrs)

/-! ## The clocks of a call -/

/-- The clocks the bus is closed after transfer `k` of a call: for the last word of a
column the pass of its weight and the handshake, one more for the first column. -/
def closedAfter (matrix : Bytes) (k : Nat) : Nat :=
  if k < 8320 ∧ k % 65 = 64 then
    passLen (matrix (256 * 128 + k / 65)) + if k / 65 = 0 then 3 else 2
  else 1

/-- The clocks of a call whose first transfer finds the bus closed for another `b`. -/
def callClocks (call : MatMulCall) (b : Nat) : Nat :=
  ∑ k ∈ Finset.range 8448, (max (call.fabric.gap k).length
    (if k = 0 then b else closedAfter call.matrix (k - 1)) + 1)

/-- The clocks of calls one after the other: the last read of a call closes the bus
for a clock. -/
def callsClocks : Nat → List MatMulCall → Nat
  | _, [] => 0
  | b, call :: rest => callClocks call b + callsClocks 1 rest

/-- In the order of `mat_mul` the counters agree, and the position of a write tells
the time. -/
theorem onBeat_clocks {a : Ledger} {n : Nat} (h : OnBeat a n) (hn : n % 8448 < 8320)
    (d : BitVec 32) :
    a.clocks (.write d) =
      if n % 8448 % 65 = 64 then
        passLen (d.extractLsb' 0 8) + if n % 8448 / 65 = 0 then 3 else 2
      else 1 := by
  have hw := h.writes
  have hv := h.vectors
  rw [min_eq_left (Nat.le_of_lt hn)] at hw
  rw [if_pos (Nat.le_of_lt hn)] at hv
  have hpos : a.writes % 65 = 64 ↔ n % 8448 % 65 = 64 := by omega
  have hfirst : a.isFirst = (n % 8448 / 65 == 0) := by
    rw [Ledger.isFirst, Ledger.completed, show a.writes / 65 % 128 = n % 8448 / 65 by omega]
  have hclears : a.clears = (n % 8448 / 65 == 0) := by
    rw [Ledger.clears, hv, Bool.eq_iff_iff, beq_iff_eq, beq_iff_eq]
    exact ofNat_eq_iff (k := 0) (by omega) (by omega)
  rw [Ledger.clocks, hfirst, hclears]
  simp only [hpos]
  by_cases h0 : n % 8448 / 65 = 0
  · rw [h0]
    rfl
  · rw [beq_false_of_ne h0, if_neg h0]
    rfl

section Clocks

variable {f : Fabric} {matrix : Bytes} {a : Ledger}

/-- The transfer of turn `k`. -/
theorem callTurn_transfer {k : Nat} :
    (callTurn f matrix k).request.transfer =
      if k < 8320 then .write (matrix32 matrix (k % 65) (k / 65)) else .read := by
  rw [callTurn]
  by_cases hk : k < 8320
  · rw [if_pos hk, if_pos hk]
    rfl
  · rw [if_neg hk, if_neg hk]
    rfl

theorem isWrite_callTurn {k n : Nat} (hn : n % 8448 = k) :
    (callTurn f matrix k).request.transfer.isWrite = decide (n % 8448 < 8320) := by
  rw [callTurn_transfer, hn]
  by_cases h : k < 8320
  · rw [if_pos h, decide_eq_true h]
    rfl
  · rw [if_neg h, decide_eq_false h]
    rfl

/-- The ledger of a master. -/
abbrev requested (a : Ledger) (i : Input) : Ledger := a.apply i.transfer

/-- The clocks the ledger of a master gives. -/
abbrev closing (a : Ledger) (i : Input) : Nat := a.clocks i.transfer

/-- The turns of a call keep the beat. -/
theorem onBeat_callTurns {n : Nat} (h : OnBeat a n) (hn : n % 8448 = 0) (f : Fabric)
    (matrix : Bytes) {k : Nat} (hk : k ≤ 8448) :
    OnBeat (Clocked.stateAfter requested a (callTurns f matrix k)) (n + k) := by
  induction k with
  | zero => exact h
  | succ k ih =>
    rw [callTurns_succ, Clocked.stateAfter, List.foldl_append]
    exact (ih (by omega)).apply (isWrite_callTurn (by omega))

/-- Word 64 of a column begins with its weight. -/
theorem weight_matrix32 {c : Nat} (hc : c < 128) :
    (matrix32 matrix 64 c).extractLsb' 0 8 = matrix (256 * 128 + c) := by
  rw [matrix32_eq matrix (by omega) hc, word]
  have h := extract_transform8to32 (fun j => matrix (128 * 4 * 64 + c + j)) (i := 0) (by omega)
  exact h

/-- The ledger's clocks after each turn. -/
theorem closing_callTurn {n k : Nat} (h : OnBeat a (n + k)) (hn : n % 8448 = 0) (hk : k < 8448) :
    closing a (callTurn f matrix k).request = closedAfter matrix k := by
  have hmod : (n + k) % 8448 = k := by omega
  rw [closing, callTurn_transfer, closedAfter]
  by_cases hw : k < 8320
  · rw [if_pos hw, onBeat_clocks h (by omega), hmod]
    by_cases hlast : k % 65 = 64
    · have hcond : k < 8320 ∧ k % 65 = 64 := ⟨hw, hlast⟩
      rw [if_pos hlast, if_pos hcond, hlast, weight_matrix32 (by omega)]
    · rw [if_neg hlast, if_neg fun h => hlast h.2]
  · rw [if_neg hw, if_neg fun h => hw h.1]
    rfl

/-- The time of a call by the ledger. -/
theorem turnClocks_callTurns {n : Nat} (h : OnBeat a n) (hn : n % 8448 = 0) (call : MatMulCall)
    (b : Nat) :
    Clocked.turnClocks requested closing a b (callTurns call.fabric call.matrix 8448)
        = callClocks call b ∧
      Clocked.busyAfter requested closing a b (callTurns call.fabric call.matrix 8448) = 1 := by
  have hget : ∀ k t, (callTurns call.fabric call.matrix 8448)[k]? = some t →
      k < 8448 ∧ t = callTurn call.fabric call.matrix k ∧
        (callTurns call.fabric call.matrix 8448).take k
          = callTurns call.fabric call.matrix k := by
    intro k t ht
    obtain ⟨hk, rfl⟩ := List.getElem?_eq_some_iff.mp ht
    rw [callTurns, List.length_map, List.length_range] at hk
    refine ⟨hk, by simp [callTurns], ?_⟩
    rw [callTurns, ← List.map_take, List.take_range, min_eq_left (Nat.le_of_lt hk), callTurns]
  have hlen : (callTurns call.fabric call.matrix 8448).length = 8448 := by
    rw [callTurns, List.length_map, List.length_range]
  have hgap : ∀ k t, (callTurns call.fabric call.matrix 8448)[k]? = some t →
      t.gap.length = (call.fabric.gap k).length := by
    intro k t ht
    obtain ⟨-, rfl, -⟩ := hget k t ht
    exact List.length_map _
  have hclosing : ∀ k t, (callTurns call.fabric call.matrix 8448)[k]? = some t →
      closing (Clocked.stateAfter requested a ((callTurns call.fabric call.matrix 8448).take k))
        t.request = closedAfter call.matrix k := by
    intro k t ht
    obtain ⟨hk, rfl, htake⟩ := hget k t ht
    rw [htake]
    exact closing_callTurn (onBeat_callTurns h hn _ _ (Nat.le_of_lt hk)) hn hk
  obtain ⟨hsum, hafter⟩ := Clocked.turnClocks_eq_sum b hgap hclosing
  rw [hsum, hafter, hlen, if_neg (by decide)]
  exact ⟨rfl, if_neg fun h => absurd h.1 (by decide)⟩

end Clocks

/-! ## Sequences of calls -/

/-- The turns of calls one after the other. -/
def callsTurns (calls : List MatMulCall) : List (Turn Input) :=
  calls.flatMap fun call => callTurns call.fabric call.matrix 8448

theorem turnClocks_callsTurns {a : Ledger} {n : Nat} (h : OnBeat a n) (hn : n % 8448 = 0) (b : Nat)
    (calls : List MatMulCall) :
    Clocked.turnClocks requested closing a b (callsTurns calls) = callsClocks b calls := by
  induction calls generalizing a n b with
  | nil => rfl
  | cons call rest ih =>
    obtain ⟨hclocks, hbusy⟩ := turnClocks_callTurns h hn call b
    rw [callsTurns, List.flatMap_cons, Clocked.turnClocks_append, hclocks, hbusy, callsClocks]
    exact congrArg (callClocks call b + ·)
      (ih (onBeat_callTurns h hn _ _ (Nat.le_refl 8448)) (by omega) 1)

/-- The inputs of a call's turns are requests, and idle clocks between them. -/
theorem callsTurns_admissible (calls : List MatMulCall) :
    ∀ t ∈ callsTurns calls,
      (∀ i ∈ t.gap, i.iRstCtrl = false ∧ (i.iWriteReq || i.iReadReq) = false) ∧
        (t.request.iRstCtrl = false ∧ (t.request.iWriteReq || t.request.iReadReq) = true) := by
  intro t ht
  obtain ⟨call, -, ht⟩ := List.mem_flatMap.mp ht
  obtain ⟨k, -, rfl⟩ := List.mem_map.mp ht
  refine ⟨fun i hi => ?_, ?_⟩
  · obtain ⟨d, -, rfl⟩ := List.mem_map.mp hi
    exact ⟨rfl, rfl⟩
  · rw [callTurn]
    by_cases hk : k < 8320
    · rw [if_pos hk]
      exact ⟨rfl, rfl⟩
    · rw [if_neg hk]
      exact ⟨rfl, rfl⟩

/-! ## Back to back -/

/-- The enabled clocks of the 128 passes of a call. -/
def passClocks (matrix : Bytes) : Nat :=
  ∑ c ∈ Finset.range 128, max 1 (matrix (256 * 128 + c)).toInt.natAbs

/-- The clocks of a column, and one more for the first. -/
theorem sum_closedAfter_column (matrix : Bytes) {c : Nat} (hc : c < 128) :
    ∑ r ∈ Finset.range 65, closedAfter matrix (c * 65 + r) =
      66 + (if c = 0 then 1 else 0) + max 1 (matrix (256 * 128 + c)).toInt.natAbs := by
  have hwords : ∀ r ∈ Finset.range 64, closedAfter matrix (c * 65 + r) = 1 := by
    intro r hr
    have hr' := Finset.mem_range.mp hr
    rw [closedAfter, if_neg (by omega)]
  have hlast : closedAfter matrix (c * 65 + 64) =
      max 1 (matrix (256 * 128 + c)).toInt.natAbs + if c = 0 then 3 else 2 := by
    have hcond : c * 65 + 64 < 8320 ∧ (c * 65 + 64) % 65 = 64 := by omega
    rw [closedAfter, if_pos hcond, row_major_div (by omega), passLen, mag_eq]
  rw [Finset.sum_range_succ, Finset.sum_const_nat hwords, Finset.card_range, hlast]
  split <;> omega

/-- All transfers but the last read. -/
theorem sum_closedAfter (matrix : Bytes) :
    ∑ k ∈ Finset.range 8447, closedAfter matrix k = 8576 + passClocks matrix := by
  have hreads : ∀ n ∈ Finset.range 127, closedAfter matrix (128 * 65 + n) = 1 := by
    intro n hn
    rw [closedAfter, if_neg (by omega)]
  have hcolumns : ∑ k ∈ Finset.range (128 * 65), closedAfter matrix k =
      8449 + passClocks matrix := by
    rw [sum_range_mul]
    calc _ = ∑ c ∈ Finset.range 128, (66 + (if c = 0 then 1 else 0) +
            max 1 (matrix (256 * 128 + c)).toInt.natAbs) :=
          Finset.sum_congr rfl fun c hc => sum_closedAfter_column matrix (Finset.mem_range.mp hc)
      _ = 8449 + passClocks matrix := by
          rw [Finset.sum_add_distrib, Finset.sum_add_distrib, Finset.sum_const, Finset.card_range,
            Finset.sum_ite_eq', if_pos (Finset.mem_range.mpr (by omega))]
          rfl
  rw [show 8447 = 128 * 65 + 127 from rfl, Finset.sum_range_add, hcolumns,
    Finset.sum_const_nat hreads, Finset.card_range]
  omega

/-- Without gaps every clock is a transfer or one in which the bus is closed. -/
theorem callClocks_direct {call : MatMulCall} (hgap : ∀ k, call.fabric.gap k = []) (b : Nat) :
    callClocks call b = 17024 + b + passClocks call.matrix := by
  have hclosed : ∀ k, max (call.fabric.gap k).length
      (if k = 0 then b else closedAfter call.matrix (k - 1)) + 1 =
        (if k = 0 then b else closedAfter call.matrix (k - 1)) + 1 := by
    intro k
    rw [hgap, List.length_nil, Nat.zero_max]
  rw [callClocks, Finset.sum_congr rfl fun k _ => hclosed k, Finset.sum_add_distrib,
    Finset.sum_const_nat fun _ _ => rfl, Finset.card_range,
    Finset.sum_range_succ' _ 8447, if_pos rfl]
  have hrest : ∑ k ∈ Finset.range 8447, (if k + 1 = 0 then b
      else closedAfter call.matrix (k + 1 - 1)) = 8576 + passClocks call.matrix := by
    rw [← sum_closedAfter]
    exact Finset.sum_congr rfl fun k _ => if_neg (Nat.succ_ne_zero k)
  omega

theorem callsClocks_direct {calls : List MatMulCall}
    (hgap : ∀ call ∈ calls, ∀ k, call.fabric.gap k = []) :
    callsClocks 1 calls = 17025 * calls.length +
      (calls.map fun call => passClocks call.matrix).sum := by
  induction calls with
  | nil => rfl
  | cons call rest ih =>
    rw [callsClocks, callClocks_direct (hgap call List.mem_cons_self),
      ih fun c hc => hgap c (List.mem_cons_of_mem _ hc), List.length_cons, List.map_cons,
      List.sum_cons]
    omega

/-- A master with the turns of some calls, after a reset. -/
theorem serve_callsTurns (mvm : MVM) (calls : List MatMulCall) {fuel : Nat} (hfuel : 132 ≤ fuel)
    {ins : List Input} (hins : slave.serve TestSlave.oWaitReq fuel (TestSlave.afterReset mvm)
      (callsTurns calls) = some ins) :
    ins.length = callsClocks 0 calls ∧
      (calls ≠ [] → (∀ call ∈ calls, ∀ k, call.fabric.gap k = []) →
        ins.length + 1 = 17025 * calls.length +
          (calls.map fun call => passClocks call.matrix).sum) := by
  have hbusy : ∀ a i, closing a i < fuel := fun a i => (Ledger.clocks_le a _).trans_lt hfuel
  obtain ⟨ins', hins', hlen, -, -⟩ := slave_timed.serve_spec hbusy (callsTurns_admissible calls)
    ⟨0, coupled_afterReset mvm fun _ => 0⟩
    (show slave.ReadyIn _ _ 0 (TestSlave.afterReset mvm) from rfl) (by omega)
  have heq : ins = ins' := Option.some.inj (hins.symm.trans hins')
  have hclocks : ins.length = callsClocks 0 calls := by
    rw [heq, hlen]
    exact turnClocks_callsTurns (onBeat_start false fun _ => 0) rfl 0 calls
  refine ⟨hclocks, fun hne hgap => ?_⟩
  rw [hclocks, ← callsClocks_direct hgap]
  -- the first call finds the bus open
  cases calls with
  | nil => exact absurd rfl hne
  | cons call rest =>
    have hfirst := hgap call List.mem_cons_self
    rw [callsClocks, callsClocks, callClocks_direct hfirst, callClocks_direct hfirst]
    omega

/-- **The clocks of `mat_mul`**: what the slave sees in the run of any calls after a
reset, clock by clock, and how many clocks these are. On a fabric without gaps `n`
calls take `17025 * n - 1` and those of their passes. -/
theorem matMulCalls_clocks (mvm : MVM) (calls : List MatMulCall) :
    ∃ fuel₀, ∀ fuel, fuel₀ ≤ fuel →
      ∃ s results ins,
        matMulCalls fuel (TestSlave.afterReset mvm) calls = some (s, results) ∧
        slave.serve TestSlave.oWaitReq fuel (TestSlave.afterReset mvm) (callsTurns calls)
          = some ins ∧
        slave.run (TestSlave.afterReset mvm) ins = s ∧
        ins.length = callsClocks 0 calls ∧
        (calls ≠ [] → (∀ call ∈ calls, ∀ k, call.fabric.gap k = []) →
          ins.length + 1 = 17025 * calls.length +
            (calls.map fun call => passClocks call.matrix).sum) := by
  refine ⟨132, fun fuel hfuel => ?_⟩
  obtain ⟨s, results, hcalls, -⟩ := matMulCalls_spec (follows_afterReset mvm)
    (Ledger.ready_start false fun _ => 0) calls hfuel
  obtain ⟨ins, hins, hrun⟩ := matMulCalls_serves hcalls
  exact ⟨s, results, ins, hcalls, hins, hrun, serve_callsTurns mvm calls hfuel hins⟩

end DcnnFpga.Nios
