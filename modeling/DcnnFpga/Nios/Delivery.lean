import DcnnFpga.Lib.Memory
import DcnnFpga.Nios.MatMulExact
import DcnnFpga.Rtl.PassLaw

/-!
# The order in which `mat_mul` delivers

A call of `mat_mul` that returns is a run of the slave whose transfers are the 128
columns of the matrix and 128 reads (`matMul_delivers`). So the transfers of calls
one after the other are in the order the passes of the accumulator array rely on,
and every pass within them has the schedule of its weight
(`matMulCalls_pass_schedule`).
-/

namespace DcnnFpga.Nios

open Lib Rtl

/-- A run without a reset takes the slave from `s` to `s'`, with these transfers. -/
def Delivers (s : TestSlave) (ts : List Transfer) (s' : TestSlave) : Prop :=
  ∃ ins, (∀ i ∈ ins, i.iRstCtrl = false) ∧ slave.run s ins = s' ∧ slave.events s ins = ts

theorem Delivers.refl (s : TestSlave) : Delivers s [] s := ⟨[], nofun, rfl, rfl⟩

theorem Delivers.trans {s s' s'' : TestSlave} {ts us : List Transfer} (h : Delivers s ts s')
    (h' : Delivers s' us s'') : Delivers s (ts ++ us) s'' := by
  obtain ⟨ins, hr, rfl, rfl⟩ := h
  obtain ⟨ins', hr', rfl, rfl⟩ := h'
  refine ⟨ins ++ ins', fun i hi => ?_, slave.run_append .., slave.events_append ..⟩
  rcases List.mem_append.mp hi with hi | hi
  · exact hr i hi
  · exact hr' i hi

/-! ## One transfer -/

section Transfers

variable {fuel : Nat} {f : Fabric} {p : Master}

theorem idleClocks_delivers (f : Fabric) (p : Master) : Delivers p.slave [] (idleClocks f p) := by
  refine ⟨(f.gap p.transfers).map idleInput, fun i hi => ?_, rfl, events_idleInput _ _⟩
  obtain ⟨d, -, rfl⟩ := List.mem_map.mp hi
  rfl

/-- A request held until it is answered, and the clock that answers it. -/
theorem hold_delivers {s s' : TestSlave} {i : Input} {t : Transfer} (hr : i.iRstCtrl = false)
    (h : slave.hold TestSlave.oWaitReq i fuel s = some s')
    (ht : s'.oWaitReq i = false → slave.emit s' i = [t]) : Delivers s [t] (s'.clock i) := by
  have hquiet : ∀ s : TestSlave, s.oWaitReq i = true → slave.emit s i = [] := by
    intro s hw
    simp [slave, hw]
  obtain ⟨k, hrun, hnone, hlast⟩ := slave.hold_run hquiet h
  refine ⟨List.replicate k i ++ [i], fun j hj => ?_, ?_, ?_⟩
  · rcases List.mem_append.mp hj with hj | hj
    · rw [List.eq_of_mem_replicate hj]
      exact hr
    · rw [List.mem_singleton.mp hj]
      exact hr
  · rw [Clocked.run_append, hrun]
    rfl
  · rw [Clocked.events_append, hnone, hrun, Clocked.events_cons, ht hlast]
    rfl

theorem iowr_delivers {p' : Master} {d : BitVec 32} (h : iowr fuel f p d = some p') :
    Delivers p.slave [.write d] p'.slave := by
  obtain ⟨s, hs, rfl⟩ := Option.map_eq_some_iff.mp h
  refine (idleClocks_delivers f p).trans (hold_delivers rfl hs fun hw => ?_)
  simpa [slave, writeInput] using hw

theorem iord_delivers {pt : Master × BitVec 32} (h : iord fuel f p = some pt) :
    Delivers p.slave [.read] pt.1.slave := by
  obtain ⟨s, hs, rfl⟩ := Option.map_eq_some_iff.mp h
  refine (idleClocks_delivers f p).trans (hold_delivers rfl hs fun hw => ?_)
  simpa [slave, readInput] using hw

end Transfers

/-! ## A call -/

/-- The transfers of a call over this matrix. -/
def callTransfers (matrix : Bytes) : List Transfer :=
  columnWrites (fun c r => matrix32 matrix r c) 128 ++ List.replicate 128 .read

section Call

variable {fuel : Nat} {f : Fabric} {matrix : Bytes}

theorem writeMatrix_delivers {s : TestSlave} {p : Master}
    (h : writeMatrix fuel f matrix s = some p) :
    Delivers s (columnWrites (fun c r => matrix32 matrix r c) 128) p.slave := by
  refine forSome_inv_of_eq (P := fun c (p : Master) =>
    Delivers s (columnWrites (fun c r => matrix32 matrix r c) c) p.slave) 128 ?_ ?_ h
  · exact .refl s
  · intro c _ p p' hp heq
    -- the words of column `c` so far
    have hcolumn : Delivers p.slave
        ((List.range 65).map fun r => .write (matrix32 matrix r c)) p'.slave := by
      refine forSome_inv_of_eq (P := fun k (q : Master) => Delivers p.slave
        ((List.range k).map fun r => .write (matrix32 matrix r c)) q.slave) 65 (.refl _) ?_ heq
      intro k _ q q' hq heq
      rw [List.range_succ, List.map_append]
      exact hq.trans (iowr_delivers heq)
    rw [columnWrites_succ]
    exact hp.trans hcolumn

theorem readResult_delivers {p : Master} {result : Nat → BitVec 16}
    {pr : Master × (Nat → BitVec 16)} (h : readResult fuel f p result = some pr) :
    Delivers p.slave (List.replicate 128 .read) pr.1.slave := by
  refine forSome_inv_of_eq (P := fun n (q : Master × (Nat → BitVec 16)) =>
    Delivers p.slave (List.replicate n .read) q.1.slave) 128 (.refl _) ?_ h
  intro n _ q q' hq heq
  obtain ⟨pt, hpt, rfl⟩ := Option.map_eq_some_iff.mp heq
  rw [List.replicate_succ']
  exact hq.trans (iord_delivers hpt)

/-- **One call** delivers the matrix and reads the result. -/
theorem matMul_delivers {s s' : TestSlave} {result res : Nat → BitVec 16}
    (h : matMul fuel f s matrix result = some (s', res)) :
    Delivers s (callTransfers matrix) s' := by
  obtain ⟨p, hp, hread⟩ := Option.bind_eq_some_iff.mp h
  obtain ⟨pr, hpr, heq⟩ := Option.map_eq_some_iff.mp hread
  cases heq
  exact (writeMatrix_delivers hp).trans (readResult_delivers hpr)

end Call

/-! ## Sequences of calls -/

theorem matMulCalls_delivers {fuel : Nat} {s s' : TestSlave} {calls : List MatMulCall}
    {results : List (Nat → BitVec 16)} (h : matMulCalls fuel s calls = some (s', results)) :
    Delivers s (calls.flatMap fun call => callTransfers call.matrix) s' := by
  induction calls generalizing s results with
  | nil =>
    cases h
    exact .refl _
  | cons call rest ih =>
    obtain ⟨sr, hcall, hrest⟩ := Option.bind_eq_some_iff.mp h
    obtain ⟨srs, hsrs, heq⟩ := Option.map_eq_some_iff.mp hrest
    cases heq
    rw [List.flatMap_cons]
    exact (matMul_delivers hcall).trans (ih hsrs)

theorem length_columnWrites (d : Nat → Nat → BitVec 32) (n : Nat) :
    (columnWrites d n).length = n * 65 :=
  length_flatMap_range fun _ _ => by rw [vectorWrites, List.length_map, List.length_range]

theorem length_callTransfers (matrix : Bytes) : (callTransfers matrix).length = 8448 := by
  rw [callTransfers, List.length_append, length_columnWrites, List.length_replicate]

/-- A call has its transfers in order. -/
theorem inMatMulOrder_callTransfers (matrix : Bytes) : InMatMulOrder (callTransfers matrix) := by
  intro n t ht
  have hlen := length_columnWrites (fun c r => matrix32 matrix r c) 128
  have hlt := (List.getElem?_eq_some_iff.mp ht).1
  rw [length_callTransfers] at hlt
  by_cases hn : n < 8320
  · rw [callTransfers, List.getElem?_append_left (by omega)] at ht
    obtain ⟨c, -, hc⟩ := List.mem_flatMap.mp (List.mem_of_getElem? ht)
    obtain ⟨r, -, rfl⟩ := List.mem_map.mp hc
    rw [decide_eq_true (by omega)]
    rfl
  · rw [callTransfers, List.getElem?_append_right (by omega)] at ht
    rw [List.eq_of_mem_replicate (List.mem_of_getElem? ht), decide_eq_false (by omega)]
    rfl

theorem inMatMulOrder_calls (calls : List MatMulCall) :
    InMatMulOrder (calls.flatMap fun call => callTransfers call.matrix) := by
  induction calls with
  | nil => exact nofun
  | cons call rest ih =>
    rw [List.flatMap_cons]
    refine (inMatMulOrder_callTransfers _).append ?_ ih
    rw [length_callTransfers]

/-- **The passes of `mat_mul`**: in the run of any calls after a reset, every pass
samples the schedule of its weight. -/
theorem matMulCalls_pass_schedule (mvm : MVM) {fuel : Nat} {s' : TestSlave}
    {calls : List MatMulCall} {results : List (Nat → BitVec 16)}
    (h : matMulCalls fuel (TestSlave.afterReset mvm) calls = some (s', results)) :
    ∃ ins, slave.run (TestSlave.afterReset mvm) ins = s' ∧
      ∀ before pass rest, ins = before ++ pass ++ rest →
        PassRun (slave.run (TestSlave.afterReset mvm) before) pass →
        sampler.events (slave.run (TestSlave.afterReset mvm) before) pass =
          (List.range (passLen (weight (slave.run (TestSlave.afterReset mvm) before)))).map
            passSel := by
  obtain ⟨ins, hr, hrun, hevents⟩ := matMulCalls_delivers h
  refine ⟨ins, hrun, ?_⟩
  rintro before pass rest rfl hpass
  have horder := inMatMulOrder_calls calls
  rw [← hevents, Clocked.events_append, Clocked.events_append] at horder
  exact pass_schedule mvm (fun i hi => hr i (List.mem_append_left _ hi)) horder.left.left hpass

end DcnnFpga.Nios
