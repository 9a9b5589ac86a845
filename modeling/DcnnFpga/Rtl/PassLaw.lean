import DcnnFpga.Rtl.MatrixLaw
import DcnnFpga.Rtl.Schedule

/-!
# The length and the schedule of a pass

In a run with the transfers in the order of `mat_mul` the two vector counters of
the design agree at every start (`OnBeat.agree`), so every pass samples the whole
schedule of its weight: `passLen w` clocks, the `j`-th on bit `passSel j`
(`pass_schedule`).

That is the magnitude of the weight unless the weight is 0 (`pass_length_iff`): the
start pulse raises the enable before `DCounter` has refused to start. And it is
the table of `FSM_16_state` counted from 0 only for a pass of one clock
(`pass_table_iff`): the selector is started by a register behind the enable, and
bit 7 comes twice.
-/

namespace DcnnFpga.Rtl

open NumTransformer MVM

/-! ## The order of `mat_mul` -/

def Transfer.isWrite : Transfer → Bool
  | .write _ => true
  | .read => false

/-- Matrix after matrix: 128 vectors of 65 words, then 128 reads. -/
def InMatMulOrder (ts : List Transfer) : Prop :=
  ∀ n t, ts[n]? = some t → t.isWrite = decide (n % 8448 < 8320)

/-- The first transfers of a list in order are in order. -/
theorem InMatMulOrder.left {ts us : List Transfer} (h : InMatMulOrder (ts ++ us)) :
    InMatMulOrder ts := by
  intro n t ht
  refine h n t ?_
  rw [List.getElem?_append_left (List.getElem?_eq_some_iff.mp ht).1]
  exact ht

/-- After whole matrices the order begins again. -/
theorem InMatMulOrder.append {ts us : List Transfer} (h : InMatMulOrder ts)
    (hlen : ts.length % 8448 = 0) (h' : InMatMulOrder us) : InMatMulOrder (ts ++ us) := by
  intro n t ht
  by_cases hn : n < ts.length
  · rw [List.getElem?_append_left hn] at ht
    exact h n t ht
  · rw [List.getElem?_append_right (Nat.le_of_not_lt hn)] at ht
    rw [h' _ t ht, show (n - ts.length) % 8448 = n % 8448 by omega]

/-- The ledger after `n` transfers in this order. -/
structure OnBeat (a : Ledger) (n : Nat) : Prop where
  writes : a.writes = n / 8448 * 8320 + min (n % 8448) 8320
  reads : a.reads = n / 8448 * 128 + (n % 8448 - 8320)
  vectors : a.vectors = if n % 8448 ≤ 8320 then n % 8448 / 65 else 0

section Order

variable {a : Ledger} {n : Nat}

theorem onBeat_start (settled : Bool) (y : Fin DIM → BitVec 16) :
    OnBeat (Ledger.start settled y) 0 := ⟨rfl, rfl, rfl⟩

/-- **Step lemma**: the transfer that is due comes. -/
theorem OnBeat.apply (h : OnBeat a n) {t : Transfer}
    (ht : t.isWrite = decide (n % 8448 < 8320)) : OnBeat (a.apply t) (n + 1) := by
  obtain ⟨hw, hr, hv⟩ := h
  cases t with
  | write d =>
    have hn : n % 8448 < 8320 := of_decide_eq_true ht.symm
    have hdiv : (n + 1) / 8448 = n / 8448 := by omega
    have hmod : (n + 1) % 8448 = n % 8448 + 1 := by omega
    have hnext : (n + 1) % 8448 ≤ 8320 := by omega
    rw [min_eq_left (Nat.le_of_lt hn)] at hw
    rw [Nat.sub_eq_zero_of_le (Nat.le_of_lt hn)] at hr
    rw [if_pos (Nat.le_of_lt hn)] at hv
    have hwrites : a.writes + 1 = (n + 1) / 8448 * 8320 + min ((n + 1) % 8448) 8320 := by
      rw [min_eq_left hnext, hdiv]
      omega
    have hreads : a.reads = (n + 1) / 8448 * 128 + ((n + 1) % 8448 - 8320) := by
      rw [Nat.sub_eq_zero_of_le hnext, hdiv, hr]
    rw [Ledger.apply]
    by_cases hlast : a.writes % 65 = 64
    · rw [if_pos hlast]
      refine ⟨hwrites, hreads, ?_⟩
      rw [if_pos hnext]
      show a.vectors + 1 = (n + 1) % 8448 / 65
      omega
    · rw [if_neg hlast]
      refine ⟨hwrites, hreads, ?_⟩
      rw [if_pos hnext]
      show a.vectors = (n + 1) % 8448 / 65
      omega
  | read =>
    have hn : ¬ n % 8448 < 8320 := of_decide_eq_false ht.symm
    rw [min_eq_right (Nat.le_of_not_lt hn)] at hw
    have hwrites : a.writes = (n + 1) / 8448 * 8320 + min ((n + 1) % 8448) 8320 := by
      -- the last read begins the next matrix
      by_cases hlast : n % 8448 = 8447
      · rw [show (n + 1) / 8448 = n / 8448 + 1 by omega, show (n + 1) % 8448 = 0 by omega,
          Nat.zero_min, hw, Nat.succ_mul, Nat.add_zero]
      · rw [show (n + 1) / 8448 = n / 8448 by omega, min_eq_right (by omega), hw]
    have hreads : a.reads + 1 = (n + 1) / 8448 * 128 + ((n + 1) % 8448 - 8320) := by omega
    have hzero : (if (n + 1) % 8448 ≤ 8320 then (n + 1) % 8448 / 65 else 0) = 0 := by
      by_cases hle : (n + 1) % 8448 ≤ 8320
      · rw [if_pos hle]
        omega
      · rw [if_neg hle]
    refine ⟨hwrites, hreads, ?_⟩
    rw [hzero]
    show (if a.reads % 128 = 0 then 0 else a.vectors) = 0
    -- the first read of a matrix closes it
    by_cases hfirst : n % 8448 = 8320
    · rw [if_pos (by omega)]
    · rw [if_neg (by omega)] at hv
      rw [hv, ite_self]

/-- **Run lemma**. -/
theorem InMatMulOrder.onBeat {ts : List Transfer} (h : InMatMulOrder ts) (settled : Bool)
    (y : Fin DIM → BitVec 16) :
    OnBeat (ts.foldl Ledger.apply (Ledger.start settled y)) ts.length := by
  induction ts using List.reverseRecOn with
  | nil => exact onBeat_start settled y
  | append_singleton ts t ih =>
    have ht : t.isWrite = decide (ts.length % 8448 < 8320) := h ts.length t (by simp)
    rw [List.foldl_append, List.length_append]
    exact (ih h.left).apply ht

/-- Up to 128 vectors of the first matrix. -/
theorem inMatMulOrder_writes {ts : List Transfer} (h : ∀ t ∈ ts, t.isWrite = true)
    (hlen : ts.length ≤ 8320) : InMatMulOrder ts := by
  intro n t ht
  have hn := (List.getElem?_eq_some_iff.mp ht).1
  rw [h t (List.mem_of_getElem? ht), decide_eq_true (by omega)]

/-- At a start the two vector counters are at 0 together. -/
theorem OnBeat.agree (h : OnBeat a n) (hw : a.writes % 65 = 0) (hpos : 0 < a.writes)
    {vec : BitVec 10} (hvec : vec + 1 = BitVec.ofNat 10 a.vectors) :
    vec = 0 ↔ (a.completed - 1) % 128 = 0 := by
  obtain ⟨hwrites, -, hv⟩ := h
  have hle : a.vectors ≤ 128 := by
    rw [hv]
    split <;> omega
  have hone : vec = 0 ↔ a.vectors = 1 := by
    constructor
    · rintro rfl
      exact (ofNat_eq_iff (k := 1) (by omega) (by omega)).mp (hvec.symm.trans (BitVec.zero_add 1))
    · intro h1
      rw [h1] at hvec
      exact add_right_cancel (hvec.trans (BitVec.zero_add 1).symm)
  rw [hone, hv, Ledger.completed]
  split <;> omega

end Order

/-! ## One pass -/

section Pass

variable {a : Ledger} {s : TestSlave} {n : Nat} {i : Input}

/-- The clock of the start, when the counters agree: the first vector of a matrix
is cleared in it and has its pass still before it, a later one is in its pass. -/
theorem Coupled.start_pass (h : Coupled a s n) (hs : s.Starts) (hbeat : ∃ k, OnBeat a k)
    (hr : i.iRstCtrl = false) :
    ∃ l, (List.range' 0 (passLen (TopMvm.iWt s.matrixR))).map passSel = sampler.emit s i ++ l ∧
      Scheduled (TopMvm.iWt s.matrixR) (s.clock i) l := by
  obtain ⟨hget, hdim⟩ := hs
  obtain ⟨k, hk⟩ := hbeat
  cases h with
  | idle h _ _ _ => rw [hget] at h; cases h
  | send h _ _ _ _ => rw [hget] at h; cases h
  | wait _ h _ _ _ _ _ _ _ _ => rw [hget] at h; cases h
  | done _ h _ _ _ _ _ => rw [hget] at h; cases h
  | get _ _ _ hc _ => exact absurd hdim (dimCounterR_ne hc.dim (by omega))
  | full vec _ _ hw hpos _ hc hvec htop hquiet _ =>
    have hagree := hk.agree hw hpos hvec
    have hstate := htop.state
    have hcomb : (s.comb i).matStartW = true ∧ (s.comb i).mvmRst = (s.vectorCounterR == 0) := by
      rw [TestSlave.comb, hget]
      dsimp only
      rw [if_pos (beq_iff_eq.mpr hdim)]
      exact ⟨rfl, rfl⟩
    have hemit : sampler.emit s i =
        if s.topMvm.isMvm true s.matrixR && !(vec == 0) then [s.topMvm.mvm.fsmMux.sel] else [] := by
      show (if s.topMvm.isMvm (s.comb i).matStartW s.matrixR && !(s.comb i).mvmRst then _ else _) = _
      rw [hcomb.1, hcomb.2, hc.vec]
    rw [hemit, TestSlave.clock_get_full hget hr hdim, hc.vec]
    by_cases hv : vec = 0
    · rw [if_pos (hagree.mp hv)] at hstate
      subst hv
      rw [TopMvm.clock_idle_start hstate]
      exact ⟨_, by simp, .before rfl rfl rfl rfl quiet_cleared⟩
    · rw [if_neg (mt hagree.mpr hv)] at hstate
      have hq := hquiet hv
      have hgen : s.topMvm.isMvm true s.matrixR = true := by
        rw [TopMvm.isMvm, TopMvm.startMvmW, hstate.1]
        dsimp only
        rw [beq_false_of_ne (htop.counterR_ne (mt hagree.mpr hv)), if_neg Bool.false_ne_true,
          if_pos rfl]
        exact hq.fsmGen_start _
      rw [TopMvm.clock_dummy_start hstate.1 (htop.counterR_ne (mt hagree.mpr hv)), hgen,
        beq_false_of_ne hv, hq.sel_eq]
      refine ⟨(List.range' 1 (passLen (TopMvm.iWt s.matrixR) - 1)).map passSel, ?_,
        .running 1 _ (.inl rfl) rfl rfl hq.begin⟩
      obtain ⟨m, hm⟩ := Nat.exists_eq_succ_of_ne_zero
        (Nat.ne_of_gt (passLen_pos (TopMvm.iWt s.matrixR)))
      rw [hm]
      rfl

/-- **Run lemma**: clocks in which no vector starts take positions off the schedule. -/
theorem Scheduled.run {w : BitVec 8} {l : List Nat} (h : Scheduled w s l) (ins : List Input)
    (hin : ∀ k, k < ins.length → ¬ (slave.run s (ins.take k)).Starts)
    (hr : ∀ i ∈ ins, i.iRstCtrl = false) :
    ∃ l', l = sampler.events s ins ++ l' ∧ Scheduled w (slave.run s ins) l' := by
  induction ins generalizing s l with
  | nil => exact ⟨l, rfl, h⟩
  | cons i rest ih =>
    obtain ⟨l₁, hl₁, hnext⟩ := h.clock (hin 0 (Nat.succ_pos _)) (hr i List.mem_cons_self)
    obtain ⟨l₂, hl₂, hlast⟩ := ih hnext
      (fun k hk => hin (k + 1) (Nat.succ_lt_succ hk)) fun j hj => hr j (List.mem_cons_of_mem _ hj)
    refine ⟨l₂, ?_, hlast⟩
    rw [hl₁, hl₂, Lib.Clocked.events_cons, List.append_assoc]
    rfl

/-- At the end of a pass nothing is left of the schedule. -/
theorem Scheduled.eq_nil {w : BitVec 8} {l : List Nat} (h : Scheduled w s l)
    (hend : s.Starts ∨ s.currentStateR = .idle) : l = [] := by
  have hbus : s.currentStateR = .get ∨ s.currentStateR = .idle := hend.imp_left (·.1)
  cases h with
  | before hs _ _ _ _ => rcases hbus with h | h <;> rw [hs] at h <;> cases h
  | running _ _ hs _ _ _ =>
    rcases hs with hs | hs <;> rcases hbus with h | h <;> rw [hs] at h <;> cases h
  | closing => rfl
  | rest => rfl

/-- **A pass samples the schedule of its weight.** -/
theorem Coupled.pass_events (h : Coupled a s n) (hbeat : ∃ k, OnBeat a k) {pass : List Input}
    (hpass : PassRun s pass) (hr : ∀ i ∈ pass, i.iRstCtrl = false) :
    sampler.events s pass = (List.range (passLen (TopMvm.iWt s.matrixR))).map passSel := by
  obtain ⟨i, rest, rfl⟩ := List.exists_cons_of_ne_nil hpass.nonempty
  obtain ⟨l, hl, hnext⟩ := h.start_pass (i := i) hpass.starts hbeat (hr i List.mem_cons_self)
  obtain ⟨l', hl', hlast⟩ := hnext.run rest
    (fun k hk => hpass.inside (k + 1) (Nat.succ_pos _) (Nat.succ_lt_succ hk))
    fun j hj => hr j (List.mem_cons_of_mem _ hj)
  have hnil := hlast.eq_nil hpass.ends
  rw [List.range_eq_range', hl, hl', hnil, List.append_nil, Lib.Clocked.events_cons]
  rfl

end Pass

/-! ## Every pass of a run -/

/-- The weight byte of the vector in the buffer. -/
def weight (s : TestSlave) : BitVec 8 := TopMvm.iWt s.matrixR

/-- The magnitude `DCounter` counts to is that of the signed byte. -/
theorem mag_eq (w : BitVec 8) : mag w = w.toInt.natAbs := by
  revert w
  decide

theorem natAbs_eq_zero_iff (w : BitVec 8) : w.toInt.natAbs = 0 ↔ w = 0 := by
  revert w
  decide

/-- The passes of a run from a reset with the transfers in the order of `mat_mul`. -/
theorem pass_schedule (mvm : MVM) {before pass : List Input}
    (hr : ∀ i ∈ before ++ pass, i.iRstCtrl = false)
    (horder : InMatMulOrder (slave.events (TestSlave.afterReset mvm) before))
    (hpass : PassRun (slave.run (TestSlave.afterReset mvm) before) pass) :
    sampler.events (slave.run (TestSlave.afterReset mvm) before) pass =
      (List.range (passLen (weight (slave.run (TestSlave.afterReset mvm) before)))).map passSel := by
  obtain ⟨n, hn⟩ := coupled_run (coupled_afterReset mvm fun _ => 0) before
    fun i hi => hr i (List.mem_append_left _ hi)
  exact hn.pass_events ⟨_, horder.onBeat false fun _ => 0⟩ hpass
    fun i hi => hr i (List.mem_append_right _ hi)

/-- **The enable is up for as many clocks as the weight's magnitude**, in every
pass over a weight that is not 0 and in no other. -/
theorem pass_length_iff (mvm : MVM) {before pass : List Input}
    (hr : ∀ i ∈ before ++ pass, i.iRstCtrl = false)
    (horder : InMatMulOrder (slave.events (TestSlave.afterReset mvm) before))
    (hpass : PassRun (slave.run (TestSlave.afterReset mvm) before) pass) :
    (sampler.events (slave.run (TestSlave.afterReset mvm) before) pass).length =
        (weight (slave.run (TestSlave.afterReset mvm) before)).toInt.natAbs ↔
      weight (slave.run (TestSlave.afterReset mvm) before) ≠ 0 := by
  rw [pass_schedule mvm hr horder hpass, List.length_map, List.length_range, passLen, mag_eq,
    ne_eq, ← natAbs_eq_zero_iff]
  omega

/-! ## The table of `FSM_16_state` -/

/-- The one bits at the low end of `j`. -/
def trailingOnes (j : Nat) : Nat := ((List.range 8).takeWhile fun k => j.testBit k).length

/-- What the table selects at `j`. -/
theorem sel_eq_trailingOnes :
    ∀ j < 256, FSM16State.sel (BitVec.ofNat 8 j) = 7 - trailingOnes j := by
  decide +kernel

/-- `n` bits by the table counted from 0, bit `8 - i` as often as `n / 2 ^ i`, rounded. -/
def FollowsTable (bits : List Nat) (n : Nat) : Prop :=
  bits = (List.range n).map (fun j => FSM16State.sel (BitVec.ofNat 8 j)) ∧
    ∀ i, 1 ≤ i → i ≤ 8 → bits.count (8 - i) = (2 * n + 2 ^ i) / 2 ^ (i + 1)

/-- The second bit of a pass is the first one again. -/
theorem followsTable_passSel_iff {n : Nat} (hn : 1 ≤ n) :
    FollowsTable ((List.range n).map passSel) n ↔ n = 1 := by
  constructor
  · rintro ⟨htable, -⟩
    by_contra hne
    have hsecond := congrArg (·[1]?) htable
    rw [List.getElem?_map, List.getElem?_map, List.getElem?_range (by omega)] at hsecond
    exact absurd hsecond (by decide)
  · rintro rfl
    refine ⟨rfl, fun i h1 h8 => ?_⟩
    have hcount : ∀ i < 9, 1 ≤ i →
        ((List.range 1).map passSel).count (8 - i) = (2 * 1 + 2 ^ i) / 2 ^ (i + 1) := by decide
    exact hcount i (by omega) h1

/-- **The bits of a pass** over a weight that is not 0: the table, with its first
entry twice. It is the table itself only for a weight of magnitude 1. -/
theorem pass_table_iff (mvm : MVM) {before pass : List Input}
    (hr : ∀ i ∈ before ++ pass, i.iRstCtrl = false)
    (horder : InMatMulOrder (slave.events (TestSlave.afterReset mvm) before))
    (hpass : PassRun (slave.run (TestSlave.afterReset mvm) before) pass)
    (hw : weight (slave.run (TestSlave.afterReset mvm) before) ≠ 0) :
    sampler.events (slave.run (TestSlave.afterReset mvm) before) pass =
        (List.range (weight (slave.run (TestSlave.afterReset mvm) before)).toInt.natAbs).map
          (fun j => FSM16State.sel (BitVec.ofNat 8 (j - 1))) ∧
      (FollowsTable (sampler.events (slave.run (TestSlave.afterReset mvm) before) pass)
          (weight (slave.run (TestSlave.afterReset mvm) before)).toInt.natAbs ↔
        (weight (slave.run (TestSlave.afterReset mvm) before)).toInt.natAbs = 1) := by
  have hpos : 1 ≤ (weight (slave.run (TestSlave.afterReset mvm) before)).toInt.natAbs :=
    Nat.one_le_iff_ne_zero.mpr (mt (natAbs_eq_zero_iff _).mp hw)
  have hevents := pass_schedule mvm hr horder hpass
  rw [passLen, mag_eq, max_eq_right hpos] at hevents
  rw [hevents]
  exact ⟨rfl, followsTable_passSel_iff hpos⟩

/-! ## The first vector after a reset -/

/-- The clocks up to the start of a vector of the words `d`. -/
def firstVector (d : Nat → BitVec 32) : List Input :=
  requests ((List.range 64).map fun row => .write (d row)) ++ [(Transfer.write (d 64)).request]

/-- A pass without requests never comes back to `GET`. -/
theorem run_pauses {s : TestSlave} (h : s.Starts) (k : Nat) :
    (slave.run s (List.replicate (k + 1) pause)).currentStateR ≠ .get := by
  have hstate : ∀ k, (slave.run s (List.replicate (k + 1) pause)).currentStateR = .wait ∨
      (slave.run s (List.replicate (k + 1) pause)).currentStateR = .done ∨
      (slave.run s (List.replicate (k + 1) pause)).currentStateR = .idle := by
    intro k
    induction k with
    | zero =>
      show (s.clock pause).currentStateR = .wait ∨ _
      rw [TestSlave.clock_get_full h.1 rfl h.2]
      exact .inl rfl
    | succ k ih =>
      rw [List.replicate_succ', Lib.Clocked.run_append]
      rcases ih with hs | hs | hs
      · refine .inr (.inl ?_)
        show (TestSlave.clock _ pause).currentStateR = _
        rw [TestSlave.clock_wait hs rfl]
      · refine .inr ?_
        show (TestSlave.clock _ pause).currentStateR = .done ∨
          (TestSlave.clock _ pause).currentStateR = .idle
        cases ha : (slave.run s (List.replicate (k + 1) pause)).topMvm.isAcc with
        | true =>
          rw [TestSlave.clock_done_busy hs rfl ha]
          exact .inl hs
        | false =>
          rw [TestSlave.clock_done_free hs rfl ha]
          exact .inr rfl
      · refine .inr (.inr ?_)
        show (TestSlave.clock _ pause).currentStateR = _
        rw [TestSlave.clock_idle_rest hs rfl rfl rfl]
        exact hs
  intro hget
  rcases hstate k with hs | hs | hs <;> rw [hs] at hget <;> cases hget

/-- The last word of a vector starts it, and brings its weight. -/
theorem starts_of_last_word {s : TestSlave} (h : s.currentStateR = .idle)
    (hdim : s.dimCounterR = TestSlave.DIM_WRITE) (d : BitVec 32) :
    (s.clock (Transfer.write d).request).Starts ∧
      weight (s.clock (Transfer.write d).request) = d.extractLsb' 0 8 := by
  rw [TestSlave.clock_idle_write h rfl rfl]
  refine ⟨⟨rfl, hdim⟩, ?_⟩
  show s.writeMatrix d (Fin.last DIM) = _
  rw [TestSlave.writeMatrix, hdim]
  rfl

/-- The pass over the first vector, followed by pauses. -/
theorem firstVector_passRun (mvm : MVM) (d : Nat → BitVec 32) :
    (∀ i ∈ firstVector d ++ List.replicate 131 pause, i.iRstCtrl = false) ∧
      InMatMulOrder (slave.events (TestSlave.afterReset mvm) (firstVector d)) ∧
      PassRun (slave.run (TestSlave.afterReset mvm) (firstVector d)) (List.replicate 131 pause) ∧
      weight (slave.run (TestSlave.afterReset mvm) (firstVector d)) = (d 64).extractLsb' 0 8 := by
  set ts : List Transfer := (List.range 64).map fun row => .write (d row) with hts
  have hlen : ts.length = 64 := by rw [hts, List.length_map, List.length_range]
  have hwrites : ∀ t ∈ ts ++ [.write (d 64)], t.isWrite = true := by
    intro t ht
    rcases List.mem_append.mp ht with ht | ht
    · obtain ⟨row, -, rfl⟩ := List.mem_map.mp ht
      rfl
    · rw [List.mem_singleton.mp ht]
      rfl
  obtain ⟨hevents, hidle, k, hk⟩ := (coupled_afterReset mvm fun _ => 0).served rfl ts
  -- the 64 writes have left the write position at the weight byte
  have hdim : (slave.run (TestSlave.afterReset mvm) (requests ts)).dimCounterR =
      TestSlave.DIM_WRITE := by
    have hbeat := (inMatMulOrder_writes (fun t ht => hwrites t (List.mem_append_left _ ht))
      (by omega)).onBeat false fun _ => 0
    have h64 : (ts.foldl Ledger.apply (Ledger.start false fun _ => 0)).writes = 64 := by
      have hcount := hbeat.writes
      rw [hlen] at hcount
      omega
    rw [(hk.at_idle hidle).2.1.dim, h64]
    rfl
  obtain ⟨hstarts, hweight⟩ := starts_of_last_word hidle hdim (d 64)
  have hrun : slave.run (TestSlave.afterReset mvm) (firstVector d) =
      (slave.run (TestSlave.afterReset mvm) (requests ts)).clock
        (Transfer.write (d 64)).request := by
    rw [firstVector, Lib.Clocked.run_append]
    rfl
  rw [← hrun] at hstarts hweight
  refine ⟨?_, ?_, ⟨hstarts, by decide, ?_, ?_⟩, ?_⟩
  · intro i hi
    rcases List.mem_append.mp hi with hi | hi
    · rcases List.mem_append.mp hi with hi | hi
      · exact requests_quiet _ i hi
      · rw [List.mem_singleton.mp hi]
        rfl
    · rw [List.eq_of_mem_replicate hi]
      rfl
  · have hall : slave.events (TestSlave.afterReset mvm) (firstVector d) =
        ts ++ [.write (d 64)] := by
      rw [firstVector, Lib.Clocked.events_append, ← hts, hevents, Lib.Clocked.events_cons,
        emit_idle_write hidle rfl]
      rfl
    rw [hall]
    refine inMatMulOrder_writes hwrites ?_
    rw [List.length_append, hlen]
    exact (show 65 ≤ 8320 by omega)
  · intro k hpos hlt
    obtain ⟨k, rfl⟩ := Nat.exists_eq_succ_of_ne_zero (Nat.ne_of_gt hpos)
    rw [List.length_replicate] at hlt
    rw [List.take_replicate, Nat.min_eq_left (Nat.le_of_lt hlt)]
    exact fun h => run_pauses hstarts k h.1
  · obtain ⟨k', hk', -⟩ := coupled_clock (i := (Transfer.write (d 64)).request) hk rfl
    rw [show slave.next = TestSlave.clock from rfl, ← hrun] at hk'
    exact .inr (hk'.pauses 131 (.inl hk'.bound_le)).2.1
  · exact hweight

/-- The bits of the first pass after a reset. -/
theorem firstVector_events (mvm : MVM) (d : Nat → BitVec 32) :
    sampler.events (slave.run (TestSlave.afterReset mvm) (firstVector d))
        (List.replicate 131 pause) =
      (List.range (passLen ((d 64).extractLsb' 0 8))).map passSel := by
  obtain ⟨hr, horder, hpass, hweight⟩ := firstVector_passRun mvm d
  rw [pass_schedule mvm hr horder hpass, hweight]

/-- The pass over a first vector with weight 3. -/
theorem pass_length_three :
    (sampler.events (slave.run (TestSlave.afterReset MVM.cleared) (firstVector fun _ => 3))
        (List.replicate 131 pause)).length =
        (weight (slave.run (TestSlave.afterReset MVM.cleared)
          (firstVector fun _ => 3))).toInt.natAbs ↔
      weight (slave.run (TestSlave.afterReset MVM.cleared) (firstVector fun _ => 3)) ≠ 0 := by
  obtain ⟨hr, horder, hpass, -⟩ := firstVector_passRun MVM.cleared fun _ => 3
  exact pass_length_iff MVM.cleared hr horder hpass

/-- A vector of zeros: its weight is 0, and its pass enables one clock. -/
theorem pass_length_zero :
    (∀ i ∈ firstVector (fun _ => 0) ++ List.replicate 131 pause, i.iRstCtrl = false) ∧
      InMatMulOrder (slave.events (TestSlave.afterReset MVM.cleared) (firstVector fun _ => 0)) ∧
      PassRun (slave.run (TestSlave.afterReset MVM.cleared) (firstVector fun _ => 0))
        (List.replicate 131 pause) ∧
      weight (slave.run (TestSlave.afterReset MVM.cleared) (firstVector fun _ => 0)) = 0 ∧
      (sampler.events (slave.run (TestSlave.afterReset MVM.cleared) (firstVector fun _ => 0))
        (List.replicate 131 pause)).length = 1 := by
  obtain ⟨hr, horder, hpass, hweight⟩ := firstVector_passRun MVM.cleared fun _ => 0
  refine ⟨hr, horder, hpass, hweight, ?_⟩
  rw [firstVector_events]
  rfl

/-- The pass over a first vector with weight 3: bits 7, 7, 6. -/
theorem pass_table_three :
    sampler.events (slave.run (TestSlave.afterReset MVM.cleared) (firstVector fun _ => 3))
        (List.replicate 131 pause) =
        (List.range (weight (slave.run (TestSlave.afterReset MVM.cleared)
          (firstVector fun _ => 3))).toInt.natAbs).map
          (fun j => FSM16State.sel (BitVec.ofNat 8 (j - 1))) ∧
      (FollowsTable (sampler.events (slave.run (TestSlave.afterReset MVM.cleared)
          (firstVector fun _ => 3)) (List.replicate 131 pause))
          (weight (slave.run (TestSlave.afterReset MVM.cleared)
            (firstVector fun _ => 3))).toInt.natAbs ↔
        (weight (slave.run (TestSlave.afterReset MVM.cleared)
          (firstVector fun _ => 3))).toInt.natAbs = 1) := by
  obtain ⟨hr, horder, hpass, hweight⟩ := firstVector_passRun MVM.cleared fun _ => 3
  exact pass_table_iff MVM.cleared hr horder hpass (by rw [hweight]; decide)

/-- With weight 2 both clocks take bit 7, where the table has 7 and 6. -/
theorem pass_table_two :
    (∀ i ∈ firstVector (fun _ => 2) ++ List.replicate 131 pause, i.iRstCtrl = false) ∧
      InMatMulOrder (slave.events (TestSlave.afterReset MVM.cleared) (firstVector fun _ => 2)) ∧
      PassRun (slave.run (TestSlave.afterReset MVM.cleared) (firstVector fun _ => 2))
        (List.replicate 131 pause) ∧
      weight (slave.run (TestSlave.afterReset MVM.cleared) (firstVector fun _ => 2)) = 2 ∧
      sampler.events (slave.run (TestSlave.afterReset MVM.cleared) (firstVector fun _ => 2))
        (List.replicate 131 pause) = [7, 7] ∧
      ¬ FollowsTable (sampler.events (slave.run (TestSlave.afterReset MVM.cleared)
        (firstVector fun _ => 2)) (List.replicate 131 pause)) 2 := by
  obtain ⟨hr, horder, hpass, hweight⟩ := firstVector_passRun MVM.cleared fun _ => 2
  refine ⟨hr, horder, hpass, hweight, ?_, ?_⟩
  · rw [firstVector_events]
    rfl
  · rw [firstVector_events]
    show ¬ FollowsTable ((List.range 2).map passSel) 2
    rw [followsTable_passSel_iff (by decide)]
    decide

end DcnnFpga.Rtl
