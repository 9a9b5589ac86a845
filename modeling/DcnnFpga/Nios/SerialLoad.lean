import DcnnFpga.Nios.LoadedLayer
import DcnnFpga.Uart.Baud
import DcnnFpga.Uart.Polled

/-!
# Loading through the serial core

`read_event` on the core: the processor polls as long as its arrays are not full, and
what it gets is the data register of the core in the clock after the read. A poll takes
a byte out of the FIFO exactly when the driver finds the valid bit (`dequeued_pollLine`),
so the bytes `read_event` sees are those that arrived.

As long as bytes are missing, every poll behind the last arrival finds one: the calls
return, and each array holds the bytes the sender sent for it (`loaded_over_wire`).
-/

namespace DcnnFpga.Nios

open Lib Rtl Uart

/-! ## The data register -/

/-- The driver reads a valid bit and a byte. -/
theorem dequeued_eq (dataReg : BitVec 32) :
    dequeued dataReg = if dataReg.getLsbD 15 then some (dataReg.setWidth 8) else none := by
  have hbit : dataReg &&& 0x00008000 = if dataReg.getLsbD 15 then 0x00008000 else 0 :=
    BitVec.and_twoPow dataReg 15
  have hmask : ∀ k < 8, (0x000001FF : BitVec 32).getLsbD k = true := by decide
  have hdata : (readData dataReg).2.1 = dataReg.setWidth 8 := by
    apply BitVec.eq_of_getLsbD_eq
    intro k hk
    rw [readData, BitVec.ushiftRight_zero, BitVec.getLsbD_setWidth, BitVec.getLsbD_and,
      hmask k hk, Bool.and_true, BitVec.getLsbD_setWidth]
  rw [dequeued, hdata, readData, hbit]
  cases dataReg.getLsbD 15 <;> rfl

/-- And the core puts them where the driver looks. -/
theorem dequeued_dataReg {F : SyncFifo} (s : Rs232 F) :
    dequeued s.dataReg =
      if s.inDeserializer.receivedDataValid then some s.inDeserializer.receivedData else none := by
  have hvalid : s.dataReg.getLsbD 15 = s.inDeserializer.receivedDataValid := by
    rw [Rs232.dataReg]
    simp only [BitVec.getLsbD_append]
    cases s.inDeserializer.receivedDataValid <;> rfl
  have hdata : s.dataReg.setWidth 8 = s.inDeserializer.receivedData :=
    BitVec.setWidth_append_eq_right
  rw [dequeued_eq, hvalid, hdata]

/-- What the processor gets at its polls. -/
def pollLine {F : SyncFifo} (s : Rs232 F) (ins : Nat → Bus × Bool) (clockOf : Nat → Nat)
    (k : Nat) : BitVec 32 :=
  ((core F).after s ins (clockOf k + 1)).readdata

section Polling

variable {F : SyncFifo} {s : Rs232 F} {ins : Nat → Bus × Bool} {clockOf : Nat → Nat}

/-- A poll gets the byte it takes out of the FIFO. -/
theorem dequeued_pollLine (hr : ∀ n, (ins n).1.reset = false) {k : Nat}
    (hread : (ins (clockOf k)).1.readFifoReadEn = true) :
    (dequeued (pollLine s ins clockOf k)).toList =
      ((core F).after s ins (clockOf k)).takenBy (ins (clockOf k)).1 := by
  have hselect : (ins (clockOf k)).1.chipselect = true ∧ (ins (clockOf k)).1.address = false := by
    rw [Bus.readFifoReadEn] at hread
    simp only [Bool.and_eq_true, Bool.not_eq_true'] at hread
    exact ⟨hread.1.1.1, hread.1.2⟩
  have hreg : pollLine s ins clockOf k = ((core F).after s ins (clockOf k)).dataReg := by
    rw [pollLine, Clocked.after]
    show (((core F).after s ins (clockOf k)).clock _ _).readdata = _
    rw [Rs232.clock, hr, hselect.1, hselect.2]
    rfl
  rw [hreg, dequeued_dataReg, Rs232.takenBy, Fifo.popped, hread, InDeserializer.receivedDataValid]
  cases F.empty ((core F).after s ins (clockOf k)).inDeserializer.fifo <;> rfl

variable {asks : Nat → Prop}

theorem taken_poll (hr : ∀ n, (ins n).1.reset = false) (hpolls : Polls F.lag ins clockOf asks)
    {k : Nat} (hask : asks k) (hk : taken s ins (clockOf k) = received (pollLine s ins clockOf) k) :
    taken s ins (clockOf k + 1) = received (pollLine s ins clockOf) (k + 1) := by
  rw [received_succ, dequeued_pollLine hr (hpolls.reads k hask), ← hk]
  rfl

/-- **Run lemma**: what the core has given is what the polls have got. -/
theorem taken_polls (hr : ∀ n, (ins n).1.reset = false) (hpolls : Polls F.lag ins clockOf asks)
    {k : Nat} (hasks : ∀ j < k, asks j) :
    taken s ins (clockOf k) = received (pollLine s ins clockOf) k := by
  induction k with
  | zero => exact taken_quiet (Nat.zero_le _) hpolls.quiet_first
  | succ k ih =>
    have hprev := ih fun j hj => hasks j (Nat.lt_succ_of_lt hj)
    rw [taken_quiet (hpolls.clockOf_lt (Nat.lt_succ_self k)) (hpolls.quiet k)]
    exact taken_poll hr hpolls (hasks k (Nat.lt_succ_self k)) hprev

end Polling

/-! ## Enough polls -/

/-- The processor polls as long as it has fewer than `total` bytes. -/
def PollsFor {F : SyncFifo} (s : Rs232 F) (ins : Nat → Bus × Bool) (clockOf : Nat → Nat)
    (total : Nat) : Prop :=
  Polls F.lag ins clockOf fun k => (received (pollLine s ins clockOf) k).length < total

/-- And as long, the FIFO finds room for what arrives. -/
def RoomUntil {F : SyncFifo} (s : Rs232 F) (ins : Nat → Bus × Bool) (total : Nat) : Prop :=
  ∀ n, (taken s ins n).length < total →
    ((core F).after s ins n).inDeserializer.counters.allBitsTransmitted = true →
    F.full ((core F).after s ins n).inDeserializer.fifo = false

section Loading

variable {F : SyncFifo} {s : Rs232 F} {ins : Nat → Bus × Bool} {clockOf : Nat → Nat} {total : Nat}

theorem taken_length_le (s : Rs232 F) (ins : Nat → Bus × Bool) {n m : Nat} (h : n ≤ m) :
    (taken s ins n).length ≤ (taken s ins m).length :=
  ((core F).logTo_growth _ s ins h).1.length_le

theorem arrivals_isPrefix (s : Rs232 F) (ins : Nat → Bus × Bool) {n m : Nat} (h : n ≤ m) :
    arrivals s ins n <+: arrivals s ins m :=
  ((core F).logTo_growth _ s ins h).1

theorem RoomUntil.hasRoom (h : RoomUntil s ins total) {n : Nat}
    (hfew : ∀ k < n, (taken s ins k).length < total) : HasRoom s ins n :=
  fun k hk => h k (hfew k hk)

/-- Behind the last arrival every poll gets a byte, while some are missing. -/
theorem received_grows (hs : s.Fresh) (hr : ∀ n, (ins n).1.reset = false)
    (hpolls : PollsFor s ins clockOf total) (hroom : RoomUntil s ins total)
    (hall : ∀ k, (received (pollLine s ins clockOf) k).length < total) {t k : Nat}
    (harrived : total ≤ (arrivals s ins t).length) (hk : t ≤ clockOf k) :
    (received (pollLine s ins clockOf) (k + 2)).length =
      (received (pollLine s ins clockOf) (k + 1)).length + 1 := by
  have hread : (ins (clockOf (k + 1))).1.readFifoReadEn = true :=
    hpolls.reads _ (hall _)
  have htaken := taken_polls (s := s) hr hpolls (k := k + 1) fun j _ => hall j
  have hquiet := hpolls.quiet k
  have hapart := hpolls.apart k
  -- something waits behind poll `k`
  have hwaiting : waiting s ins (clockOf k + 1) ≠ [] := by
    intro hnone
    have hfew : (taken s ins (clockOf (k + 1))).length < total := by rw [htaken]; exact hall _
    have hhere := taken_append hs hr (n := clockOf k + 1) (hroom.hasRoom fun j hj =>
      Nat.lt_of_le_of_lt (taken_length_le s ins (by omega)) hfew)
    have hmore := (arrivals_isPrefix s ins (show t ≤ clockOf k + 1 by omega)).length_le
    rw [show F.contents _ = [] from hnone, List.append_nil] at hhere
    rw [← hhere] at hmore
    have hlater := taken_length_le s ins
      (show clockOf k + 1 ≤ clockOf (k + 1) by omega)
    omega
  have hshown := shown_quiet hr (show clockOf k + 1 + F.lag ≤ clockOf (k + 1) by omega) hquiet
    hwaiting
  rw [received_succ, dequeued_pollLine hr hread, List.length_append, Rs232.takenBy, Fifo.popped,
    hread, hshown]
  rfl

/-- So the polls suffice. -/
theorem polls_suffice (hs : s.Fresh) (hr : ∀ n, (ins n).1.reset = false)
    (hpolls : PollsFor s ins clockOf total) (hroom : RoomUntil s ins total) {t : Nat}
    (harrived : total ≤ (arrivals s ins t).length) :
    ∃ m, total ≤ (received (pollLine s ins clockOf) m).length := by
  by_contra hnone
  have hall : ∀ k, (received (pollLine s ins clockOf) k).length < total := fun k =>
    Nat.lt_of_not_le fun hk => hnone ⟨k, hk⟩
  have hgrow : ∀ j, j ≤ (received (pollLine s ins clockOf) (t + 1 + j)).length := by
    intro j
    induction j with
    | zero => exact Nat.zero_le _
    | succ j ih =>
      have hlate : t ≤ clockOf (t + j) := (Nat.le_add_right t j).trans hpolls.strictMono.le_apply
      have hnext := received_grows hs hr hpolls hroom hall harrived hlate
      rw [show t + 1 + (j + 1) = t + j + 2 by omega, hnext]
      rw [show t + 1 + j = t + j + 1 by omega] at ih
      exact Nat.succ_le_succ ih
  exact absurd (hgrow total) (Nat.not_le_of_lt (hall _))

/-- The poll that gets the last byte asked for: everything so far is what arrived. -/
theorem polls_until (hs : s.Fresh) (hr : ∀ n, (ins n).1.reset = false)
    (hpolls : PollsFor s ins clockOf total) (hroom : RoomUntil s ins total) {m : Nat}
    (hmin : ∀ k < m, (received (pollLine s ins clockOf) k).length < total)
    (hlast : total ≤ (received (pollLine s ins clockOf) m).length) :
    (received (pollLine s ins clockOf) m).length = total ∧
      ∃ n, received (pollLine s ins clockOf) m <+: arrivals s ins n := by
  cases m with
  | zero => exact ⟨Nat.le_antisymm (Nat.zero_le _) hlast, 0, List.nil_prefix⟩
  | succ m =>
    have hbefore := hmin m (Nat.lt_succ_self m)
    have htaken := taken_polls (s := s) hr hpolls fun j hj => hmin j (Nat.lt_succ_of_lt hj)
    have hroomy : HasRoom s ins (clockOf m + 1) := hroom.hasRoom fun j hj => by
      have hle := taken_length_le s ins (Nat.le_of_lt_succ hj)
      rw [htaken] at hle
      exact Nat.lt_of_le_of_lt hle hbefore
    have hone : (dequeued (pollLine s ins clockOf m)).toList.length ≤ 1 := by
      cases dequeued (pollLine s ins clockOf m) with
      | none => exact Nat.zero_le 1
      | some b => exact Nat.le_refl 1
    refine ⟨?_, clockOf m + 1, ?_⟩
    · rw [received_succ, List.length_append] at hlast ⊢
      omega
    · rw [← taken_poll hr hpolls hbefore htaken, ← taken_append hs hr hroomy]
      exact List.prefix_append _ _

/-- What the polls get of the bytes that arrive. -/
theorem polls_got (hs : s.Fresh) (hr : ∀ n, (ins n).1.reset = false)
    (hpolls : PollsFor s ins clockOf total) (hroom : RoomUntil s ins total) {t : Nat}
    {bytes : List (BitVec 8)} (harrived : arrivals s ins t = bytes)
    (henough : total ≤ bytes.length) :
    ∃ m, received (pollLine s ins clockOf) m = bytes.take total := by
  have hexists := polls_suffice hs hr hpolls hroom (harrived ▸ henough)
  obtain ⟨m, hlast, hmin⟩ : ∃ m, total ≤ (received (pollLine s ins clockOf) m).length ∧
      ∀ k < m, (received (pollLine s ins clockOf) k).length < total :=
    ⟨Nat.find hexists, Nat.find_spec hexists, fun k hk =>
      Nat.lt_of_not_le (Nat.find_min hexists hk)⟩
  obtain ⟨hlen, n, hlead⟩ := polls_until hs hr hpolls hroom hmin hlast
  have hgot : received (pollLine s ins clockOf) m <+: bytes := by
    refine List.prefix_of_prefix_length_le
      (hlead.trans (arrivals_isPrefix s ins (Nat.le_max_left n t)))
      (harrived ▸ arrivals_isPrefix s ins (Nat.le_max_right n t)) ?_
    rw [hlen]
    exact henough
  exact ⟨m, hlen ▸ List.prefix_iff_eq_take.mp hgot⟩

/-- Polled once in the time of a frame the FIFO always finds room. -/
theorem roomUntil_of_often (hs : s.Fresh) (hr : ∀ n, (ins n).1.reset = false)
    (hpolls : PollsFor s ins clockOf total) (hfirst : clockOf 0 ≤ 6522)
    (hoften : ∀ k, clockOf (k + 1) ≤ clockOf k + 6523) : RoomUntil s ins total := by
  intro n hfew hall
  have hasks : ∀ k, clockOf k < n → (received (pollLine s ins clockOf) k).length < total := by
    intro k
    induction k using Nat.strongRecOn with
    | ind k ih =>
      intro hk
      have hearlier := taken_polls (s := s) hr hpolls fun j hj =>
        ih j hj (Nat.lt_trans (hpolls.clockOf_lt hj) hk)
      rw [← hearlier]
      exact Nat.lt_of_le_of_lt (taken_length_le s ins (Nat.le_of_lt hk)) hfew
  obtain ⟨hroom, htwo⟩ := few_between hs hr hpolls hfirst hoften hasks
  exact hroom.succ htwo n (Nat.lt_succ_self n) hall

end Loading

/-! ## From the sender to the arrays -/

/-- The line of a sender that waits `start` clocks and then has `L` clocks a bit. -/
def Sends (ins : Nat → Bus × Bool) (L start : Nat) (frames : List Frame) : Prop :=
  ∀ n, (ins n).2 = if n < start then true else wave L frames (n - start)

/-- Every array holds the decodings of its own bytes, and what it held behind them. -/
def SharedOut (calls : List (Nat × Bytes)) (bytes : List (BitVec 8)) (results : List Reader) :
    Prop :=
  results.length = calls.length ∧
    ∀ j n wData r, calls[j]? = some (n, wData) → results[j]? = some r →
      (∀ i < n, ∃ b, bytes[((calls.map Prod.fst).take j).sum + i]? = some b ∧
        r.wData i = transform b) ∧
      ∀ i, n ≤ i → r.wData i = wData i

section Sender

variable {F : SyncFifo} {ins : Nat → Bus × Bool} {clockOf : Nat → Nat} {L start : Nat}
  {frames : List Frame}

/-- The polls get what a sender in time sends. -/
theorem polls_got_sent {s : Rs232 F} (hs : s.Fresh) (hr : ∀ n, (ins n).1.reset = false)
    (hL : 1 ≤ L) (hpaced : Paced L 0 frames) (hline : Sends ins L start frames) {total : Nat}
    (henough : total ≤ frames.length) (hpolls : PollsFor s ins clockOf total)
    (hroom : RoomUntil s ins total) :
    ∃ m, received (pollLine s ins clockOf) m = (frames.map Frame.byte).take total := by
  have harrived : arrivals s ins (start + waveLength L frames + 6523) = frames.map Frame.byte := by
    rw [arrivals_eq]
    exact hpaced.understands hs.rx hL start (rxInput ins) hr hline _ (Nat.le_refl _)
  refine polls_got hs hr hpolls hroom harrived ?_
  rw [List.length_map]
  exact henough

/-- **Loading over the wire**: after a reset clock from any registers, a sender in time
and a processor that polls until its arrays are full, with room for the bytes that
wait meanwhile. The calls return, and every byte sent is where it belongs. -/
theorem loaded_over_wire (F : SyncFifo) (s : Rs232 F) {i : Bus × Bool} (hi : i.1.reset = true)
    (hr : ∀ n, (ins n).1.reset = false) (hL : 1 ≤ L) (hpaced : Paced L 0 frames)
    (hline : Sends ins L start frames) {calls : List (Nat × Bytes)} (hpos : ∀ c ∈ calls, 1 ≤ c.1)
    (henough : (calls.map Prod.fst).sum ≤ frames.length)
    (hpolls : PollsFor ((core F).next s i) ins clockOf (calls.map Prod.fst).sum)
    (hroom : RoomUntil ((core F).next s i) ins (calls.map Prod.fst).sum) (par : BitVec 8) :
    ∃ fuel₀, ∀ fuel, fuel₀ ≤ fuel → ∃ results,
      readEvents fuel (pollLine ((core F).next s i) ins clockOf) calls 0 par = some results ∧
        SharedOut calls (frames.map Frame.byte) results := by
  have hs : ((core F).next s i).Fresh := s.fresh_reset hi _
  obtain ⟨m, hm⟩ := polls_got_sent hs hr hL hpaced hline henough hpolls hroom
  refine ⟨m + 1, fun fuel hfuel => ?_⟩
  have hnone : (received (pollLine ((core F).next s i) ins clockOf) 0).length = 0 := rfl
  obtain ⟨results, hresults, hlen, hloaded⟩ := readEvents_spec (m := m) hpos hnone
    (by rw [hm, List.length_take, List.length_map]; omega) par hfuel
  refine ⟨results, hresults, hlen, fun j n wData r hcall hresult => ?_⟩
  obtain ⟨hfilled, hbeyond, -⟩ := hloaded j n wData r hcall hresult
  refine ⟨fun k hk => ?_, hbeyond⟩
  obtain ⟨b, hb, hcell⟩ := hfilled k hk
  rw [hm, Nat.zero_add, List.getElem?_take] at hb
  split at hb
  · exact ⟨b, hb, hcell⟩
  · cases hb

/-- A sender that does not wait. -/
theorem sends_zero {bus : Nat → Bus} : Sends (fun n => (bus n, wave L frames n)) L 0 frames := by
  intro n
  rw [if_neg (Nat.not_lt_zero n), Nat.sub_zero]

/-- Eight bytes from a sender that is a little fast. -/
def eightFrames : List Frame :=
  [⟨2, 13⟩, ⟨0x83, 13⟩, ⟨0x7f, 40⟩, ⟨5, 13⟩, ⟨1, 13⟩, ⟨0x81, 2000⟩, ⟨0x40, 13⟩, ⟨0xff, 13⟩]

theorem paced_eightFrames : Paced 651 0 eightFrames :=
  paced_of_spaced (by decide) (by decide) (by decide)

/-- Polled every 6523 clocks, into arrays of three and four bytes. -/
theorem loaded_over_wire_eightFrames :
    let ins : Nat → Bus × Bool := fun n =>
      (readBus (fun n => decide (n % 6523 = 0)) n, wave 651 eightFrames n)
    ∃ fuel₀, ∀ fuel, fuel₀ ≤ fuel → ∃ results,
      readEvents fuel (pollLine ((core _).next scrambled (resetBus, true)) ins (6523 * ·))
        [(3, fun _ => 7), (4, fun _ => 9)] 0 0 = some results ∧
        SharedOut [(3, fun _ => 7), (4, fun _ => 9)]
          [2, 0x83, 0x7f, 5, 1, 0x81, 0x40, 0xff] results := by
  intro ins
  have hpolls : PollsFor ((core _).next scrambled (resetBus, true)) ins (6523 * ·) 7 :=
    polls_every (Nat.zero_le _) (readBus_reads _) _
  refine loaded_over_wire _ scrambled rfl (fun _ => rfl) (by decide) paced_eightFrames sends_zero
    (by decide) (by decide) hpolls ?_ 0
  exact roomUntil_of_often (scrambled.fresh_reset rfl _) (fun _ => rfl) hpolls (by decide)
    fun k => by omega

/-- **From the wire to the scores**: a layer of at most 256 rows and columns, its data and
then its weights sent by a sender in time to a core that is polled once in the time of a
frame. After a reset of the core and of the slave from any registers, the scores are
within four units a column of the product of the values sent. -/
theorem scores_over_wire (F : SyncFifo) (s : Rs232 F) {i : Bus × Bool} (hi : i.1.reset = true)
    (hr : ∀ n, (ins n).1.reset = false) (hL : 1 ≤ L) (hpaced : Paced L 0 frames)
    (hline : Sends ins L start frames)
    {imageH imageW filterHeight filterWeight filterNum : Nat}
    (hN : 1 ≤ imageH * imageW) (hN' : imageH * imageW ≤ 256)
    (hK : 1 ≤ filterHeight * filterWeight) (hK' : filterHeight * filterWeight ≤ 256)
    (hF : 1 ≤ filterNum)
    (henough : imageH * imageW * (filterHeight * filterWeight) +
      filterHeight * filterWeight * filterNum ≤ frames.length)
    (hpolls : PollsFor ((core F).next s i) ins clockOf
      (imageH * imageW * (filterHeight * filterWeight) + filterHeight * filterWeight * filterNum))
    (hfirst : clockOf 0 ≤ 6522) (hoften : ∀ k, clockOf (k + 1) ≤ clockOf k + 6523)
    (dataArr weightArr : Bytes) (par : BitVec 8) (slave : TestSlave) (j : Input) (k : Nat)
    (fabrics : Nat → Fabric) (beyond : Bytes) :
    ∃ fuel₀, ∀ fuel, fuel₀ ≤ fuel → ∃ d w t,
      readEvents fuel (pollLine ((core F).next s i) ins clockOf)
        [(imageH * imageW * (filterHeight * filterWeight), dataArr),
          (filterHeight * filterWeight * filterNum, weightArr)] 0 par = some [d, w] ∧
      Product.fullyConnencted
        ⟨d.wData, imageH, imageW, w.wData, filterHeight, filterWeight, filterNum⟩
        (slaveMatMul fuel fabrics) (slave.clock { j with iRstCtrl := true }, k) beyond (fun _ => 0)
          = some t ∧
      ScoresSent (frames.map Frame.byte)
        ⟨d.wData, imageH, imageW, w.wData, filterHeight, filterWeight, filterNum⟩
        t.outputMat := by
  have hs : ((core F).next s i).Fresh := s.fresh_reset hi _
  obtain ⟨m, hm⟩ := polls_got_sent hs hr hL hpaced hline henough hpolls
    (roomUntil_of_often hs hr hpolls hfirst hoften)
  refine ⟨max 132 (m + 1), fun fuel hfuel => ?_⟩
  have hgot : imageH * imageW * (filterHeight * filterWeight) +
      filterHeight * filterWeight * filterNum ≤
        (received (pollLine ((core F).next s i) ins clockOf) m).length := by
    rw [hm, List.length_take, List.length_map]
    omega
  obtain ⟨d, w, hread, hd, hw⟩ := readEvents_two (Nat.mul_pos hN hK) (Nat.mul_pos hK hF) hgot par
    dataArr weightArr (show m < fuel by omega)
  obtain ⟨t, ht, hscores⟩ := loaded_layer hN' hK hK' hd hw (show 132 ≤ fuel by omega) fabrics slave
    j k beyond
  refine ⟨d, w, t, hread, ht, hscores.congr fun l hl => ?_⟩
  dsimp only [Product.flattenNum, Product.filterSize] at hl
  rw [hm, wireByte, wireByte, List.getD_eq_getElem?_getD, List.getElem?_take_of_lt hl,
    List.getD_eq_getElem?_getD]

/-- Two rows of two columns, under two filters. -/
theorem scores_over_wire_eightFrames :
    let ins : Nat → Bus × Bool := fun n =>
      (readBus (fun n => decide (n % 6523 = 0)) n, wave 651 eightFrames n)
    ∃ fuel₀, ∀ fuel, fuel₀ ≤ fuel → ∃ d w t,
      readEvents fuel (pollLine ((core _).next scrambled (resetBus, true)) ins (6523 * ·))
        [(2 * 1 * (1 * 2), fun _ => 0), (1 * 2 * 2, fun _ => 0)] 0 0 = some [d, w] ∧
      Product.fullyConnencted ⟨d.wData, 2, 1, w.wData, 1, 2, 2⟩
        (slaveMatMul fuel fun _ => directFabric)
        (corrupt.clock { idleInput 0 with iRstCtrl := true }, 0) (fun _ => 0x77) (fun _ => 0)
          = some t ∧
      ScoresSent [2, 0x83, 0x7f, 5, 1, 0x81, 0x40, 0xff]
        ⟨d.wData, 2, 1, w.wData, 1, 2, 2⟩ t.outputMat := by
  intro ins
  have hpolls : PollsFor ((core _).next scrambled (resetBus, true)) ins (6523 * ·)
      (2 * 1 * (1 * 2) + 1 * 2 * 2) := polls_every (Nat.zero_le _) (readBus_reads _) _
  exact scores_over_wire _ scrambled rfl (fun _ => rfl) (by decide) paced_eightFrames sends_zero
    (by decide) (by decide) (by decide) (by decide) (by decide) (by decide) hpolls (by decide)
    (fun k => by omega) (fun _ => 0) (fun _ => 0) 0 corrupt (idleInput 0) 0
    (fun _ => directFabric) fun _ => 0x77

end Sender

end DcnnFpga.Nios
