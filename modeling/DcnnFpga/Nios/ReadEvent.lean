import DcnnFpga.Lib.Memory
import DcnnFpga.Nios.MatMul

/-!
# Loading over the serial line (`hello_world.c`)

`read_event` polls the serial line until it has stored `read_num` bytes: each
poll that delivers one is decoded (`transform`), stored behind a running index and
acknowledged. What the processor sees of the line is the data register at every
poll (`line`), and the driver's `alt_up_rs232_read_data` is on that register. A
poll has dequeued a byte exactly when the driver returns 0 for it.

Of a sequence of calls, each with its own array, `loading_in_order` says that they
share out the bytes of the line in order, none lost and none stored twice.
-/

namespace DcnnFpga.Nios

open Lib

/-! ## The driver -/

/-- `alt_up_rs232_check_parity`. -/
def checkParity (dataReg : BitVec 32) : BitVec 32 :=
  if (dataReg &&& 0x00000200) >>> 9 ≠ 0 then -1 else 0

/-- What `alt_up_rs232_read_data` returns, and leaves in `*data` and
`*parity_error`. -/
def readData (dataReg : BitVec 32) : BitVec 32 × BitVec 8 × BitVec 8 :=
  (((dataReg &&& 0x00008000) >>> 15) - 1, ((dataReg &&& 0x000001FF) >>> 0).setWidth 8,
    (checkParity dataReg).setWidth 8)

/-- The byte a poll has dequeued. -/
def dequeued (dataReg : BitVec 32) : Option (BitVec 8) :=
  if (readData dataReg).1 = 0 then some (readData dataReg).2.1 else none

/-- The driver returns 0 or -1. -/
theorem readData_fst (dataReg : BitVec 32) :
    (readData dataReg).1 = 0 ∨ (readData dataReg).1 = -1 := by
  have hbit : dataReg &&& 0x00008000 = if dataReg.getLsbD 15 then 0x00008000 else 0 :=
    BitVec.and_twoPow dataReg 15
  unfold readData
  rw [hbit]
  split
  · exact .inl rfl
  · exact .inr rfl

/-- `fail` is 8 bits wide, which keeps the two results apart. -/
theorem fail_eq_zero_iff (dataReg : BitVec 32) :
    (readData dataReg).1.setWidth 8 = 0 ↔ (readData dataReg).1 = 0 := by
  rcases readData_fst dataReg with h | h
  · rw [h]
    decide
  · rw [h]
    decide

/-! ## `transform` -/

/-- `transform`; the shifts, the exclusive or and the sum are made in `int`. -/
def transform (data : BitVec 8) : BitVec 8 :=
  if data = 128 then 0
  else if (data.setWidth 32).sshiftRight 7 = 1 then
    ((((data.setWidth 32 <<< 1).sshiftRight 1) ^^^ 0xFF) + 1 + 128).setWidth 8
  else data

/-- A byte is its sign and its magnitude; -0 is 0. -/
theorem transform_eq (b : BitVec 8) :
    (b.toNat < 128 → transform b = b) ∧ (b = 128 → transform b = 0) ∧
      (128 < b.toNat → transform b = -(b - 128)) := by
  revert b
  decide

/-! ## `read_event` -/

/-- What `read_event` does, in the order it does it. -/
inductive SerialEvent where
  /-- the data register is read -/
  | poll (dataReg : BitVec 32)
  /-- `*(w_data + count) = data` -/
  | store (count : Nat) (data : BitVec 8)
  | disableReadInterrupt
  | writeData (data : BitVec 8)
  | enableReadInterrupt
deriving Repr, DecidableEq

/-- The locals of `read_event`, the global `par`, and the polls since the start of
the program. -/
structure Reader where
  polls : Nat
  par : BitVec 8
  wData : Bytes
  count : Nat
  events : List SerialEvent

/-- What is done with a byte. -/
def Reader.accept (data : BitVec 8) (s : Reader) : Reader :=
  { s with
    wData := setAt s.wData s.count (transform data)
    count := s.count + 1
    events := s.events ++ [.store s.count (transform data), .disableReadInterrupt, .writeData 1,
      .enableReadInterrupt] }

/-- One round of the loop. -/
def Reader.round (line : Nat → BitVec 32) (s : Reader) : Reader :=
  let p := readData (line s.polls)
  let s' : Reader :=
    { s with
      polls := s.polls + 1
      par := p.2.2
      events := s.events ++ [.poll (line s.polls)] }
  if p.1.setWidth 8 = 0 then s'.accept p.2.1 else s'

/-- The start of a call. -/
def Reader.start (polls : Nat) (par : BitVec 8) (wData : Bytes) : Reader :=
  ⟨polls, par, wData, 0, []⟩

/-- `read_event`, for at most `fuel` polls. -/
def readEvent (fuel : Nat) (line : Nat → BitVec 32) (polls : Nat) (par : BitVec 8)
    (wData : Bytes) (readNum : Nat) : Option Reader :=
  doUntil (Reader.round line) (fun s => s.count == readNum) fuel (.start polls par wData)

/-- Calls one after the other, for these numbers of bytes and into these arrays. -/
def readEvents (fuel : Nat) (line : Nat → BitVec 32) :
    List (Nat × Bytes) → Nat → BitVec 8 → Option (List Reader)
  | [], _, _ => some []
  | (readNum, wData) :: rest, polls, par =>
    (readEvent fuel line polls par wData readNum).bind fun s =>
      (readEvents fuel line rest s.polls s.par).map (s :: ·)

/-! ## The bytes of the line -/

section Line

variable (line : Nat → BitVec 32)

/-- The bytes dequeued by the first `k` polls. -/
def received (k : Nat) : List (BitVec 8) := (List.range k).filterMap fun i => dequeued (line i)

theorem received_succ (k : Nat) :
    received line (k + 1) = received line k ++ (dequeued (line k)).toList := by
  unfold received
  rw [List.range_succ, List.filterMap_append]
  rfl

/-- Later polls only add bytes. -/
theorem received_isPrefix {k m : Nat} (h : k ≤ m) : received line k <+: received line m := by
  induction h with
  | refl => exact List.prefix_refl _
  | step _ ih =>
    refine ih.trans ?_
    rw [received_succ]
    exact List.prefix_append _ _

end Line

/-- The log of a call: every poll that dequeues a byte is followed by its store and
one acknowledgement, every other poll by nothing. -/
inductive Handshake : List SerialEvent → Prop
  | nil : Handshake []
  | idle {l : List SerialEvent} {dataReg : BitVec 32} (h : Handshake l)
      (hnone : dequeued dataReg = none) : Handshake (l ++ [.poll dataReg])
  | byte {l : List SerialEvent} {dataReg : BitVec 32} {b : BitVec 8} (i : Nat) (h : Handshake l)
      (hbyte : dequeued dataReg = some b) :
      Handshake (l ++ [.poll dataReg, .store i (transform b), .disableReadInterrupt,
        .writeData 1, .enableReadInterrupt])

/-- The cell and the value of a store. -/
def SerialEvent.stored : SerialEvent → Option (Nat × BitVec 8)
  | .store i v => some (i, v)
  | _ => none

/-! ## One call -/

/-- A call that has got `s.count` bytes behind the `offset` bytes of earlier calls. -/
structure Reading (line : Nat → BitVec 32) (offset : Nat) (wData : Bytes) (s : Reader) : Prop where
  taken : (received line s.polls).length = offset + s.count
  filled : ∀ i < s.count, ∃ b, (received line s.polls)[offset + i]? = some b ∧
    s.wData i = transform b
  beyond : ∀ i, s.count ≤ i → s.wData i = wData i
  stored : s.events.filterMap SerialEvent.stored =
    (List.range s.count).map fun i => (i, s.wData i)
  handshake : Handshake s.events
  acks : s.events.count (.writeData 1) = s.count

section Call

variable {line : Nat → BitVec 32} {offset : Nat} {wData : Bytes} {s : Reader}

/-- A poll without a byte. -/
theorem Reader.round_none (h : dequeued (line s.polls) = none) :
    s.round line = { s with
      polls := s.polls + 1
      par := (readData (line s.polls)).2.2
      events := s.events ++ [.poll (line s.polls)] } := by
  unfold dequeued at h
  split at h
  next => nomatch h
  next hfail => rw [round, if_neg fun hzero => hfail ((fail_eq_zero_iff _).mp hzero)]

/-- A poll with a byte. -/
theorem Reader.round_some {b : BitVec 8} (h : dequeued (line s.polls) = some b) :
    s.round line =
      { polls := s.polls + 1
        par := (readData (line s.polls)).2.2
        wData := setAt s.wData s.count (transform b)
        count := s.count + 1
        events := s.events ++ [.poll (line s.polls), .store s.count (transform b),
          .disableReadInterrupt, .writeData 1, .enableReadInterrupt] } := by
  unfold dequeued at h
  split at h
  next hzero =>
    obtain rfl := Option.some.inj h
    rw [round, if_pos ((fail_eq_zero_iff _).mpr hzero), accept, List.append_assoc]
    rfl
  next => nomatch h

/-- **Step lemma**, for a poll without a byte. -/
theorem Reading.round_none (h : Reading line offset wData s)
    (hnone : dequeued (line s.polls) = none) : Reading line offset wData (s.round line) := by
  have hsame : received line (s.polls + 1) = received line s.polls := by
    rw [received_succ, hnone]
    exact List.append_nil _
  rw [Reader.round_none hnone]
  exact {
    taken := by rw [hsame]; exact h.taken
    filled := by rw [hsame]; exact h.filled
    beyond := h.beyond
    stored := by
      rw [List.filterMap_append, h.stored]
      exact List.append_nil _
    handshake := h.handshake.idle hnone
    acks := by
      rw [List.count_append, h.acks]
      rfl }

/-- **Step lemma**, for a poll with a byte. -/
theorem Reading.round_some {b : BitVec 8} (h : Reading line offset wData s)
    (hbyte : dequeued (line s.polls) = some b) : Reading line offset wData (s.round line) := by
  have hmore : received line (s.polls + 1) = received line s.polls ++ [b] := by
    rw [received_succ, hbyte]
    rfl
  have hlen := h.taken
  have hbelow : ∀ i < s.count, setAt s.wData s.count (transform b) i = s.wData i :=
    fun i hi => if_neg (Nat.ne_of_lt hi)
  rw [Reader.round_some hbyte]
  exact {
    taken := by
      rw [hmore, List.length_append, hlen]
      rfl
    filled := by
      intro i hi
      rw [hmore]
      rcases Nat.lt_succ_iff_lt_or_eq.mp hi with hi | rfl
      · obtain ⟨c, hc, heq⟩ := h.filled i hi
        refine ⟨c, ?_, (hbelow i hi).trans heq⟩
        rw [List.getElem?_append_left (by omega)]
        exact hc
      · refine ⟨b, ?_, if_pos rfl⟩
        rw [List.getElem?_append_right (by omega), hlen, Nat.sub_self]
        rfl
    beyond := fun i hi =>
      (if_neg (Nat.ne_of_gt hi)).trans (h.beyond i (Nat.le_of_lt hi))
    stored := by
      show _ = (List.range (s.count + 1)).map _
      rw [List.filterMap_append, h.stored, List.range_succ, List.map_append]
      congr 1
      · exact List.map_congr_left fun i hi =>
          congrArg (Prod.mk i) (hbelow i (List.mem_range.mp hi)).symm
      · exact congrArg (fun v => [(s.count, v)]) (if_pos rfl).symm
    handshake := h.handshake.byte s.count hbyte
    acks := by
      rw [List.count_append, h.acks]
      rfl }

theorem Reading.start {polls : Nat} (par : BitVec 8)
    (h : (received line polls).length = offset) :
    Reading line offset wData (.start polls par wData) where
  taken := h
  filled := fun _ hi => nomatch hi
  beyond := fun _ _ => rfl
  stored := rfl
  handshake := .nil
  acks := rfl

end Call

/-- What a call for `n` bytes leaves, when `offset` bytes came before it. -/
structure Loaded (line : Nat → BitVec 32) (m offset n : Nat) (wData : Bytes) (s : Reader) :
    Prop where
  /-- cell `i` holds the decoding of the `i`-th byte behind the earlier ones -/
  filled : ∀ i < n, ∃ b, (received line m)[offset + i]? = some b ∧ s.wData i = transform b
  beyond : ∀ i, n ≤ i → s.wData i = wData i
  /-- the stores, in order -/
  stored : s.events.filterMap SerialEvent.stored = (List.range n).map fun i => (i, s.wData i)
  handshake : Handshake s.events
  acks : s.events.count (.writeData 1) = n
  /-- nothing is polled after the last byte -/
  ended : ∃ l dataReg v, s.events = l ++ [.poll dataReg, .store (n - 1) v, .disableReadInterrupt,
    .writeData 1, .enableReadInterrupt]

section Calls

variable {line : Nat → BitVec 32} {m : Nat}

/-- While bytes are missing, the line still has some before poll `m`. -/
theorem Reading.polls_lt {offset n : Nat} {wData : Bytes} {s : Reader}
    (h : Reading line offset wData s) (hcount : s.count < n)
    (henough : offset + n ≤ (received line m).length) : s.polls < m := by
  by_contra hle
  have hlen := (received_isPrefix line (Nat.le_of_not_lt hle)).length_le
  rw [h.taken] at hlen
  omega

/-- A call that has just stored its last byte, before poll `m`. -/
structure Finished (line : Nat → BitVec 32) (m offset n : Nat) (wData : Bytes) (s : Reader) :
    Prop where
  reading : Reading line offset wData s
  count : s.count = n
  polls : s.polls ≤ m
  ended : ∃ l dataReg v, s.events = l ++ [.poll dataReg, .store (n - 1) v, .disableReadInterrupt,
    .writeData 1, .enableReadInterrupt]

/-- A round stores the last byte, or leaves fewer polls up to `m`. -/
theorem Reading.round {offset n : Nat} {wData : Bytes} {s : Reader}
    (h : Reading line offset wData s) (hcount : s.count < n)
    (henough : offset + n ≤ (received line m).length) :
    (((s.round line).count == n) = true ∧ Finished line m offset n wData (s.round line)) ∨
      (((s.round line).count == n) = false ∧
        (Reading line offset wData (s.round line) ∧ (s.round line).count < n) ∧
        m - (s.round line).polls < m - s.polls) := by
  have hpolls := h.polls_lt hcount henough
  cases hpoll : dequeued (line s.polls) with
  | none =>
    have hnext := h.round_none hpoll
    rw [Reader.round_none hpoll] at hnext ⊢
    refine .inr ⟨?_, ⟨hnext, hcount⟩, ?_⟩
    · exact beq_eq_false_iff_ne.mpr (Nat.ne_of_lt hcount)
    · show m - (s.polls + 1) < m - s.polls
      omega
  | some b =>
    have hnext := h.round_some hpoll
    rw [Reader.round_some hpoll] at hnext ⊢
    by_cases hlast : s.count + 1 = n
    · subst hlast
      exact .inl ⟨beq_iff_eq.mpr rfl, hnext, rfl, hpolls, s.events, line s.polls, transform b, rfl⟩
    · refine .inr ⟨beq_eq_false_iff_ne.mpr hlast, ⟨hnext, ?_⟩, ?_⟩
      · show s.count + 1 < n
        omega
      · show m - (s.polls + 1) < m - s.polls
        omega

/-- **One call** returns as soon as its last byte is stored. -/
theorem readEvent_spec {offset n polls : Nat} (hn : 1 ≤ n)
    (hoffset : (received line polls).length = offset)
    (henough : offset + n ≤ (received line m).length) (par : BitVec 8) (wData : Bytes)
    {fuel : Nat} (hfuel : m < fuel) :
    ∃ s, readEvent fuel line polls par wData n = some s ∧ Loaded line m offset n wData s ∧
      (received line s.polls).length = offset + n := by
  have hreturns : ∃ s, readEvent fuel line polls par wData n = some s ∧
      Finished line m offset n wData s := by
    refine doUntil_inv (P := fun s => Reading line offset wData s ∧ s.count < n)
      (fun s => m - s.polls) ?_ ⟨.start par hoffset, hn⟩
      (Nat.lt_of_le_of_lt (Nat.sub_le _ _) hfuel)
    rintro s ⟨hreading, hcount⟩
    exact hreading.round hcount henough
  obtain ⟨s, hs, hfinished⟩ := hreturns
  have hreading := hfinished.reading
  have hcount := hfinished.count
  refine ⟨s, hs, ?_, by rw [hreading.taken, hcount]⟩
  exact {
    filled := fun i hi => by
      obtain ⟨b, hb, heq⟩ := hreading.filled i (hcount ▸ hi)
      obtain ⟨l, hl⟩ := received_isPrefix line hfinished.polls
      have hi' := (List.getElem?_eq_some_iff.mp hb).1
      exact ⟨b, by rw [← hl, List.getElem?_append_left hi', hb], heq⟩
    beyond := hcount ▸ hreading.beyond
    stored := hcount ▸ hreading.stored
    handshake := hreading.handshake
    acks := hreading.acks.trans hcount
    ended := hfinished.ended }

/-- **Run lemma**: consecutive calls share out the bytes in order. -/
theorem readEvents_spec {calls : List (Nat × Bytes)} (hpos : ∀ c ∈ calls, 1 ≤ c.1)
    {offset polls : Nat} (hoffset : (received line polls).length = offset)
    (henough : offset + (calls.map Prod.fst).sum ≤ (received line m).length) (par : BitVec 8)
    {fuel : Nat} (hfuel : m < fuel) :
    ∃ results, readEvents fuel line calls polls par = some results ∧
      results.length = calls.length ∧
      ∀ j n wData s, calls[j]? = some (n, wData) → results[j]? = some s →
        Loaded line m (offset + ((calls.map Prod.fst).take j).sum) n wData s := by
  induction calls generalizing offset polls par with
  | nil => exact ⟨[], rfl, rfl, fun _ _ _ _ hcall => nomatch hcall⟩
  | cons c rest ih =>
    obtain ⟨n, wData⟩ := c
    rw [List.map_cons, List.sum_cons] at henough
    obtain ⟨s, hs, hloaded, hnext⟩ := readEvent_spec (hpos _ List.mem_cons_self) hoffset
      (by dsimp only at henough; omega) par wData hfuel
    obtain ⟨results, hresults, hlen, hrest⟩ := ih
      (fun c hc => hpos c (List.mem_cons_of_mem _ hc)) hnext
      (by dsimp only at henough; omega) s.par
    refine ⟨s :: results, ?_, congrArg (· + 1) hlen, ?_⟩
    · rw [readEvents, hs, Option.bind_some, hresults]
      rfl
    · intro j n' wData' s' hcall hresult
      cases j with
      | zero =>
        cases hcall
        cases hresult
        exact hloaded
      | succ j =>
        rw [List.map_cons, List.take_succ_cons, List.sum_cons, ← Nat.add_assoc]
        exact hrest j n' wData' s' hcall hresult

end Calls

/-- **Loading is loss-free and in order**: when the line delivers enough bytes, the
calls return, the `j`-th one with the decodings of the bytes behind those of the
calls before it, and `transform` decodes sign and magnitude. -/
theorem loading_in_order (line : Nat → BitVec 32) {calls : List (Nat × Bytes)}
    (hpos : ∀ c ∈ calls, 1 ≤ c.1) {m : Nat}
    (henough : (calls.map Prod.fst).sum ≤ (received line m).length) (par : BitVec 8) :
    (∃ fuel₀, ∀ fuel, fuel₀ ≤ fuel →
      ∃ results, readEvents fuel line calls 0 par = some results ∧
        results.length = calls.length ∧
        ∀ j n wData s, calls[j]? = some (n, wData) → results[j]? = some s →
          Loaded line m ((calls.map Prod.fst).take j).sum n wData s) ∧
      ∀ b : BitVec 8, (b.toNat < 128 → transform b = b) ∧ (b = 128 → transform b = 0) ∧
        (128 < b.toNat → transform b = -(b - 128)) := by
  refine ⟨⟨m + 1, fun fuel hfuel => ?_⟩, transform_eq⟩
  obtain ⟨results, hresults, hlen, hloaded⟩ := readEvents_spec hpos
    (show (received line 0).length = 0 from rfl) (by rwa [Nat.zero_add]) par hfuel
  refine ⟨results, hresults, hlen, fun j n wData s hcall hresult => ?_⟩
  have h := hloaded j n wData s hcall hresult
  rwa [Nat.zero_add] at h

/-- Two arrays, of one byte and of two, from a line that is silent at every other
poll. -/
theorem loading_in_order_two_arrays :
    ∃ fuel₀, ∀ fuel, fuel₀ ≤ fuel →
      ∃ results, readEvents fuel (fun k => if k % 2 = 0 then 0 else BitVec.ofNat 32 (0x8080 + k))
          [(1, fun _ => 7), (2, fun _ => 7)] 0 0 = some results ∧ results.length = 2 := by
  have hpos : ∀ c ∈ [(1, fun _ => 7), (2, fun _ => 7)], 1 ≤ (c : Nat × Bytes).1 := by simp
  obtain ⟨⟨fuel₀, h⟩, -⟩ := loading_in_order
    (fun k => if k % 2 = 0 then 0 else BitVec.ofNat 32 (0x8080 + k)) hpos (m := 6) (by decide) 0
  refine ⟨fuel₀, fun fuel hfuel => ?_⟩
  obtain ⟨results, hresults, hlen, -⟩ := h fuel hfuel
  exact ⟨results, hresults, hlen⟩

end DcnnFpga.Nios
