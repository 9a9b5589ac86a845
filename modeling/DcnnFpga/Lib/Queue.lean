import DcnnFpga.Lib.Clocked
import Mathlib.Algebra.Group.Nat.Defs

/-!
# Queues in hardware

A part of a clocked design is a *queue* when what it takes in and what it gives out in
a clock is what its contents change by (`Queued`): exactly, or up to a loss, which is
what the order `ρ` on lists says. Over a run nothing is added or reordered then, nor
lost where `ρ` is equality (`Queued.after`), and two queues behind each other are one
(`Queued.comp`), however long things stay in either. Where they never stay longer than
some clocks, what is put has been taken so much later (`Queued.moved`).

`Fifo` is a memory with the ports and the documented laws of a show-ahead FIFO whose
flags may be late to say that a word is there, but never wrong to say so.
-/

namespace DcnnFpga.Lib

variable {σ ι ε δ : Type*}

/-- The logged values of the first clocks of a stream. -/
def Clocked.logTo (m : Clocked σ ι ε) (f : σ → ι → List δ) (s : σ) (ins : Nat → ι) :
    Nat → List δ
  | 0 => []
  | n + 1 => logTo m f s ins n ++ f (m.after s ins n) (ins n)

theorem Clocked.logTo_zero (m : Clocked σ ι ε) (f : σ → ι → List δ) (s : σ) (ins : Nat → ι) :
    m.logTo f s ins 0 = [] := rfl

theorem Clocked.logTo_succ (m : Clocked σ ι ε) (f : σ → ι → List δ) (s : σ) (ins : Nat → ι)
    (n : Nat) : m.logTo f s ins (n + 1) = m.logTo f s ins n ++ f (m.after s ins n) (ins n) := rfl

/-- A log only grows, and has grown behind a clock that logs something. -/
theorem Clocked.logTo_growth (m : Clocked σ ι ε) (f : σ → ι → List δ) (s : σ) (ins : Nat → ι)
    {n k : Nat} (h : n ≤ k) :
    m.logTo f s ins n <+: m.logTo f s ins k ∧
      ((∃ j, n ≤ j ∧ j < k ∧ f (m.after s ins j) (ins j) ≠ []) →
        (m.logTo f s ins n).length < (m.logTo f s ins k).length) := by
  induction h with
  | refl => exact ⟨List.prefix_refl _, fun ⟨j, hnj, hj, _⟩ => absurd hnj (Nat.not_le_of_lt hj)⟩
  | @step k _ ih =>
    rw [logTo_succ]
    refine ⟨ih.1.trans (List.prefix_append _ _), ?_⟩
    rintro ⟨j, hnj, hj, hne⟩
    have hprev := ih.1.length_le
    rw [List.length_append]
    rcases Nat.lt_succ_iff_lt_or_eq.mp hj with hj | rfl
    · exact Nat.lt_add_right _ (ih.2 ⟨j, hnj, hj, hne⟩)
    · have hpos := List.length_pos_iff.mpr hne
      omega

/-- An order on lists that goes with appending: equality, or being a sublist. -/
structure ListOrder (ρ : List δ → List δ → Prop) : Prop where
  refl : ∀ a, ρ a a
  trans : ∀ {a b c}, ρ a b → ρ b c → ρ a c
  append : ∀ {a b c d}, ρ a b → ρ c d → ρ (a ++ c) (b ++ d)

theorem listOrder_eq : ListOrder (Eq : List δ → List δ → Prop) where
  refl _ := rfl
  trans h h' := h.trans h'
  append h h' := congrArg₂ _ h h'

theorem listOrder_sublist : ListOrder (List.Sublist : List δ → List δ → Prop) where
  refl := List.Sublist.refl
  trans h h' := h.trans h'
  append h h' := h.append h'

/-- In every admissible clock the contents lose `takes` at the front and gain `puts` at
the back. -/
structure Queued (ρ : List δ → List δ → Prop) (m : Clocked σ ι ε) (A : σ → ι → Prop)
    (puts takes : σ → ι → List δ) (Holds : σ → List δ → Prop) : Prop where
  order : ListOrder ρ
  move : ∀ s i l, Holds s l → A s i →
    ∃ l', Holds (m.next s i) l' ∧ ρ (takes s i ++ l') (l ++ puts s i)

/-- The contents of two queues behind each other. -/
def Series (Holds Holds' : σ → List δ → Prop) (s : σ) (l : List δ) : Prop :=
  ∃ a b, Holds s a ∧ Holds' s b ∧ l = b ++ a

namespace Queued

variable {ρ : List δ → List δ → Prop} {m : Clocked σ ι ε} {A : σ → ι → Prop}
  {puts mid takes : σ → ι → List δ} {Holds Holds' : σ → List δ → Prop}

/-- **A run of a queue**: what is taken, and then what is still held, against what was
held, and then what is put. -/
theorem after (h : Queued ρ m A puts takes Holds) {s : σ} {l : List δ} (hs : Holds s l)
    {ins : Nat → ι} {n : Nat} (hA : ∀ k < n, A (m.after s ins k) (ins k)) :
    ∃ l', Holds (m.after s ins n) l' ∧
      ρ (m.logTo takes s ins n ++ l') (l ++ m.logTo puts s ins n) := by
  induction n with
  | zero =>
    refine ⟨l, hs, ?_⟩
    rw [Clocked.logTo_zero, Clocked.logTo_zero, List.append_nil]
    exact h.order.refl l
  | succ n ih =>
    obtain ⟨l₁, hl₁, hprev⟩ := ih fun k hk => hA k (Nat.lt_succ_of_lt hk)
    obtain ⟨l₂, hl₂, hmove⟩ := h.move _ _ l₁ hl₁ (hA n (Nat.lt_succ_self n))
    refine ⟨l₂, hl₂, ?_⟩
    have hfirst := h.order.append (h.order.refl (m.logTo takes s ins n)) hmove
    have hlast := h.order.append hprev (h.order.refl (puts (m.after s ins n) (ins n)))
    rw [List.append_assoc] at hlast
    rw [Clocked.logTo_succ, Clocked.logTo_succ, List.append_assoc, ← List.append_assoc l]
    exact h.order.trans hfirst hlast

/-- Two queues, the second one fed by the first. -/
theorem comp (h : Queued ρ m A puts mid Holds) (h' : Queued ρ m A mid takes Holds') :
    Queued ρ m A puts takes (Series Holds Holds') where
  order := h.order
  move := by
    rintro s i l ⟨a, b, ha, hb, rfl⟩ hA
    obtain ⟨a', ha', hmove⟩ := h.move s i a ha hA
    obtain ⟨b', hb', hmove'⟩ := h'.move s i b hb hA
    refine ⟨b' ++ a', ⟨a', b', ha', hb', rfl⟩, ?_⟩
    have hsecond := h.order.append hmove' (h.order.refl a')
    have hfirst := h.order.append (h.order.refl b) hmove
    rw [List.append_assoc] at hsecond
    rw [List.append_assoc] at hsecond ⊢
    exact h.order.trans hsecond hfirst

section Moving

variable {s : σ} {ins : Nat → ι} {c p : Nat}

theorem length_after (h : Queued Eq m A puts takes Holds) (hs : Holds s [])
    (hA : ∀ k, A (m.after s ins k) (ins k)) (n : Nat) :
    ∃ l, Holds (m.after s ins n) l ∧
      (m.logTo takes s ins n).length + l.length = (m.logTo puts s ins n).length := by
  obtain ⟨l, hl, heq⟩ := h.after hs fun k (_ : k < n) => hA k
  have hlen := congrArg List.length heq
  rw [List.length_append, List.nil_append] at hlen
  exact ⟨l, hl, hlen⟩

/-- Every `p` clocks one more of what was put is out, while one is left. -/
theorem left_le (h : Queued Eq m A puts takes Holds) (hs : Holds s [])
    (hA : ∀ k, A (m.after s ins k) (ins k))
    (hcap : ∀ n l, Holds (m.after s ins n) l → l.length ≤ c)
    (hmoves : ∀ n l, Holds (m.after s ins n) l → l ≠ [] →
      ∃ d < p, takes (m.after s ins (n + d)) (ins (n + d)) ≠ []) (n : Nat) {k : Nat} (hk : k ≤ c) :
    (m.logTo puts s ins n).length ≤ (m.logTo takes s ins (n + k * p)).length + (c - k) := by
  induction k with
  | zero =>
    obtain ⟨l, hl, hlen⟩ := h.length_after hs hA n
    have hle := hcap n l hl
    rw [Nat.zero_mul, Nat.add_zero]
    omega
  | succ k ih =>
    have hprev := ih (by omega)
    rw [Nat.succ_mul, ← Nat.add_assoc]
    have hgrowth := m.logTo_growth takes s ins (Nat.le_add_right (n + k * p) p)
    have hputs := (m.logTo_growth puts s ins (Nat.le_add_right n (k * p))).1.length_le
    have htakes := hgrowth.1.length_le
    obtain ⟨l, hl, hlen⟩ := h.length_after hs hA (n + k * p)
    by_cases hnone : l = []
    · rw [hnone, List.length_nil] at hlen
      omega
    · obtain ⟨d, hd, hne⟩ := hmoves _ l hl hnone
      have hmore := hgrowth.2 ⟨_, Nat.le_add_right _ d, Nat.add_lt_add_left hd _, hne⟩
      omega

/-- **A queue that keeps moving**: when something is taken within any `p` clocks that
start with something held, and never more than `c` things are held, then what is put
is taken `c * p` clocks later. -/
theorem moved (h : Queued Eq m A puts takes Holds) (hs : Holds s [])
    (hA : ∀ k, A (m.after s ins k) (ins k))
    (hcap : ∀ n l, Holds (m.after s ins n) l → l.length ≤ c)
    (hmoves : ∀ n l, Holds (m.after s ins n) l → l ≠ [] →
      ∃ d < p, takes (m.after s ins (n + d)) (ins (n + d)) ≠ []) (n : Nat) :
    m.logTo puts s ins n <+: m.logTo takes s ins (n + c * p) := by
  have hall := h.left_le hs hA hcap hmoves n (Nat.le_refl c)
  rw [Nat.sub_self, Nat.add_zero] at hall
  obtain ⟨l, -, heq⟩ := h.after hs fun j (_ : j < n + c * p) => hA j
  rw [List.nil_append] at heq
  have hputs : m.logTo puts s ins n <+: m.logTo takes s ins (n + c * p) ++ l :=
    heq ▸ (m.logTo_growth puts s ins (Nat.le_add_right n (c * p))).1
  exact List.prefix_of_prefix_length_le hputs (List.prefix_append _ _) hall

end Moving

end Queued

/-- A show-ahead FIFO of `2 ^ aw` words. `contents` is what it holds, in order; the laws
are those of the ports. -/
structure Fifo (δ : Type) (aw : Nat) where
  State : Type
  clock : State → (sclr wrreq : Bool) → (data : δ) → (rdreq : Bool) → State
  empty : State → Bool
  full : State → Bool
  usedw : State → BitVec aw
  q : State → δ
  contents : State → List δ
  clock_clear : ∀ s w d r, contents (clock s true w d r) = []
  /-- requests in order: no write to a full FIFO, no read from an empty one -/
  clock_move : ∀ s w d r, (w = true → full s = false) → (r = true → empty s = false) →
    contents (clock s false w d r) =
      (if r then (contents s).tail else contents s) ++ if w then [d] else []
  /-- `q` shows the oldest word -/
  q_eq : ∀ s, empty s = false → (contents s).head? = some (q s)
  full_eq : ∀ s, full s = decide ((contents s).length = 2 ^ aw)
  usedw_eq : ∀ s, usedw s = BitVec.ofNat aw (contents s).length
  /-- the clocks a word may take to show -/
  lag : Nat
  /-- a word shows after so many clocks without a read -/
  shown : ∀ s (ws : List (Bool × δ)), contents s ≠ [] → lag ≤ ws.length →
    empty (ws.foldl (fun s w => clock s false (w.1 && !full s) w.2 false) s) = false

namespace Fifo

variable {δ : Type} {aw : Nat} (F : Fifo δ aw)

/-- What a write request puts in, when it is guarded by `full`. -/
def stored (s : F.State) (w : Bool) (d : δ) : List δ := if w && !F.full s then [d] else []

/-- What a read request takes out, when it is guarded by `empty`. -/
def popped (s : F.State) (r : Bool) : List δ := if r && !F.empty s then [F.q s] else []

theorem stored_sublist (s : F.State) (w : Bool) (d : δ) :
    List.Sublist (F.stored s w d) (if w then [d] else []) := by
  rw [stored]
  cases w with
  | false => exact List.Sublist.refl []
  | true =>
    cases F.full s with
    | false => exact List.Sublist.refl [d]
    | true => exact List.nil_sublist [d]

theorem stored_eq {s : F.State} {w : Bool} (h : w = true → F.full s = false) (d : δ) :
    F.stored s w d = if w then [d] else [] := by
  rw [stored]
  cases hw : w with
  | false => rfl
  | true => rw [h hw]; rfl

/-- A clock with both requests guarded is a step of a queue. -/
theorem clock_guarded (s : F.State) (w : Bool) (d : δ) (r : Bool) :
    F.popped s r ++ F.contents (F.clock s false (w && !F.full s) d (r && !F.empty s)) =
      F.contents s ++ F.stored s w d := by
  rw [F.clock_move s _ d _ (fun h => by simpa using (Bool.and_eq_true_iff.mp h).2)
    (fun h => by simpa using (Bool.and_eq_true_iff.mp h).2), popped, stored]
  by_cases hr : (r && !F.empty s) = true
  · rw [if_pos hr, if_pos hr, ← List.append_assoc]
    have hempty : F.empty s = false := by simpa using (Bool.and_eq_true_iff.mp hr).2
    have hhead := F.q_eq s hempty
    cases hc : F.contents s with
    | nil => rw [hc] at hhead; cases hhead
    | cons d' rest =>
      rw [hc] at hhead
      rw [← Option.some.inj hhead]
      rfl
  · rw [if_neg hr, if_neg hr, List.nil_append]

/-- The memory never holds more than its words. -/
theorem length_clock_le {s : F.State} (h : (F.contents s).length ≤ 2 ^ aw) (w : Bool) (d : δ)
    (r : Bool) :
    (F.contents (F.clock s false (w && !F.full s) d (r && !F.empty s))).length ≤ 2 ^ aw := by
  have hmoved := congrArg List.length (F.clock_guarded s w d r)
  rw [List.length_append, List.length_append] at hmoved
  have hstored : (F.stored s w d).length ≤ if (F.contents s).length = 2 ^ aw then 0 else 1 := by
    rw [stored, F.full_eq]
    split
    next hw =>
      rw [if_neg fun hfull => by simp [hfull] at hw]
      exact Nat.le_refl 1
    next => exact Nat.zero_le _
  split at hstored <;> omega

/-- `{full, usedw}` counts the words, a full memory included. -/
theorem toNat_count {s : F.State} (h : (F.contents s).length ≤ 2 ^ aw) :
    (BitVec.ofBool (F.full s) ++ F.usedw s).toNat = (F.contents s).length := by
  rw [BitVec.toNat_append, F.full_eq, F.usedw_eq, BitVec.toNat_ofNat]
  rcases Nat.lt_or_eq_of_le h with hlt | heq
  · rw [decide_eq_false (Nat.ne_of_lt hlt), Nat.mod_eq_of_lt hlt]
    exact (congrArg (· ||| _) (Nat.zero_shiftLeft aw)).trans (Nat.zero_or _)
  · rw [heq, decide_eq_true rfl, Nat.mod_self, Nat.or_zero]
    exact Nat.one_shiftLeft aw

/-- A word that shows is there. -/
theorem contents_ne_nil {s : F.State} (h : F.empty s = false) : F.contents s ≠ [] := by
  intro hnone
  have hhead := F.q_eq s h
  rw [hnone] at hhead
  cases hhead

/-- Something has been in the memory for `age` clocks without a read. -/
def HeldFor (s : F.State) (age : Nat) : Prop :=
  ∃ (q : F.State) (ws : List (Bool × δ)), F.contents q ≠ [] ∧ ws.length = age ∧
    s = ws.foldl (fun s w => F.clock s false (w.1 && !F.full s) w.2 false) q

theorem heldFor_zero {s : F.State} (h : F.contents s ≠ []) : F.HeldFor s 0 := ⟨s, [], h, rfl, rfl⟩

theorem HeldFor.write {F : Fifo δ aw} {s : F.State} {age : Nat} (h : F.HeldFor s age) (w : Bool)
    (d : δ) : F.HeldFor (F.clock s false (w && !F.full s) d false) (age + 1) := by
  obtain ⟨q, ws, hq, rfl, rfl⟩ := h
  refine ⟨q, ws ++ [(w, d)], hq, List.length_append, ?_⟩
  rw [List.foldl_append]
  rfl

/-- Then it shows. -/
theorem HeldFor.shown {F : Fifo δ aw} {s : F.State} {age : Nat} (h : F.HeldFor s age)
    (hage : F.lag ≤ age) : F.empty s = false := by
  obtain ⟨q, ws, hq, rfl, rfl⟩ := h
  exact F.shown q ws hq hage

section Queues

variable {m : Clocked σ ι ε} {A : σ → ι → Prop} {fifo : σ → F.State} {w r : σ → ι → Bool}
  {d : σ → ι → δ}

/-- The contents of a FIFO in a design. -/
def Holds (fifo : σ → F.State) (s : σ) (l : List δ) : Prop :=
  l = F.contents (fifo s) ∧ l.length ≤ 2 ^ aw

/-- A FIFO in a design, with `ρ` what may get lost at its full end. -/
theorem queued {ρ : List δ → List δ → Prop} (hρ : ListOrder ρ)
    (hnext : ∀ s i, A s i → fifo (m.next s i) = F.clock (fifo s) false
      (w s i && !F.full (fifo s)) (d s i) (r s i && !F.empty (fifo s)))
    (hloss : ∀ s i, A s i →
      ρ (F.stored (fifo s) (w s i) (d s i)) (if w s i then [d s i] else [])) :
    Queued ρ m A (fun s i => if w s i then [d s i] else [])
      (fun s i => F.popped (fifo s) (r s i)) (F.Holds fifo) where
  order := hρ
  move := by
    rintro s i l ⟨rfl, hlen⟩ hA
    refine ⟨_, ⟨rfl, ?_⟩, ?_⟩
    · rw [hnext s i hA]
      exact F.length_clock_le hlen _ _ _
    · rw [hnext s i hA, F.clock_guarded]
      exact hρ.append (hρ.refl _) (hloss s i hA)

end Queues

end Fifo

/-- What is in a list is not taken out by writing. -/
theorem foldl_append_ne_nil {s : List δ} (h : s ≠ []) (f : List δ → Bool × δ → List δ)
    (ws : List (Bool × δ)) : ws.foldl (fun s w => s ++ f s w) s ≠ [] := by
  induction ws generalizing s with
  | nil => exact h
  | cons w rest ih => exact ih (List.append_ne_nil_of_left_ne_nil h _)

/-- A FIFO that is a list, with flags that are never late. -/
def Fifo.ofList (δ : Type) [Inhabited δ] (aw : Nat) : Fifo δ aw where
  State := List δ
  clock s sclr w d r :=
    if sclr then [] else (if r then s.tail else s) ++ if w then [d] else []
  empty s := s.isEmpty
  full s := decide (s.length = 2 ^ aw)
  usedw s := BitVec.ofNat aw s.length
  q s := s.headD default
  contents s := s
  clock_clear _ _ _ _ := rfl
  clock_move _ _ _ _ _ _ := rfl
  q_eq s h := by
    cases s with
    | nil => cases h
    | cons d rest => rfl
  full_eq _ := rfl
  usedw_eq _ := rfl
  lag := 0
  shown s ws h _ := List.isEmpty_eq_false_iff.mpr (foldl_append_ne_nil h _ ws)

end DcnnFpga.Lib
