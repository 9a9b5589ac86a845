import DcnnFpga.Lib.Clocked
import Mathlib.Algebra.BigOperators.Group.Finset.Basic

/-!
# A master on a wait line

A master presents its requests one after the other (`Turn`), each behind some idle
clocks of its own, and holds it until the wait line falls. `Clocked.serve` is what
the design sees then, clock by clock; its length is the time the master takes.

`Clocked.Timed` says that an abstract state which reads the requests tells how long
the design is busy after each of them. The time of any master is then a sum in which
the gaps of the master and the busy clocks of the design overlap
(`Clocked.Timed.serve_spec`).
-/

namespace DcnnFpga.Lib

/-- A request, and the inputs of the clocks a master lets pass before it. -/
structure Turn (ι : Type*) where
  gap : List ι
  request : ι

namespace Clocked

variable {σ ι ε α : Type*} (m : Clocked σ ι ε)

/-- `ready` holds after exactly `n` clocks and not before, whatever the admissible
inputs of these clocks. -/
def ReadyIn (A : ι → Prop) (ready : σ → Prop) : Nat → σ → Prop
  | 0, s => ready s
  | n + 1, s => ¬ ready s ∧ ∀ i, A i → ReadyIn A ready n (m.next s i)

/-- The clocks a held input waits. -/
def waits (wait : σ → ι → Bool) (i : ι) : Nat → σ → Option Nat
  | 0, _ => none
  | fuel + 1, s => if wait s i then (waits wait i fuel (m.next s i)).map (· + 1) else some 0

/-- The inputs of the clocks a master takes for its turns, the last one of each turn
taking the request. -/
def serve (wait : σ → ι → Bool) (fuel : Nat) : σ → List (Turn ι) → Option (List ι)
  | _, [] => some []
  | s, t :: rest =>
    (m.waits wait t.request fuel (m.run s t.gap)).bind fun n =>
      (serve wait fuel (m.run s (t.gap ++ List.replicate (n + 1) t.request)) rest).map fun ins =>
        t.gap ++ List.replicate (n + 1) t.request ++ ins

/-- `hold` waits as many clocks as `waits` counts. -/
theorem hold_eq_waits (wait : σ → ι → Bool) (i : ι) (fuel : Nat) (s : σ) :
    m.hold wait i fuel s =
      (m.waits wait i fuel s).map fun n => m.run s (List.replicate n i) := by
  induction fuel generalizing s with
  | zero => rfl
  | succ fuel ih =>
    rw [hold, waits]
    split
    · rw [ih, Option.map_map]
      rfl
    · rfl

theorem serve_append {wait : σ → ι → Bool} {fuel : Nat} {s : σ} {a b : List (Turn ι)}
    {ins ins' : List ι} (h : m.serve wait fuel s a = some ins)
    (h' : m.serve wait fuel (m.run s ins) b = some ins') :
    m.serve wait fuel s (a ++ b) = some (ins ++ ins') := by
  induction a generalizing s ins with
  | nil =>
    cases h
    exact h'
  | cons t rest ih =>
    obtain ⟨n, hn, hrest⟩ := Option.bind_eq_some_iff.mp h
    obtain ⟨l, hl, rfl⟩ := Option.map_eq_some_iff.mp hrest
    rw [run_append] at h'
    rw [List.cons_append, serve, hn, Option.bind_some, ih hl h', Option.map_some,
      ← List.append_assoc]

section Timed

variable {m} {A : ι → Prop} {ready : σ → Prop}

/-- Clocks of any admissible inputs count down. -/
theorem ReadyIn.run {n : Nat} {s : σ} (h : m.ReadyIn A ready n s) {ins : List ι}
    (hA : ∀ i ∈ ins, A i) (hlen : ins.length ≤ n) :
    m.ReadyIn A ready (n - ins.length) (m.run s ins) := by
  induction ins generalizing n s with
  | nil => exact h
  | cons i rest ih =>
    rw [List.length_cons] at hlen ⊢
    obtain ⟨n, rfl⟩ := Nat.exists_eq_succ_of_ne_zero (show n ≠ 0 by omega)
    rw [Nat.succ_sub_succ]
    exact ih (h.2 i (hA i List.mem_cons_self)) (fun j hj => hA j (List.mem_cons_of_mem _ hj))
      (by omega)

/-- An input that waits for `ready` waits exactly so long. -/
theorem ReadyIn.waits {wait : σ → ι → Bool} {i : ι} (hwait : ∀ s, wait s i = true ↔ ¬ ready s)
    (hi : A i) {n : Nat} {s : σ} (h : m.ReadyIn A ready n s) {fuel : Nat} (hfuel : n < fuel) :
    m.waits wait i fuel s = some n := by
  induction n generalizing s fuel with
  | zero =>
    obtain ⟨fuel, rfl⟩ := Nat.exists_eq_succ_of_ne_zero (Nat.ne_of_gt hfuel)
    rw [Clocked.waits, if_neg fun hw => (hwait s).mp hw h]
  | succ n ih =>
    obtain ⟨fuel, rfl⟩ := Nat.exists_eq_succ_of_ne_zero (Nat.ne_of_gt (Nat.zero_lt_of_lt hfuel))
    rw [Clocked.waits, if_pos ((hwait s).mpr h.1), ih (h.2 i hi) (by omega)]
    rfl

/-- A design whose state follows `a`, the requests read so far, and which is busy for
`busy a i` clocks after it has taken the request `i`. -/
structure Timed (m : Clocked σ ι ε) (wait : σ → ι → Bool) (A Idle Request : ι → Prop)
    (ready : σ → Prop) (R : α → σ → Prop) (apply : α → ι → α) (busy : α → ι → Nat) : Prop where
  idle : ∀ i, Idle i → A i
  request : ∀ i, Request i → A i
  /-- a request is taken as soon as the design is ready -/
  wait : ∀ s i, Request i → (wait s i = true ↔ ¬ ready s)
  keep : ∀ a s i, R a s → A i → (ready s → Idle i) → R a (m.next s i)
  /-- nothing happens without a request -/
  stay : ∀ s i, ready s → Idle i → ready (m.next s i)
  take : ∀ a s i, R a s → ready s → Request i →
    R (apply a i) (m.next s i) ∧ m.ReadyIn A ready (busy a i) (m.next s i)

/-- The clocks of some turns, when the design is still busy for `b` clocks: the gap of
a turn overlaps with the busy clocks before it. -/
def turnClocks (apply : α → ι → α) (busy : α → ι → Nat) : α → Nat → List (Turn ι) → Nat
  | _, _, [] => 0
  | a, b, t :: rest =>
    max t.gap.length b + 1 + turnClocks apply busy (apply a t.request) (busy a t.request) rest

/-- The busy clocks after some turns. -/
def busyAfter (apply : α → ι → α) (busy : α → ι → Nat) : α → Nat → List (Turn ι) → Nat
  | _, b, [] => b
  | a, _, t :: rest => busyAfter apply busy (apply a t.request) (busy a t.request) rest

/-- The abstract state after some turns. -/
def stateAfter (apply : α → ι → α) (a : α) (turns : List (Turn ι)) : α :=
  turns.foldl (fun a t => apply a t.request) a

theorem turnClocks_append (apply : α → ι → α) (busy : α → ι → Nat) (a : α) (b : Nat)
    (l l' : List (Turn ι)) :
    turnClocks apply busy a b (l ++ l') = turnClocks apply busy a b l +
      turnClocks apply busy (stateAfter apply a l) (busyAfter apply busy a b l) l' := by
  induction l generalizing a b with
  | nil => exact (Nat.zero_add _).symm
  | cons t rest ih =>
    rw [List.cons_append, turnClocks, ih]
    exact (Nat.add_assoc _ _ _).symm

theorem busyAfter_append (apply : α → ι → α) (busy : α → ι → Nat) (a : α) (b : Nat)
    (l l' : List (Turn ι)) :
    busyAfter apply busy a b (l ++ l') =
      busyAfter apply busy (stateAfter apply a l) (busyAfter apply busy a b l) l' := by
  induction l generalizing a b with
  | nil => rfl
  | cons t rest ih => exact ih _ _

/-- When the busy clocks after each turn are known by its position, the time is a sum
over the positions. -/
theorem turnClocks_eq_sum {apply : α → ι → α} {busy : α → ι → Nat} {a : α} (b : Nat)
    {l : List (Turn ι)} {gap c : Nat → Nat}
    (hgap : ∀ k t, l[k]? = some t → t.gap.length = gap k)
    (hbusy : ∀ k t, l[k]? = some t → busy (stateAfter apply a (l.take k)) t.request = c k) :
    turnClocks apply busy a b l =
        ∑ k ∈ Finset.range l.length, (max (gap k) (if k = 0 then b else c (k - 1)) + 1) ∧
      busyAfter apply busy a b l = if l.length = 0 then b else c (l.length - 1) := by
  induction l using List.reverseRecOn with
  | nil => exact ⟨rfl, rfl⟩
  | append_singleton l t ih =>
    have hlast : (l ++ [t])[l.length]? = some t := by simp
    have hget : ∀ k t', l[k]? = some t' → (l ++ [t])[k]? = some t' ∧ (l ++ [t]).take k = l.take k :=
      fun k t' h => by
        have hk := (List.getElem?_eq_some_iff.mp h).1
        exact ⟨by rw [List.getElem?_append_left hk, h], List.take_append_of_le_length (by omega)⟩
    obtain ⟨hsum, hafter⟩ := ih (fun k t' h => hgap k t' (hget k t' h).1) fun k t' h => by
      rw [← hbusy k t' (hget k t' h).1, (hget k t' h).2]
    have hlen : (l ++ [t]).length = l.length + 1 := by
      rw [List.length_append, List.length_singleton]
    have hbusy' := hbusy _ t hlast
    rw [List.take_left] at hbusy'
    constructor
    · rw [turnClocks_append, hsum, hafter, hlen, Finset.sum_range_succ, turnClocks,
        hgap _ t hlast]
      rfl
    · rw [busyAfter_append, hlen, if_neg (Nat.succ_ne_zero _)]
      exact hbusy'

variable {wait : σ → ι → Bool} {Idle Request : ι → Prop} {R : α → σ → Prop} {apply : α → ι → α}
  {busy : α → ι → Nat}

/-- A gap shortens the wait, and at most to nothing. -/
theorem Timed.gap (ht : Timed m wait A Idle Request ready R apply busy) {a : α} {b : Nat} {s : σ}
    (hR : R a s) (hready : m.ReadyIn A ready b s) {gap : List ι} (hgap : ∀ i ∈ gap, Idle i) :
    R a (m.run s gap) ∧ m.ReadyIn A ready (b - gap.length) (m.run s gap) := by
  induction gap generalizing b s with
  | nil => exact ⟨hR, hready⟩
  | cons i rest ih =>
    have hi := hgap i List.mem_cons_self
    have hrest : ∀ j ∈ rest, Idle j := fun j hj => hgap j (List.mem_cons_of_mem _ hj)
    have hR' := ht.keep a s i hR (ht.idle i hi) fun _ => hi
    cases b with
    | zero =>
      have h := ih (b := 0) hR' (ht.stay s i hready hi) hrest
      rwa [Nat.zero_sub] at h ⊢
    | succ b =>
      rw [List.length_cons, Nat.succ_sub_succ]
      exact ih hR' (hready.2 i (ht.idle i hi)) hrest

/-- The clocks a request waits for change nothing. -/
theorem Timed.hold (ht : Timed m wait A Idle Request ready R apply busy) {a : α} {b : Nat} {s : σ}
    (hR : R a s) (hready : m.ReadyIn A ready b s) {i : ι} (hi : Request i) :
    R a (m.run s (List.replicate b i)) ∧ ready (m.run s (List.replicate b i)) := by
  induction b generalizing s with
  | zero => exact ⟨hR, hready⟩
  | succ b ih =>
    exact ih (ht.keep a s i hR (ht.request i hi) fun h => absurd h hready.1)
      (hready.2 i (ht.request i hi))

/-- **The time of a master** on a timed design. -/
theorem Timed.serve_spec (ht : Timed m wait A Idle Request ready R apply busy) {fuel : Nat}
    (hfuel : ∀ a i, busy a i < fuel) {turns : List (Turn ι)}
    (hturns : ∀ t ∈ turns, (∀ i ∈ t.gap, Idle i) ∧ Request t.request) {a : α} {b : Nat} {s : σ}
    (hR : R a s) (hready : m.ReadyIn A ready b s) (hb : b < fuel) :
    ∃ ins, m.serve wait fuel s turns = some ins ∧
      ins.length = turnClocks apply busy a b turns ∧
      R (stateAfter apply a turns) (m.run s ins) ∧
      m.ReadyIn A ready (busyAfter apply busy a b turns) (m.run s ins) := by
  induction turns generalizing a b s with
  | nil => exact ⟨[], rfl, rfl, hR, hready⟩
  | cons t rest ih =>
    obtain ⟨hgap, hreq⟩ := hturns t List.mem_cons_self
    obtain ⟨hR₁, hready₁⟩ := ht.gap hR hready hgap
    have hwaits := hready₁.waits (fun s => ht.wait s t.request hreq) (ht.request _ hreq)
      (show b - t.gap.length < fuel by omega)
    obtain ⟨hR₂, hready₂⟩ := ht.hold hR₁ hready₁ hreq
    obtain ⟨hR₃, hready₃⟩ := ht.take a _ t.request hR₂ hready₂ hreq
    -- the state in which the turn ends
    have hrun : m.run s (t.gap ++ List.replicate (b - t.gap.length + 1) t.request) =
        m.next (m.run (m.run s t.gap) (List.replicate (b - t.gap.length) t.request))
          t.request := by
      rw [run_append, List.replicate_succ', run_append]
      rfl
    rw [← hrun] at hR₃ hready₃
    obtain ⟨ins, hins, hlen, hR', hready'⟩ := ih
      (fun t' ht' => hturns t' (List.mem_cons_of_mem _ ht')) hR₃ hready₃ (hfuel a t.request)
    refine ⟨_, by rw [serve, hwaits, Option.bind_some, hins]; rfl, ?_, ?_, ?_⟩
    · rw [List.length_append, List.length_append, List.length_replicate, hlen, turnClocks]
      omega
    · rw [run_append]
      exact hR'
    · rw [run_append]
      exact hready'

end Timed

end Clocked

end DcnnFpga.Lib
