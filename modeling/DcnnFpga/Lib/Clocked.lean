import Mathlib.Data.List.Basic

/-!
# Clocked designs

A clocked design loads a new register state at every clock, from the old one and
the inputs of that clock; what a clock means to the outside is a (possibly
empty) list of events. The rules below are what a proof about such a design
needs, whatever the design is:

- `Clocked.run_sim`: a relation to an abstract machine that reads the *events*,
  kept by each clock, relates every run to the fold of its events;
- `Clocked.hold_spec`: an input held until a wait line falls is answered, when
  every clock it waits lowers a bound;
- `Clocked.reaches`: under any stream of inputs a goal is reached, when every
  clock short of it lowers a bound.
-/

namespace DcnnFpga.Lib

/-- Registers `σ`, inputs `ι`, and the events `ε` one clock gives rise to. -/
structure Clocked (σ ι ε : Type*) where
  next : σ → ι → σ
  emit : σ → ι → List ε

namespace Clocked

variable {σ ι ε α : Type*} (m : Clocked σ ι ε)

/-- The registers after a list of clocks. -/
def run (s : σ) : List ι → σ
  | [] => s
  | i :: rest => run (m.next s i) rest

/-- The events of a list of clocks, in order. -/
def events (s : σ) : List ι → List ε
  | [] => []
  | i :: rest => m.emit s i ++ events (m.next s i) rest

@[simp] theorem run_nil (s : σ) : m.run s [] = s := rfl

@[simp] theorem run_cons (s : σ) (i : ι) (rest : List ι) :
    m.run s (i :: rest) = m.run (m.next s i) rest := rfl

@[simp] theorem events_nil (s : σ) : m.events s [] = [] := rfl

@[simp] theorem events_cons (s : σ) (i : ι) (rest : List ι) :
    m.events s (i :: rest) = m.emit s i ++ m.events (m.next s i) rest := rfl

theorem run_append (s : σ) (a b : List ι) : m.run s (a ++ b) = m.run (m.run s a) b := by
  induction a generalizing s with
  | nil => rfl
  | cons i rest ih => exact ih (m.next s i)

theorem events_append (s : σ) (a b : List ι) :
    m.events s (a ++ b) = m.events s a ++ m.events (m.run s a) b := by
  induction a generalizing s with
  | nil => rfl
  | cons i rest ih =>
    rw [List.cons_append, events_cons, events_cons, ih, run_cons, List.append_assoc]

/-- The registers do not depend on what counts as an event. -/
theorem run_congr {ε' : Type*} (m' : Clocked σ ι ε') (h : m.next = m'.next) (s : σ)
    (ins : List ι) : m.run s ins = m'.run s ins := by
  induction ins generalizing s with
  | nil => rfl
  | cons i rest ih => rw [run_cons, run_cons, ih, h]

/-- Simulation: when each admissible clock keeps `R` between an abstract state
that has read the events so far and the registers, so does every run. -/
theorem run_sim {R : α → σ → Prop} {A : ι → Prop} (apply : α → ε → α)
    (hstep : ∀ a s i, A i → R a s → R ((m.emit s i).foldl apply a) (m.next s i))
    {a : α} {s : σ} (h : R a s) (ins : List ι) (hA : ∀ i ∈ ins, A i) :
    R ((m.events s ins).foldl apply a) (m.run s ins) := by
  induction ins generalizing a s with
  | nil => exact h
  | cons i rest ih =>
    rw [events_cons, List.foldl_append]
    exact ih (hstep a s i (hA i List.mem_cons_self) h)
      fun j hj => hA j (List.mem_cons_of_mem _ hj)

/-- Hold an input while `wait` is raised, for at most `fuel` clocks. The result
is the state in which the input is no longer held off, before that clock. -/
def hold (wait : σ → ι → Bool) (i : ι) : Nat → σ → Option σ
  | 0, _ => none
  | fuel + 1, s => if wait s i then hold wait i fuel (m.next s i) else some s

/-- Bounded waiting: if a clock spent waiting keeps `R` at a smaller bound, the
input is taken as soon as the fuel exceeds the bound. -/
theorem hold_spec {wait : σ → ι → Bool} {i : ι} {R : Nat → σ → Prop}
    (hstep : ∀ n s, R n s → wait s i = true → ∃ k, k < n ∧ R k (m.next s i)) :
    ∀ (fuel : Nat) {n : Nat} {s : σ}, R n s → n < fuel →
      ∃ s' k, m.hold wait i fuel s = some s' ∧ wait s' i = false ∧ R k s' := by
  intro fuel
  induction fuel with
  | zero => exact fun _ hn => absurd hn (Nat.not_lt_zero _)
  | succ fuel ih =>
    intro n s hR hn
    cases hw : wait s i with
    | false => exact ⟨s, n, by rw [hold, if_neg (by simp [hw])], hw, hR⟩
    | true =>
      -- a clock of waiting costs one of the fuel and at least one of the bound
      obtain ⟨k, hk, hR'⟩ := hstep n s hR hw
      obtain ⟨s', k', hs', hw', hR''⟩ := ih hR' (by omega)
      exact ⟨s', k', by rw [hold, if_pos hw, hs'], hw', hR''⟩

/-- The clocks spent waiting are a run, and one without events when waiting has none. -/
theorem hold_run {wait : σ → ι → Bool} {i : ι}
    (hquiet : ∀ s, wait s i = true → m.emit s i = []) {fuel : Nat} {s s' : σ}
    (h : m.hold wait i fuel s = some s') :
    ∃ k, m.run s (List.replicate k i) = s' ∧ m.events s (List.replicate k i) = [] ∧
      wait s' i = false := by
  induction fuel generalizing s with
  | zero => nomatch h
  | succ fuel ih =>
    rw [hold] at h
    split at h
    next hw =>
      obtain ⟨k, hrun, hnone, hlast⟩ := ih h
      refine ⟨k + 1, hrun, ?_, hlast⟩
      rw [List.replicate_succ, events_cons, hquiet s hw, hnone]
      rfl
    next hw =>
      cases h
      exact ⟨0, rfl, rfl, by simpa using hw⟩

/-- The registers after the first `n` clocks of an endless stream of inputs. -/
def after (s : σ) (ins : Nat → ι) : Nat → σ
  | 0 => s
  | n + 1 => m.next (after s ins n) (ins n)

theorem after_add (s : σ) (ins : Nat → ι) (n k : Nat) :
    m.after s ins (n + k) = m.after (m.after s ins n) (fun j => ins (n + j)) k := by
  induction k with
  | zero => rfl
  | succ k ih => rw [← Nat.add_assoc, after, ih, after]

/-- The first clocks of a stream are a run. -/
theorem after_eq_run (s : σ) (ins : Nat → ι) (n : Nat) :
    m.after s ins n = m.run s ((List.range n).map ins) := by
  induction n with
  | zero => rfl
  | succ n ih => rw [after, ih, List.range_succ, List.map_append, run_append]; rfl

/-- The events of the first `n` clocks of a stream. -/
def eventsTo (s : σ) (ins : Nat → ι) : Nat → List ε
  | 0 => []
  | n + 1 => eventsTo s ins n ++ m.emit (m.after s ins n) (ins n)

/-- Later clocks only add events. -/
theorem eventsTo_isPrefix (s : σ) (ins : Nat → ι) {n k : Nat} (h : n ≤ k) :
    m.eventsTo s ins n <+: m.eventsTo s ins k := by
  induction h with
  | refl => exact List.prefix_refl _
  | step _ ih => exact ih.trans (List.prefix_append _ _)

/-- Progress: when every admissible clock short of the goal lowers the bound, the
goal is reached within the bound. -/
theorem reaches {R : Nat → σ → Prop} {A : ι → Prop} {goal : σ → Prop}
    (hstep : ∀ n s i, A i → R n s → ¬ goal s → ∃ k, k < n ∧ R k (m.next s i))
    {n : Nat} {s : σ} (h : R n s) (ins : Nat → ι) (hA : ∀ k, A (ins k)) :
    ∃ k, k ≤ n ∧ goal (m.after s ins k) := by
  induction n using Nat.strongRecOn generalizing s ins with
  | ind n ih =>
    by_cases hgoal : goal s
    · exact ⟨0, Nat.zero_le n, hgoal⟩
    · obtain ⟨b, hb, hR⟩ := hstep n s (ins 0) (hA 0) h hgoal
      obtain ⟨k, hk, hk'⟩ := ih b hb hR (fun j => ins (1 + j)) fun j => hA (1 + j)
      refine ⟨1 + k, by omega, ?_⟩
      rw [after_add]
      exact hk'

/-- The same, from a clock of a run on. -/
theorem reaches_later {R : Nat → σ → Prop} {A : ι → Prop} {goal : σ → Prop}
    (hstep : ∀ n s i, A i → R n s → ¬ goal s → ∃ k, k < n ∧ R k (m.next s i)) {s : σ}
    {ins : Nat → ι} {n b : Nat} (h : R b (m.after s ins n)) (hA : ∀ k, A (ins k)) :
    ∃ d, d ≤ b ∧ goal (m.after s ins (n + d)) := by
  obtain ⟨d, hd, hgoal⟩ := m.reaches hstep h (fun j => ins (n + j)) fun j => hA (n + j)
  exact ⟨d, hd, by rwa [after_add]⟩

end Clocked

end DcnnFpga.Lib
