import Mathlib.Data.List.Basic

/-!
# Counted and running loops

Loops of an imperative program as functions on its state, with the rules their
proofs use:

- `forN n body`: `for (i = 0; i < n; ++i)`, with the invariant rule `forN_inv`;
- `forSome n body`: the same with a body that may fail, with a total rule
  (`forSome_inv`: from the start invariant every iteration succeeds);
- `whileUp test k bound body i`: `while (test i) { …; i += k; }`, which is a
  counted loop as soon as one knows which of the visited values pass the test
  (`whileUp_eq_forN`);
- `doUntil body done fuel`: `while (1) { …; if (done) break; }`, with the total
  rule `doUntil_inv`: a measure that falls with every round that goes on.
-/

namespace DcnnFpga.Lib

variable {σ : Type*}

/-- `for (i = 0; i < n; ++i) s = body(i, s);` -/
def forN : Nat → (Nat → σ → σ) → σ → σ
  | 0, _, s => s
  | n + 1, body, s => body n (forN n body s)

@[simp] theorem forN_zero (body : Nat → σ → σ) (s : σ) : forN 0 body s = s := rfl

theorem forN_succ (n : Nat) (body : Nat → σ → σ) (s : σ) :
    forN (n + 1) body s = body n (forN n body s) := rfl

/-- An invariant indexed by the loop counter. -/
theorem forN_inv {P : Nat → σ → Prop} {body : Nat → σ → σ} {s : σ} (n : Nat)
    (h0 : P 0 s) (hstep : ∀ i, i < n → ∀ s, P i s → P (i + 1) (body i s)) :
    P n (forN n body s) := by
  induction n with
  | zero => exact h0
  | succ n ih =>
    exact hstep n (Nat.lt_succ_self n) _ (ih fun i hi => hstep i (Nat.lt_succ_of_lt hi))

/-- Bodies that agree on the visited indices give the same loop. -/
theorem forN_congr {body body' : Nat → σ → σ} {n : Nat}
    (h : ∀ i, i < n → ∀ s, body i s = body' i s) (s : σ) :
    forN n body s = forN n body' s := by
  induction n with
  | zero => rfl
  | succ n ih =>
    rw [forN_succ, forN_succ, ih fun i hi => h i (Nat.lt_succ_of_lt hi),
      h n (Nat.lt_succ_self n)]

/-- Peel off the first iteration instead of the last. -/
theorem forN_succ' (n : Nat) (body : Nat → σ → σ) (s : σ) :
    forN (n + 1) body s = forN n (fun i => body (i + 1)) (body 0 s) := by
  induction n with
  | zero => rfl
  | succ n ih => rw [forN_succ, ih, forN_succ]

/-- `for (i = 0; i < n; ++i)` with a body that may fail. -/
def forSome : Nat → (Nat → σ → Option σ) → σ → Option σ
  | 0, _, s => some s
  | n + 1, body, s => (forSome n body s).bind (body n)

/-- Total rule: when no iteration fails from the invariant, the loop does not. -/
theorem forSome_inv {P : Nat → σ → Prop} {body : Nat → σ → Option σ} {s : σ} (n : Nat)
    (h0 : P 0 s)
    (hstep : ∀ i, i < n → ∀ s, P i s → ∃ s', body i s = some s' ∧ P (i + 1) s') :
    ∃ s', forSome n body s = some s' ∧ P n s' := by
  induction n with
  | zero => exact ⟨s, rfl, h0⟩
  | succ n ih =>
    obtain ⟨s₁, hs₁, hP₁⟩ := ih fun i hi => hstep i (Nat.lt_succ_of_lt hi)
    obtain ⟨s₂, hs₂, hP₂⟩ := hstep n (Nat.lt_succ_self n) s₁ hP₁
    exact ⟨s₂, by rw [forSome, hs₁]; exact hs₂, hP₂⟩

/-- Partial rule: the invariant at the end of every loop that does not fail. -/
theorem forSome_inv_of_eq {P : Nat → σ → Prop} {body : Nat → σ → Option σ} {s s' : σ} (n : Nat)
    (h0 : P 0 s)
    (hstep : ∀ i, i < n → ∀ s s', P i s → body i s = some s' → P (i + 1) s')
    (heq : forSome n body s = some s') : P n s' := by
  induction n generalizing s' with
  | zero =>
    cases heq
    exact h0
  | succ n ih =>
    rw [forSome, Option.bind_eq_some_iff] at heq
    obtain ⟨s₁, hs₁, hs'⟩ := heq
    exact hstep n (Nat.lt_succ_self n) _ _ (ih (fun i hi => hstep i (Nat.lt_succ_of_lt hi)) hs₁) hs'

/-- `while (test(i)) { s = body(i, s); i += k; }`. The test fails from `bound` on. -/
def whileUp (test : Nat → Bool) (k bound : Nat) (hk : 0 < k)
    (hbound : ∀ i, test i = true → i < bound) (body : Nat → σ → σ) (i : Nat) (s : σ) : σ :=
  if _h : test i = true then whileUp test k bound hk hbound body (i + k) (body i s) else s
termination_by bound - i
decreasing_by
  have := hbound i _h
  omega

/-- A running loop is the counted loop over the values that pass the test. -/
theorem whileUp_eq_forN {test : Nat → Bool} {k bound : Nat} {hk : 0 < k}
    {hbound : ∀ i, test i = true → i < bound} {body : Nat → σ → σ} {n : Nat} :
    ∀ {i : Nat}, (∀ j, test (i + j * k) = true ↔ j < n) → ∀ s : σ,
      whileUp test k bound hk hbound body i s = forN n (fun j => body (i + j * k)) s := by
  induction n with
  | zero =>
    intro i h s
    -- no value passes the test, not even the first
    have h0 := mt (h 0).mp (Nat.lt_irrefl 0)
    rw [Nat.zero_mul, Nat.add_zero] at h0
    rw [whileUp, dif_neg h0, forN_zero]
  | succ n ih =>
    intro i h s
    have h0 := (h 0).mpr (Nat.succ_pos n)
    rw [Nat.zero_mul, Nat.add_zero] at h0
    -- the first value passes; the others are those of the loop from `i + k`
    have hshift : ∀ j, i + k + j * k = i + (j + 1) * k := by
      intro j
      rw [Nat.succ_mul]
      omega
    rw [whileUp, dif_pos h0, forN_succ', Nat.zero_mul, Nat.add_zero,
      ih (fun j => by rw [hshift, h (j + 1)]; omega)]
    exact forN_congr (fun j _ s => by rw [hshift]) _

/-- `while (1) { s = body(s); if (done(s)) break; }`, for at most `fuel` rounds. -/
def doUntil (body : σ → σ) (done : σ → Bool) : Nat → σ → Option σ
  | 0, _ => none
  | fuel + 1, s => if done (body s) then some (body s) else doUntil body done fuel (body s)

/-- Total rule: a round ends the loop with `Q`, or keeps `P` and lowers the measure. -/
theorem doUntil_inv {P Q : σ → Prop} {body : σ → σ} {done : σ → Bool} (measure : σ → Nat)
    (hstep : ∀ s, P s → (done (body s) = true ∧ Q (body s)) ∨
      (done (body s) = false ∧ P (body s) ∧ measure (body s) < measure s)) {fuel : Nat} {s : σ}
    (hs : P s) (hfuel : measure s < fuel) : ∃ s', doUntil body done fuel s = some s' ∧ Q s' := by
  induction fuel generalizing s with
  | zero => exact absurd hfuel (Nat.not_lt_zero _)
  | succ fuel ih =>
    rcases hstep s hs with ⟨hdone, hQ⟩ | ⟨hdone, hP, hlt⟩
    · exact ⟨body s, by rw [doUntil, if_pos hdone], hQ⟩
    · obtain ⟨s', hs', hQ⟩ := ih hP (by omega)
      exact ⟨s', by rw [doUntil, hdone]; exact hs', hQ⟩

end DcnnFpga.Lib
