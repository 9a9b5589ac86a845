import DcnnFpga.Lib.Loop
import Mathlib.Algebra.BigOperators.Group.Finset.Basic
import Mathlib.Data.List.GetD

/-!
# Memories written by nested loops

A memory is a function of its index. Two ways of writing to it are common enough
to have rules of their own:

- `setAll`: assignments `(index, value)` one after the other; a cell whose
  assignments all agree holds that value, a cell without one is untouched;
- `Tape`: values pushed behind a running index (`*(out + count) = v; ++count`).

Nested counted loops whose innermost body is one such step run through the
concatenation of the lists of the inner loops (`forN_foldl`), and in a
concatenation of lists of one length, entry `i * m + j` is entry `j` of list `i`
(`getElem?_flatMap_range`). The `row_major` lemmas, `mixed_radix` and
`sum_range_mul` are the same fact for bare indices and for sums.
-/

namespace DcnnFpga.Lib

variable {α β σ : Type*}

/-! ## Loops as folds -/

/-- A loop over folds is the fold over the concatenation. -/
theorem forN_foldl (step : σ → α → σ) (f : Nat → List α) (n : Nat) (s : σ) :
    forN n (fun i s => (f i).foldl step s) s = ((List.range n).flatMap f).foldl step s := by
  induction n with
  | zero => rfl
  | succ n ih =>
    rw [forN_succ, ih, List.range_succ, List.flatMap_append, List.flatMap_singleton,
      List.foldl_append]

/-- The innermost loop takes one step at a time. -/
theorem forN_foldl_map (step : σ → α → σ) (f : Nat → α) (n : Nat) (s : σ) :
    forN n (fun i s => step s (f i)) s = ((List.range n).map f).foldl step s := by
  rw [List.map_eq_flatMap, ← forN_foldl]
  rfl

/-! ## Lists of one length, one after the other -/

theorem length_flatMap_range {f : Nat → List α} {m n : Nat}
    (h : ∀ i, i < n → (f i).length = m) : ((List.range n).flatMap f).length = n * m := by
  induction n with
  | zero => exact (Nat.zero_mul m).symm
  | succ n ih =>
    rw [List.range_succ, List.flatMap_append, List.flatMap_singleton, List.length_append,
      ih fun i hi => h i (Nat.lt_succ_of_lt hi), h n (Nat.lt_succ_self n), Nat.succ_mul]

theorem getElem?_flatMap_range {f : Nat → List α} {m n i j : Nat}
    (h : ∀ i, i < n → (f i).length = m) (hi : i < n) (hj : j < m) :
    ((List.range n).flatMap f)[i * m + j]? = (f i)[j]? := by
  induction n with
  | zero => exact absurd hi (Nat.not_lt_zero i)
  | succ n ih =>
    -- the first `n` lists have `n * m` entries; list `n` begins behind them
    have hlen := length_flatMap_range fun i hi => h i (Nat.lt_succ_of_lt hi)
    rw [List.range_succ, List.flatMap_append, List.flatMap_singleton]
    by_cases hin : i = n
    · subst hin
      rw [List.getElem?_append_right (by omega), hlen, Nat.add_sub_cancel_left]
    · have hle : (i + 1) * m ≤ n * m := Nat.mul_le_mul_right m (by omega)
      rw [Nat.succ_mul] at hle
      rw [List.getElem?_append_left (by omega)]
      exact ih (fun i hi => h i (Nat.lt_succ_of_lt hi)) (by omega)

/-- When only list `i` is not empty, it is all there is. -/
theorem flatMap_range_single {f : Nat → List α} {n i : Nat} (hi : i < n)
    (h : ∀ j, j ≠ i → f j = []) : (List.range n).flatMap f = f i := by
  have hfirst : ∀ m, (List.range m).flatMap f = if i < m then f i else [] := by
    intro m
    induction m with
    | zero => rfl
    | succ m ih =>
      rw [List.range_succ, List.flatMap_append, List.flatMap_singleton, ih]
      by_cases him : i = m
      · subst him
        rw [if_neg (Nat.lt_irrefl i), if_pos (Nat.lt_succ_self i), List.nil_append]
      · rw [h m (Ne.symm him), List.append_nil]
        by_cases hlt : i < m
        · rw [if_pos hlt, if_pos (by omega)]
        · rw [if_neg hlt, if_neg (by omega)]
  rw [hfirst, if_pos hi]

/-- The row of an index of a row-major layout; its column is `Nat.mul_add_mod_of_lt`. -/
theorem row_major_div {m a i : Nat} (hi : i < m) : (a * m + i) / m = a := by
  rw [Nat.add_comm, Nat.add_mul_div_right _ _ (Nat.zero_lt_of_lt hi), Nat.div_eq_of_lt hi,
    Nat.zero_add]

/-- The indices of `n` rows of length `m` stay below `n * m`. -/
theorem row_major_lt {m n a i : Nat} (ha : a < n) (hi : i < m) : a * m + i < n * m := by
  calc a * m + i < (a + 1) * m := by rw [Nat.succ_mul]; omega
    _ ≤ n * m := Nat.mul_le_mul_right m ha

/-- Two indices of a row-major layout agree only position by position. -/
theorem mixed_radix {m a b i j : Nat} (hi : i < m) (hj : j < m)
    (h : a * m + i = b * m + j) : a = b ∧ i = j := by
  have hdiv : (a * m + i) / m = (b * m + j) / m := congrArg (· / m) h
  have hmod : (a * m + i) % m = (b * m + j) % m := congrArg (· % m) h
  rw [row_major_div hi, row_major_div hj] at hdiv
  rw [Nat.mul_add_mod_of_lt hi, Nat.mul_add_mod_of_lt hj] at hmod
  exact ⟨hdiv, hmod⟩

/-- A sum in row-major order. -/
theorem sum_range_mul {γ : Type*} [AddCommMonoid γ] (f : Nat → γ) (n m : Nat) :
    ∑ k ∈ Finset.range (n * m), f k =
      ∑ i ∈ Finset.range n, ∑ j ∈ Finset.range m, f (i * m + j) := by
  induction n with
  | zero => rw [Nat.zero_mul, Finset.sum_range_zero, Finset.sum_range_zero]
  | succ n ih => rw [Nat.succ_mul, Finset.sum_range_add, ih, Finset.sum_range_succ]

/-- And for a sum over a concatenation. -/
theorem sum_map_flatMap_range {γ : Type*} [AddCommMonoid γ] (f : α → γ) (g : Nat → List α)
    (n : Nat) :
    (((List.range n).flatMap g).map f).sum = ∑ i ∈ Finset.range n, ((g i).map f).sum := by
  induction n with
  | zero => rfl
  | succ n ih =>
    rw [List.range_succ, List.flatMap_append, List.flatMap_singleton, List.map_append,
      List.sum_append, ih, Finset.sum_range_succ]

/-! ## Assignments in any order -/

/-- One assignment. -/
def setAt (mem : Nat → β) (a : Nat) (v : β) : Nat → β := fun j => if j = a then v else mem j

/-- Assignments, the first of the list first. -/
def setAll (mem : Nat → β) (l : List (Nat × β)) : Nat → β :=
  l.foldl (fun mem p => setAt mem p.1 p.2) mem

theorem setAll_of_not_mem {mem : Nat → β} {l : List (Nat × β)} {a : Nat}
    (h : ∀ p ∈ l, p.1 ≠ a) : setAll mem l a = mem a := by
  unfold setAll
  induction l generalizing mem with
  | nil => rfl
  | cons p rest ih =>
    rw [List.foldl_cons, ih fun q hq => h q (List.mem_cons_of_mem p hq), setAt,
      if_neg (h p List.mem_cons_self).symm]

/-- A cell whose assignments agree holds their value. -/
theorem setAll_of_mem {mem : Nat → β} {l : List (Nat × β)} {a : Nat} {v : β}
    (hagree : ∀ p ∈ l, p.1 = a → p.2 = v) (hmem : (a, v) ∈ l) : setAll mem l a = v := by
  induction l generalizing mem with
  | nil => nomatch hmem
  | cons p rest ih =>
    have hagree' : ∀ q ∈ rest, q.1 = a → q.2 = v :=
      fun q hq => hagree q (List.mem_cons_of_mem p hq)
    show setAll (setAt mem p.1 p.2) rest a = v
    by_cases hrest : (a, v) ∈ rest
    · exact ih hagree' hrest
    · -- the last assignment to the cell is this one
      have hp : (a, v) = p := (List.mem_cons.mp hmem).resolve_right hrest
      subst hp
      rw [setAll_of_not_mem, setAt, if_pos rfl]
      rintro ⟨b, u⟩ hq rfl
      have hu : u = v := hagree' (b, u) hq rfl
      exact hrest (hu ▸ hq)

/-- A memory, and the cells written so far. -/
structure Store (β : Type*) where
  cells : Nat → β
  writes : List Nat

namespace Store

/-- `mem[a] = v;` -/
def set (s : Store β) (p : Nat × β) : Store β := ⟨setAt s.cells p.1 p.2, s.writes ++ [p.1]⟩

theorem foldl_set (s : Store β) (l : List (Nat × β)) :
    l.foldl set s = ⟨setAll s.cells l, s.writes ++ l.map Prod.fst⟩ := by
  induction l generalizing s with
  | nil => rw [List.map_nil, List.append_nil]; rfl
  | cons p rest ih =>
    rw [List.foldl_cons, ih, List.map_cons, set, List.append_assoc]
    rfl

end Store

/-! ## Values behind a running index -/

/-- A memory, the running index, and the cells written so far. -/
structure Tape (β : Type*) where
  cells : Nat → β
  count : Nat
  writes : List Nat

namespace Tape

/-- `*(out + count) = v; count = count + 1;` -/
def push (t : Tape β) (v : β) : Tape β :=
  ⟨setAt t.cells t.count v, t.count + 1, t.writes ++ [t.count]⟩

/-- A tape at the start of a memory. -/
def start (mem : Nat → β) : Tape β := ⟨mem, 0, []⟩

/-- The cells written are the next ones, in order. -/
theorem writes_foldl (t : Tape β) (l : List β) :
    (l.foldl push t).writes = t.writes ++ List.range' t.count l.length := by
  induction l generalizing t with
  | nil => exact (List.append_nil _).symm
  | cons v rest ih =>
    rw [List.foldl_cons, ih, List.length_cons, List.range'_succ, push, List.append_assoc]
    rfl

/-- Cells below the running index stay. -/
theorem cells_foldl_below (t : Tape β) (l : List β) {j : Nat} (hj : j < t.count) :
    (l.foldl push t).cells j = t.cells j := by
  induction l generalizing t with
  | nil => rfl
  | cons v rest ih =>
    rw [List.foldl_cons, ih (t.push v) (Nat.lt_succ_of_lt hj)]
    exact if_neg (Nat.ne_of_lt hj)

/-- Cells behind the last value stay. -/
theorem cells_foldl_above (t : Tape β) (l : List β) {j : Nat} (hj : t.count + l.length ≤ j) :
    (l.foldl push t).cells j = t.cells j := by
  induction l generalizing t with
  | nil => rfl
  | cons v rest ih =>
    rw [List.length_cons] at hj
    have hpush : (t.push v).count + rest.length ≤ j := by
      show t.count + 1 + rest.length ≤ j
      omega
    rw [List.foldl_cons, ih (t.push v) hpush]
    exact if_neg (by omega)

/-- The `i`-th value pushed is `i` cells behind the running index. -/
theorem cells_foldl (t : Tape β) (l : List β) {i : Nat} {v : β} (hi : l[i]? = some v) :
    (l.foldl push t).cells (t.count + i) = v := by
  induction l generalizing t i with
  | nil => nomatch hi
  | cons w rest ih =>
    rw [List.foldl_cons]
    cases i with
    | zero =>
      cases hi
      rw [Nat.add_zero, cells_foldl_below (t.push v) rest (Nat.lt_succ_self _)]
      exact if_pos rfl
    | succ i =>
      have hcount : t.count + (i + 1) = (t.push w).count + i := by
        show t.count + (i + 1) = t.count + 1 + i
        omega
      rw [hcount]
      exact ih (t.push w) (by simpa using hi)

end Tape

end DcnnFpga.Lib
