import DcnnFpga.Nios.Layers
import DcnnFpga.Rtl.NoHang

/-!
# Every call returns

The slave cannot hang, so no transfer of `mat_mul` is held for ever, and no loop of
the software can be stuck in one: `total_conv` and `fully_connencted` return from
*any* registers of the slave, those no run reaches included. What they return is
another matter; after a reset `MatMulExact.lean` says.
-/

namespace DcnnFpga.Nios

open Lib Product Rtl

section Transfers

variable {fuel : Nat}

/-- A held request is taken. -/
theorem hold_returns (s : TestSlave) {i : Input} (hr : i.iRstCtrl = false)
    (hq : (i.iWriteReq || i.iReadReq) = true) (hfuel : 260 ≤ fuel) :
    ∃ s', slave.hold TestSlave.oWaitReq i fuel s = some s' := by
  have hstep : ∀ (n : Nat) (s : TestSlave), s.rank ≤ n → s.oWaitReq i = true →
      ∃ k, k < n ∧ (slave.next s i).rank ≤ k := by
    intro n s hn hwait
    have hne : s.currentStateR ≠ .idle := by
      intro hs
      rw [TestSlave.oWaitReq_idle hs, hq] at hwait
      cases hwait
    exact ⟨_, (s.rank_clock hr hne).trans_le hn, Nat.le_refl _⟩
  obtain ⟨s', -, hs', -, -⟩ := slave.hold_spec (R := fun n s => s.rank ≤ n) hstep fuel s.rank_le
    (by omega)
  exact ⟨s', hs'⟩

theorem iowr_returns (f : Fabric) (p : Master) (d : BitVec 32) (hfuel : 260 ≤ fuel) :
    ∃ p', iowr fuel f p d = some p' := by
  obtain ⟨s, hs⟩ := hold_returns (idleClocks f p) (i := writeInput d) rfl rfl hfuel
  exact ⟨_, by rw [iowr, hs]; rfl⟩

theorem iord_returns (f : Fabric) (p : Master) (hfuel : 260 ≤ fuel) :
    ∃ pt, iord fuel f p = some pt := by
  obtain ⟨s, hs⟩ := hold_returns (idleClocks f p)
    (i := readInput (f.readLines p.transfers)) rfl rfl hfuel
  exact ⟨_, by rw [iord, hs]; rfl⟩

/-- The loops of `mat_mul` run through. -/
theorem matMul_returns (f : Fabric) (s : TestSlave) (matrix : Bytes) (result : Nat → BitVec 16)
    (hfuel : 260 ≤ fuel) : ∃ q, matMul fuel f s matrix result = some q := by
  have hwrite : ∃ p, writeMatrix fuel f matrix s = some p ∧ True := by
    refine forSome_inv (P := fun _ (_ : Master) => True) 128 trivial fun column _ p _ => ?_
    refine forSome_inv (P := fun _ (_ : Master) => True) 65 trivial fun row _ p _ => ?_
    obtain ⟨p', hp'⟩ := iowr_returns f p (matrix32 matrix row column) hfuel
    exact ⟨p', hp', trivial⟩
  obtain ⟨p, hp, -⟩ := hwrite
  have hread : ∃ pr, readResult fuel f p result = some pr ∧ True := by
    refine forSome_inv (P := fun _ (_ : Master × (Nat → BitVec 16)) => True) 128 trivial
      fun row _ pr _ => ?_
    obtain ⟨pt, hpt⟩ := iord_returns f pr.1 hfuel
    exact ⟨_, by rw [hpt]; rfl, trivial⟩
  obtain ⟨pr, hpr, -⟩ := hread
  exact ⟨_, by rw [matMul, hp, Option.bind_some, hpr]; rfl⟩

/-- On the slave `mat_mul` returns from any registers. -/
theorem lawful_anyRegisters (fabrics : Nat → Fabric) (hfuel : 260 ≤ fuel) :
    Lawful (slaveMatMul fuel fabrics) (fun _ => True) (fun _ _ => True) := by
  rintro ⟨s, k⟩ block result -
  obtain ⟨q, hq⟩ := matMul_returns (fabrics k) s block result hfuel
  exact ⟨(q.1, k + 1), q.2, by rw [slaveMatMul, hq]; rfl, trivial, trivial⟩

end Transfers

section Layers

variable {σ : Type} {matMul : MatMul σ} {I : σ → Prop} {R : Bytes → (Nat → BitVec 16) → Prop}

theorem convInterface1_total (hmat : Lawful matMul I R) {dev : σ} (hdev : I dev) (behind : Behind)
    (firstConv spectrum con2Fmap : Bytes) :
    ∃ s cube, convInterface1 matMul dev behind firstConv spectrum con2Fmap = some (s, cube) ∧
      I s.dev := by
  obtain ⟨s, hs⟩ := blockedProduct_total
    ⟨(flattenMatrix (zeroed (1240 * 100) behind.flattenMat) spectrum 49 40 10 10 1).cells, 40, 31,
      firstConv, 10, 10, 16⟩ hmat hdev behind.matBlock (zeroed (1240 * 16) behind.outputMat)
  exact ⟨s, _, by rw [convInterface1, conv, hs]; rfl, (blockedProduct_ran hmat.sound hdev hs).2⟩

/-- With a lawful `mat_mul` both layers return. -/
theorem totalConv_total (hmat : Lawful matMul I R) {dev : σ} (hdev : I dev)
    (behind behind' : Behind)
    (con2Fmap firstConv secondConv spectrum convFinishFmap : Bytes) :
    ∃ r, totalConv matMul dev behind behind' con2Fmap firstConv secondConv spectrum
      convFinishFmap = some r := by
  obtain ⟨s, cube, hs, hI⟩ := convInterface1_total hmat hdev behind firstConv spectrum
    (zeroed (40 * 31 * 16) con2Fmap)
  obtain ⟨r, hr⟩ := convInterface2_total hmat hI behind' secondConv cube.cells convFinishFmap
  exact ⟨r, by rw [totalConv, hs]; exact hr⟩

end Layers

/-- **Every call returns**, from any registers of the slave and on any bus: the two
layers of `total_conv`, and a fully connected layer of any sizes after them. 260
clocks for each transfer are enough. -/
theorem network_returns {fuel : Nat} (hfuel : 260 ≤ fuel) (dev : TestSlave × Nat)
    (fabrics : Nat → Fabric) (behind behind' : Behind)
    (con2Fmap firstConv secondConv spectrum convFinishFmap : Bytes)
    (layer : Bytes → Product) (beyond : Bytes) (fcFinish : Nat → BitVec 16) :
    ∃ r t,
      totalConv (slaveMatMul fuel fabrics) dev behind behind' con2Fmap firstConv secondConv
        spectrum convFinishFmap = some r ∧
      (layer r.convFinishFmap.out.cells).fullyConnencted (slaveMatMul fuel fabrics) r.locals.dev
        beyond fcFinish = some t := by
  have hmat := lawful_anyRegisters fabrics hfuel
  obtain ⟨r, hr⟩ := totalConv_total hmat (show (fun _ => True) dev from trivial) behind behind'
    con2Fmap firstConv secondConv spectrum convFinishFmap
  obtain ⟨t, ht⟩ := blockedProduct_total (layer r.convFinishFmap.out.cells) hmat
    (show (fun _ => True) r.locals.dev from trivial) beyond fcFinish
  exact ⟨r, t, hr, ht⟩

/-- From registers no run from a reset reaches, with the fully connected layer of
the network behind the convolutions. -/
theorem network_returns_corrupt :
    ∃ r t,
      totalConv (slaveMatMul 260 fun _ => directFabric) (corrupt, 0) zeroBehind zeroBehind
        (fun _ => 0) (fun _ => 0) (fun _ => 0) (fun _ => 0) (fun _ => 0) = some r ∧
      (⟨fun _ => 1, 6, 1, r.convFinishFmap.out.cells, 54, 16, 1⟩ : Product).fullyConnencted
        (slaveMatMul 260 fun _ => directFabric) r.locals.dev (fun _ => 0) (fun _ => 0) = some t :=
  network_returns (Nat.le_refl 260) (corrupt, 0) (fun _ => directFabric) zeroBehind zeroBehind
    (fun _ => 0) (fun _ => 0) (fun _ => 0) (fun _ => 0) (fun _ => 0)
    (fun map => ⟨fun _ => 1, 6, 1, map, 54, 16, 1⟩) (fun _ => 0) (fun _ => 0)

end DcnnFpga.Nios
