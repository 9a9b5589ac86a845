import DcnnFpga.Nios.Layers

/-!
# The layers on two devices

The layers see a device only through `mat_mul`. Two devices whose `mat_mul` sums
the same function `h` therefore leave the same maps (`totalConv_agree`), whatever
the devices are. Taken with the slave on one side and the pure sum of `g` on the
other this says what the whole network computes on the hardware, with nothing of
the registers, the clocks and the bus left in it (`network_refines`).

The memory `mat_block` lies in may differ as well: `mat_mul` packs three rows of
it that are behind the array, and the slave drops them.
-/

namespace DcnnFpga.Nios

open Lib Product Rtl

namespace Product

variable {σ τ : Type} {p : Product} {h : BitVec 8 → BitVec 8 → Int}

/-- Two runs over blocks that were summed alike leave the same output. -/
theorem Ran.output_unique {out : Nat → BitVec 16} {s : Locals σ} {s' : Locals τ}
    (hran : Ran p (Multiplies h) out (p.positions p.filterNum) s)
    (hran' : Ran p (Multiplies h) out (p.positions p.filterNum) s') :
    s.outputMat = s'.outputMat := by
  funext j
  by_cases hrow : j / p.filterNum < p.flattenNum
  · rcases Nat.eq_zero_or_pos p.filterNum with hF | hF
    · -- no filter, no call
      have hnone : ∀ {ρ : Type} {t : Locals ρ},
          Ran p (Multiplies h) out (p.positions p.filterNum) t → t.outputMat j = out j := by
        intro ρ t ht
        have hcalls : t.calls = [] := by
          have hpos := ht.positions
          rw [hF] at hpos
          exact List.map_eq_nil_iff.mp hpos
        rw [ht.output, if_pos hrow, tally, hcalls]
        exact BitVec.add_zero _
      rw [hnone hran, hnone hran']
    · have hcol := Nat.mod_lt j hF
      rw [← Nat.div_add_mod' j p.filterNum, hran.output_eq hrow hcol, hran'.output_eq hrow hcol]
  · rw [hran.output, hran'.output, if_neg hrow, if_neg hrow]

end Product

/-- The same memory, but for the one `mat_block` lies in. -/
def Behind.withBlock (b : Behind) (matBlock : Bytes) : Behind := { b with matBlock := matBlock }

/-- The same maps at every stage. -/
structure Layer2.SameMaps {σ τ : Type} (r : Layer2 σ) (r' : Layer2 τ) : Prop where
  outputMat : r.locals.outputMat = r'.locals.outputMat
  tempFmap : r.tempFmap = r'.tempFmap
  temp2Fmap : r.temp2Fmap = r'.temp2Fmap
  convFinishFmap : r.convFinishFmap = r'.convFinishFmap

section Agree

variable {σ τ : Type} {matMul : MatMul σ} {matMul' : MatMul τ} {I : σ → Prop} {I' : τ → Prop}
  {h : BitVec 8 → BitVec 8 → Int} {dev : σ} {dev' : τ}
  (hmat : Lawful matMul I (Multiplies h)) (hmat' : Lawful matMul' I' (Multiplies h))

include hmat hmat'

/-- `fully_connencted` returns on both devices, with the same output. -/
theorem fullyConnencted_agree (p : Product) (hdev : I dev) (hdev' : I' dev')
    (beyond beyond' : Bytes) (out : Nat → BitVec 16) :
    ∃ s s', p.fullyConnencted matMul dev beyond out = some s ∧
      p.fullyConnencted matMul' dev' beyond' out = some s' ∧ I s.dev ∧ I' s'.dev ∧
      s.outputMat = s'.outputMat := by
  obtain ⟨s, hs⟩ := blockedProduct_total p hmat hdev beyond out
  obtain ⟨s', hs'⟩ := blockedProduct_total p hmat' hdev' beyond' out
  obtain ⟨hran, hI⟩ := blockedProduct_ran hmat.sound hdev hs
  obtain ⟨hran', hI'⟩ := blockedProduct_ran hmat'.sound hdev' hs'
  exact ⟨s, s', hs, hs', hI, hI', hran.output_unique hran'⟩

/-- So does `conv`, with the same cube. -/
theorem conv_agree (p : Product) (hdev : I dev) (hdev' : I' dev')
    (beyond beyond' tempFmap : Bytes) (out : Nat → BitVec 16) :
    ∃ s s' cube, p.conv matMul dev beyond tempFmap out = some (s, cube) ∧
      p.conv matMul' dev' beyond' tempFmap out = some (s', cube) ∧ I s.dev ∧ I' s'.dev ∧
      s.outputMat = s'.outputMat := by
  obtain ⟨s, s', hs, hs', hI, hI', hout⟩ :=
    fullyConnencted_agree hmat hmat' p hdev hdev' beyond beyond' out
  refine ⟨s, s', matrixToImageCube s.outputMat tempFmap p.imageH p.imageW p.filterNum, ?_, ?_,
    hI, hI', hout⟩
  · rw [conv, show p.blockedProduct matMul dev beyond out = some s from hs]
    rfl
  · rw [conv, show p.blockedProduct matMul' dev' beyond' out = some s' from hs', hout]
    rfl

theorem convInterface1_agree (hdev : I dev) (hdev' : I' dev') (b : Behind) (m : Bytes)
    (firstConv spectrum con2Fmap : Bytes) :
    ∃ s s' cube, convInterface1 matMul dev b firstConv spectrum con2Fmap = some (s, cube) ∧
      convInterface1 matMul' dev' (b.withBlock m) firstConv spectrum con2Fmap = some (s', cube) ∧
      I s.dev ∧ I' s'.dev := by
  obtain ⟨s, s', cube, hs, hs', hI, hI', -⟩ := conv_agree hmat hmat'
    ⟨(flattenMatrix (zeroed (1240 * 100) b.flattenMat) spectrum 49 40 10 10 1).cells, 40, 31,
      firstConv, 10, 10, 16⟩
    hdev hdev' b.matBlock m con2Fmap (zeroed (1240 * 16) b.outputMat)
  exact ⟨s, s', cube, hs, hs', hI, hI'⟩

theorem convInterface2_agree (hdev : I dev) (hdev' : I' dev') (b : Behind) (m : Bytes)
    (secondConv con2Fmap convFinishFmap : Bytes) :
    ∃ r r', convInterface2 matMul dev b secondConv con2Fmap convFinishFmap = some r ∧
      convInterface2 matMul' dev' (b.withBlock m) secondConv con2Fmap convFinishFmap = some r' ∧
      I r.locals.dev ∧ I' r'.locals.dev ∧ r.SameMaps r' := by
  obtain ⟨s, s', cube, hs, hs', hI, hI', hout⟩ := conv_agree hmat hmat'
    ⟨(flattenMatrix (zeroed (972 * 400) b.flattenMat) con2Fmap 40 31 5 5 16).cells, 36, 27,
      secondConv, 1, 400, 16⟩
    hdev hdev' b.matBlock m (zeroed (36 * 27 * 16) b.tempFmap) (zeroed (972 * 16) b.outputMat)
  have hs'' : conv ⟨(flattenMatrix (zeroed (972 * 400) (b.withBlock m).flattenMat) con2Fmap
      40 31 5 5 16).cells, 36, 27, secondConv, 1, 400, 16⟩ matMul' dev' (b.withBlock m).matBlock
      (zeroed (36 * 27 * 16) (b.withBlock m).tempFmap)
      (zeroed (972 * 16) (b.withBlock m).outputMat) = some (s', cube) := hs'
  exact ⟨_, _, by rw [convInterface2, hs]; rfl, by rw [convInterface2, hs'']; rfl, hI, hI',
    ⟨hout, rfl, rfl, rfl⟩⟩

/-- **`total_conv` on two devices**: it returns on both, with the same maps, the one
between the convolutions included. -/
theorem totalConv_agree (hdev : I dev) (hdev' : I' dev') (b b' : Behind) (m m' : Bytes)
    (con2Fmap firstConv secondConv spectrum convFinishFmap : Bytes) :
    ∃ s s' cube r r', convInterface1 matMul dev b firstConv spectrum
        (zeroed (40 * 31 * 16) con2Fmap) = some (s, cube) ∧
      convInterface1 matMul' dev' (b.withBlock m) firstConv spectrum
        (zeroed (40 * 31 * 16) con2Fmap) = some (s', cube) ∧
      totalConv matMul dev b b' con2Fmap firstConv secondConv spectrum convFinishFmap
        = some r ∧
      totalConv matMul' dev' (b.withBlock m) (b'.withBlock m') con2Fmap firstConv secondConv
        spectrum convFinishFmap = some r' ∧
      I r.locals.dev ∧ I' r'.locals.dev ∧ r.SameMaps r' := by
  obtain ⟨s, s', cube, hs, hs', hI, hI'⟩ := convInterface1_agree hmat hmat' hdev hdev' b m
    firstConv spectrum (zeroed (40 * 31 * 16) con2Fmap)
  obtain ⟨r, r', hr, hr', hrest⟩ := convInterface2_agree hmat hmat' hI hI' b' m'
    secondConv cube.cells convFinishFmap
  refine ⟨s, s', cube, r, r', hs, hs', ?_, ?_, hrest⟩
  · rw [totalConv, hs]
    exact hr
  · rw [totalConv, hs']
    exact hr'

end Agree

/-! ## On the slave -/

/-- A clock with the reset up makes the slave ready, whatever its registers hold. -/
theorem slaveReady_reset (s : TestSlave) (i : Input) (k : Nat) :
    SlaveReady (s.clock { i with iRstCtrl := true }, k) := by
  rw [TestSlave.clock_reset s rfl]
  exact slaveReady_afterReset _ k

/-- **The network on the slave**: after one clock of reset from any registers,
`total_conv` and then a fully connected layer over its result leave the maps, the one
between the convolutions included, and the scores of the pure sums of `g`, whatever the
bus does between transfers and whatever lies in the memory `mat_block` is put in. -/
theorem network_refines (s : TestSlave) (i : Input) (k : Nat) (fabrics : Nat → Fabric)
    (behind behind' : Behind) (matBlock matBlock' : Bytes)
    (con2Fmap firstConv secondConv spectrum convFinishFmap : Bytes)
    (layer : Bytes → Product) (beyond beyond' : Bytes) (fcFinish : Nat → BitVec 16) :
    ∃ fuel₀, ∀ fuel, fuel₀ ≤ fuel →
      ∃ u u' cube r r' t t',
        convInterface1 (slaveMatMul fuel fabrics) (s.clock { i with iRstCtrl := true }, k) behind
            firstConv spectrum (zeroed (40 * 31 * 16) con2Fmap) = some (u, cube) ∧
        convInterface1 (idealMatMul g) () (behind.withBlock matBlock) firstConv spectrum
            (zeroed (40 * 31 * 16) con2Fmap) = some (u', cube) ∧
        totalConv (slaveMatMul fuel fabrics) (s.clock { i with iRstCtrl := true }, k)
            behind behind' con2Fmap firstConv secondConv spectrum convFinishFmap = some r ∧
        totalConv (idealMatMul g) () (behind.withBlock matBlock) (behind'.withBlock matBlock')
            con2Fmap firstConv secondConv spectrum convFinishFmap = some r' ∧
        r.SameMaps r' ∧
        (layer r.convFinishFmap.out.cells).fullyConnencted (slaveMatMul fuel fabrics)
            r.locals.dev beyond fcFinish = some t ∧
        (layer r'.convFinishFmap.out.cells).fullyConnencted (idealMatMul g) () beyond' fcFinish
            = some t' ∧
        t.outputMat = t'.outputMat := by
  refine ⟨132, fun fuel hfuel => ?_⟩
  have hslave := lawful_slaveMatMul hfuel fabrics
  obtain ⟨u, u', cube, r, r', hu, hu', hr, hr', hready, -, hmaps⟩ := totalConv_agree hslave
    (lawful_idealMatMul g) (slaveReady_reset s i k) trivial behind behind' matBlock matBlock'
    con2Fmap firstConv secondConv spectrum convFinishFmap
  obtain ⟨t, t', ht, ht', -, -, hout⟩ := fullyConnencted_agree hslave (lawful_idealMatMul g)
    (layer r.convFinishFmap.out.cells) hready trivial beyond beyond' fcFinish
  refine ⟨u, u', cube, r, r', t, t', hu, hu', hr, hr', hmaps, ht, ?_, hout⟩
  rw [← hmaps.convFinishFmap]
  exact ht'

end DcnnFpga.Nios
