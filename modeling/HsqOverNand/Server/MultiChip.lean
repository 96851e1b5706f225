import HsqOverNand.Server.Proof.Flat
import HsqOverNand.Server.Proof.Trace
import HsqOverNand.Spi.Proof.Refine

/-!
# A CPU on bundled chips

The constant `RAM` is five blocks, and a bundle of `N` chips erases multiples of `N` blocks. So a CPU
works on a bundle exactly when `N` divides five (`bundle_works`); otherwise the constructor exits on old
ROM data (`new_exits`).
-/

set_option autoImplicit false

namespace NandServer

open NandInterface W25NSpiFlashDevice

namespace CPU

variable {N : Nat} [NeZero N]

/-- A CPU works on the bundle with the contents `d`. -/
structure Works (d : W25NSpiFlashDevice N) : Prop where
  /-- The constructor does not exit. -/
  boots : ∀ (g : Globals) (garbage : Vector Byte ROM_SIZE), ∃ c g', CPU.new g garbage d = some (c, g')
  /-- In whatever state it leaves the chips, the erases it asks for are accepted. -/
  accepts : ∀ d' : W25NSpiFlashDevice N, d'.Idle → (NandInterface.erase d' 0 ROM_SIZE).1 = true ∧
    (NandInterface.erase d' RAM (NandInterface.size d' - RAM)).1 = true
  /-- The calculation area is blank after its erase. -/
  erased : ∀ d' : W25NSpiFlashDevice N, d'.Idle → ∀ a, RAM ≤ a → a < NandInterface.size d' →
    (NandInterface.erase d' RAM (NandInterface.size d' - RAM)).2.flat a = 0xff
  /-- Every round subtracts. -/
  rounds : ∀ (g : Globals) (garbage : Vector Byte ROM_SIZE) c g', CPU.new g garbage d = some (c, g') →
    ∀ (past : List (Vector (BitVec 64) LANES × Vector (BitVec 64) LANES))
      (inA inB : Vector (BitVec 64) LANES), Subtracts inA inB ((c.rounds past).setIn inA inB).round

/-! ## Bundles of one and five -/

theorem bundle_size (hN : N ≤ 15) (d : W25NSpiFlashDevice N) :
    NandInterface.size d = W25N_SPI_TOTAL_SIZE * N :=
  u32_of_lt (show 268435456 * N < 4294967296 by omega)

theorem bundle_sizeOk (hN : N ≤ 15) : SizeOk (W25N_SPI_TOTAL_SIZE * N) := by
  have hpos := NeZero.pos N
  refine ⟨⟨2048 * N, ?_⟩, ?_, ?_⟩
  · show 268435456 * N = 131072 * (2048 * N)
    ring
  · show 655360 < 268435456 * N
    omega
  · show 268435456 * N < 4294967296
    omega

omit [NeZero N] in
/-- The requests are whole groups. -/
theorem requests_aligned (h5 : N ∣ 5) : Aligned N 0 ROM_SIZE ∧
    Aligned N RAM (W25N_SPI_TOTAL_SIZE * N - RAM) := by
  have hram : 131072 * N ∣ 655360 := Nat.mul_dvd_mul_left 131072 h5
  have hsize : 131072 * N ∣ 268435456 * N := ⟨2048, by ring⟩
  exact ⟨⟨Nat.zero_mod _, Nat.mod_eq_zero_of_dvd hram⟩, Nat.mod_eq_zero_of_dvd hram,
    Nat.mod_eq_zero_of_dvd (Nat.dvd_sub hsize hram)⟩

theorem bundle_flat (hN : N ≤ 15) (h5 : N ∣ 5) :
    FlatDevice (D := W25NSpiFlashDevice N) flat W25NSpiFlashDevice.Idle (W25N_SPI_TOTAL_SIZE * N) := by
  obtain ⟨hrom, hcalc⟩ := requests_aligned h5
  have hsize : RAM < W25N_SPI_TOTAL_SIZE * N := (bundle_sizeOk hN).ram
  refine ⟨fun d _ => bundle_size hN d, fun d off n buf hin hd => ?_, fun d off n buf hin hd => ?_,
    fun d off n buf hin hd => ?_, fun d off n buf hin hd => (write_spec hN hd buf hin).2.1,
    fun d off n buf hin hd => (write_spec hN hd buf hin).2.2, fun d hd => ?_, fun d hd => ?_⟩
  · exact (readLoop_spec hN n off 0 buf hd hin (Nat.zero_add n)).idle
  · refine Vector.ext fun i hi => ?_
    rw [AndMemory.getElem_readOut hi]
    have h := (readLoop_spec hN n off 0 buf hd hin (Nat.zero_add n)).get i hi
    rw [if_neg (Nat.not_lt_zero i), Nat.sub_zero] at h
    exact h
  · exact (readLoop_spec hN n off 0 buf hd hin (Nat.zero_add n)).flat
  · have hin : 0 + ROM_SIZE ≤ W25N_SPI_TOTAL_SIZE * N := by
      rw [Nat.zero_add]
      exact hsize.le
    exact erase_spec hN hd hin hrom
  · exact (erase_spec hN hd (by omega) hcalc).2

theorem works_of_dvd (hN : N ≤ 15) (h5 : N ∣ 5) {d : W25NSpiFlashDevice N} (hd : d.Idle) : Works d := by
  have hflat := bundle_flat hN h5
  have hs := bundle_sizeOk hN
  have hram : RAM < W25N_SPI_TOTAL_SIZE * N := hs.ram
  obtain ⟨rom, g', net, cells, last, l0, l1, hc, hinit⟩ := romInit_spec
  have hboot : ∀ (g : Globals) (garbage : Vector Byte ROM_SIZE), ∃ c, CPU.new g garbage d = some (c, g') ∧
      Ready flat (WithRom flat W25NSpiFlashDevice.Idle rom) rom (W25N_SPI_TOTAL_SIZE * N) 0 c :=
    fun g garbage => new_ready (hflat.boot hs) hs (fun _ ho _ => hflat.erased ho) hc.linked.size hinit
      g garbage hd
  refine ⟨fun g garbage => ?_, fun d hd => ?_, fun d hd a ha hlt => ?_,
    fun g garbage c g'' hnew past inA inB => ?_⟩
  · obtain ⟨c, hnew, -⟩ := hboot g garbage
    exact ⟨c, g', hnew⟩
  · rw [bundle_size hN d]
    exact ⟨(hflat.erase_rom d hd).1, (erase_spec hN hd (by omega) (requests_aligned h5).2).1⟩
  · rw [bundle_size hN d] at hlt ⊢
    rw [(hflat.erase_calc d hd).2]
    exact AndMemory.erase_in ha (by omega)
  · obtain ⟨c', hnew', hr⟩ := hboot g garbage
    rw [hnew] at hnew'
    cases hnew'
    have hready := rounds_ready hc hs (hflat.calc hs) past 0 (by rwa [Nat.zero_mod])
    obtain ⟨c', hrun, -, hsub⟩ :=
      round_ready hc hs (hflat.calc hs) (hready.setIn inA inB) (Nat.le_refl _)
    rw [CPU.round, (hready.setIn inA inB).romSize, hrun]
    exact hsub

/-! ## Other bundles -/

/-- Chips full of old data. -/
def zeroed (N : Nat) : W25NSpiFlashDevice N :=
  ⟨.replicate N ⟨fun _ _ => 0x00, fun _ => 0x00, false, false⟩⟩

omit [NeZero N] in
theorem zeroed_get (i : Fin N) : (zeroed N).chips.get i = ⟨fun _ _ => 0x00, fun _ => 0x00, false, false⟩ :=
  Vector.getElem_replicate i.isLt

omit [NeZero N] in
theorem zeroed_idle : (zeroed N).Idle := fun i => by rw [zeroed_get]

theorem zeroed_flat {a : Nat} (h : a < W25N_SPI_TOTAL_SIZE * N) : (zeroed N).flat a = 0x00 := by
  rw [flat_lt h, zeroed_get]

theorem rom_refused (hN : N ≤ 15) (h5 : ¬ N ∣ 5) (d : W25NSpiFlashDevice N) :
    NandInterface.erase d 0 ROM_SIZE = (false, d) := by
  refine erase_refused hN fun h => h5 ?_
  exact Nat.dvd_of_mul_dvd_mul_left (show 0 < 131072 by decide) (Nat.dvd_of_mod_eq_zero h.2)

/-- **The constructor exits** when the erase of the ROM area is refused. -/
theorem new_exits (hN : N ≤ 15) (h5 : ¬ N ∣ 5) (g : Globals) (garbage : Vector Byte ROM_SIZE) :
    CPU.new g garbage (zeroed N) = none := by
  obtain ⟨rom, g', net, cells, last, l0, l1, hc, hinit⟩ := romInit_spec
  have hin : 0 + ROM_SIZE ≤ W25N_SPI_TOTAL_SIZE * N := by
    rw [Nat.zero_add]
    exact (bundle_sizeOk hN).ram.le
  have hrd : ReadDone (zeroed N) 0 garbage 0 (NandInterface.read (zeroed N) 0 garbage) :=
    readLoop_spec hN ROM_SIZE 0 0 garbage zeroed_idle hin (Nat.zero_add _)
  have hzero : ∀ i (hi : i < ROM_SIZE), (NandInterface.read (zeroed N) 0 garbage).2.1[i] = 0x00 := by
    intro i hi
    rw [hrd.get i hi, if_neg (Nat.not_lt_zero i)]
    exact zeroed_flat (by omega)
  have h0 : 0 < ROM_SIZE := by decide
  unfold CPU.new
  rw [hinit g, Option.bind_eq_bind, Option.bind_some]
  simp only []
  rw [if_neg (Nat.not_lt.2 hc.linked.size)]
  generalize NandInterface.read (zeroed N) 0 garbage = r at hzero
  have hold : eraseOld (romImage rom) r.2.1 r.2.2 = none := by
    unfold eraseOld
    rw [if_pos, rom_refused hN h5]
    · rfl
    · refine ⟨fun he => ?_, fun hall => ?_⟩
      · have h1 := hzero 0 h0
        rw [congrArg (fun v : Vector Byte ROM_SIZE => v[0]) he, getElem_romImage rom h0,
          romByte_zero hc] at h1
        exact absurd h1 (by decide)
      · have h1 : decide (r.2.1[0] = 0xff) = true := Vector.all_eq_true.1 hall 0 h0
        rw [hzero 0 h0] at h1
        exact absurd h1 (by decide)
  rw [hold]
  rfl

/-- **A CPU works on a bundle exactly when the chip count divides five**, whatever the chips hold. -/
theorem bundle_works (hN : N ≤ 15) {d : W25NSpiFlashDevice N} (hd : d.Idle) : Works d ↔ N ∣ 5 := by
  refine ⟨fun h => ?_, fun h5 => works_of_dvd hN h5 hd⟩
  by_contra h5
  have hst := (h.accepts d hd).1
  rw [rom_refused hN h5] at hst
  cases hst

theorem bundle_works_five : Works (zeroed 5) := (bundle_works (by decide) zeroed_idle).2 (by decide)

/-- Two chips with old data. -/
theorem two_chips_exit : CPU.new ⟨0, 0⟩ (.replicate ROM_SIZE 0) (zeroed 2) = none ∧ ¬ Works (zeroed 2) := by
  have hexit := new_exits (N := 2) (by decide) (by decide) ⟨0, 0⟩ (.replicate ROM_SIZE 0)
  refine ⟨hexit, fun h => ?_⟩
  obtain ⟨c, g', hnew⟩ := h.boots ⟨0, 0⟩ (.replicate ROM_SIZE 0)
  rw [hexit] at hnew
  cases hnew

end CPU

end NandServer
