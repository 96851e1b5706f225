import HsqOverNand.Qspi.Proof.Device
import HsqOverNand.Server.ExactlyOnce
import HsqOverNand.Server.MtdDevice
import HsqOverNand.Server.MultiChip

/-!
# The three backends (`include/nandInterface.hpp`)

`Backend` is `nandInterface` after its constructor: an MTD, a chip of the HAT or bundled spidev chips.
Each one answers as a `PagedDevice` (`mtd_paged`, `hat_paged`, `spi_paged`), so a CPU constructed on it
is `Steady`: between two rounds, on a device that works. `Steady` CPUs compute (`steady_computes`).

* LEDs are left out.
-/

set_option autoImplicit false

namespace NandServer

open CPU

/-! ## Devices that answer alike -/

section
variable {D D' : Type} [NandInterface D] [NandInterface D']

/-- Related devices answer every call of a CPU alike, and are related after it. -/
structure SameCalls (R : D' → D → Prop) (size : Nat) : Prop where
  size_eq : ∀ d' d, R d' d → NandInterface.size d' = NandInterface.size d
  read : ∀ d' d off {n : Nat} (buf : Vector Byte n), R d' d → off + n ≤ size →
    (NandInterface.read d' off buf).2.1 = (NandInterface.read d off buf).2.1 ∧
      R (NandInterface.read d' off buf).2.2 (NandInterface.read d off buf).2.2
  write : ∀ d' d off {n : Nat} (buf : Vector Byte n), R d' d → off + n ≤ size →
    R (NandInterface.write d' off buf).2 (NandInterface.write d off buf).2
  erase : ∀ d' d off len, R d' d → off + len ≤ size →
    (NandInterface.erase d' off len).1 = (NandInterface.erase d off len).1 ∧
      R (NandInterface.erase d' off len).2 (NandInterface.erase d off len).2

variable {R : D' → D → Prop} {mem : D → AndMemory.Mem 8} {mem' : D' → AndMemory.Mem 8}
  {Ok : D → Prop} {size : Nat}

theorem SameCalls.paged (h : SameCalls R size) (hp : PagedDevice mem Ok size) (hs : RAM ≤ size)
    (hmem : ∀ d' d, R d' d → mem' d' = mem d) :
    PagedDevice mem' (fun d' => ∃ d, R d' d ∧ Ok d) size := by
  have hrom : 0 + ROM_SIZE ≤ size := by
    rw [Nat.zero_add]
    exact hs
  refine .of_calls ?_ ?_ ?_ ?_ ?_
  · rintro d' ⟨d, hr, ho⟩
    exact (h.size_eq d' d hr).trans (hp.size_eq d ho)
  · rintro d' off n buf hin ⟨d, hr, ho⟩
    obtain ⟨hbuf, hr'⟩ := h.read d' d off buf hr hin
    rw [hbuf, hmem d' d hr, hmem _ _ hr', hp.read_mem d off buf hin ho]
    exact ⟨⟨_, hr', hp.read_ok d off buf hin ho⟩, hp.read d off buf hin ho, rfl⟩
  · rintro d' off n buf hoff hn hin ⟨d, hr, ho⟩
    have hr' := h.write d' d off buf hr hin
    rw [hmem d' d hr, hmem _ _ hr']
    exact ⟨⟨_, hr', hp.write_ok d off buf hoff hn hin ho⟩, hp.write d off buf hoff hn hin ho⟩
  · rintro d' ⟨d, hr, ho⟩
    obtain ⟨hst, hok, he⟩ := hp.erase_rom d ho
    obtain ⟨hst', hr'⟩ := h.erase d' d 0 ROM_SIZE hr hrom
    rw [hmem d' d hr, hmem _ _ hr', hst', hst]
    exact ⟨rfl, ⟨_, hr', hok⟩, he⟩
  · rintro d' ⟨d, hr, ho⟩
    obtain ⟨hok, he⟩ := hp.erase_calc d ho
    obtain ⟨-, hr'⟩ := h.erase d' d RAM (size - RAM) hr (Nat.add_sub_cancel' hs).le
    rw [hmem d' d hr, hmem _ _ hr']
    exact ⟨⟨_, hr', hok⟩, he⟩

end

/-- Two devices, one of which only wraps the other. -/
theorem SameCalls.of_wrap {D D' : Type} [NandInterface D] [NandInterface D'] {size : Nat} (wrap : D → D')
    (hsize : ∀ d, NandInterface.size (wrap d) = NandInterface.size d)
    (hread : ∀ d off {n : Nat} (buf : Vector Byte n), NandInterface.read (wrap d) off buf =
      ((NandInterface.read d off buf).1, (NandInterface.read d off buf).2.1,
        wrap (NandInterface.read d off buf).2.2))
    (hwrite : ∀ d off {n : Nat} (buf : Vector Byte n), NandInterface.write (wrap d) off buf =
      ((NandInterface.write d off buf).1, wrap (NandInterface.write d off buf).2))
    (herase : ∀ d off len, NandInterface.erase (wrap d) off len =
      ((NandInterface.erase d off len).1, wrap (NandInterface.erase d off len).2)) :
    SameCalls (fun d' d => d' = wrap d) size where
  size_eq := by
    rintro d' d rfl
    exact hsize d
  read := by
    rintro d' d off n buf rfl -
    rw [hread]
    exact ⟨rfl, rfl⟩
  write := by
    rintro d' d off n buf rfl -
    rw [hwrite]
  erase := by
    rintro d' d off len rfl -
    rw [herase]
    exact ⟨rfl, rfl⟩

/-- The HAT answers as the bundle of its chip, on the same pins. -/
theorem W25NFlashDevice.sameCalls (p : Pins) :
    SameCalls (fun (d' : W25NFlashDevice) (d : W25NSpiFlashDevice 1) => (d'.Ok ∧ d'.pins = p) ∧ d = d'.bundle)
      W25N_TOTAL_SIZE where
  size_eq := by
    rintro d' d ⟨-, rfl⟩
    rfl
  read := by
    rintro d' d off n buf ⟨⟨ho, hp⟩, rfl⟩ hin
    obtain ⟨heq, hok⟩ := readLoop_spi n off 0 buf ho hin
    exact ⟨(congrArg (·.2.1) heq).symm, ⟨hok, (readLoop_pins n off 0 buf).trans hp⟩, congrArg (·.2.2) heq⟩
  write := by
    rintro d' d off n buf ⟨⟨ho, hp⟩, rfl⟩ hin
    obtain ⟨heq, hok⟩ := write_spi ho buf hin
    exact ⟨⟨hok, (writeLoop_pins buf n off 0).trans hp⟩, congrArg (·.2) heq⟩
  erase := by
    rintro d' d off len ⟨⟨ho, hp⟩, rfl⟩ hin
    obtain ⟨heq, hok⟩ := erase_spi ho hin
    exact ⟨(congrArg (·.1) heq).symm, ⟨hok, (erase_pins d' off len).trans hp⟩, congrArg (·.2) heq⟩

/-! ## `nandInterface` -/

inductive Backend (F : Type)
  | mtd (d : MTDFlashDevice F)
  | hat (d : W25NFlashDevice)
  /-- One chip and `n` more. -/
  | spi {n : Nat} (d : W25NSpiFlashDevice (n + 1))

namespace Backend

variable {F : Type} [MtdFile F]

instance : NandInterface (Backend F) where
  erase d offset length :=
    match d with
    | hat d => let r := NandInterface.erase d offset length; (r.1, hat r.2)
    | spi d => let r := NandInterface.erase d offset length; (r.1, spi r.2)
    | mtd d => let r := NandInterface.erase d offset length; (r.1, mtd r.2)
  read d offset buffer :=
    match d with
    | hat d => let r := NandInterface.read d offset buffer; (r.1, r.2.1, hat r.2.2)
    | spi d => let r := NandInterface.read d offset buffer; (r.1, r.2.1, spi r.2.2)
    | mtd d => let r := NandInterface.read d offset buffer; (r.1, r.2.1, mtd r.2.2)
  write d offset buffer :=
    match d with
    | hat d => let r := NandInterface.write d offset buffer; (r.1, hat r.2)
    | spi d => let r := NandInterface.write d offset buffer; (r.1, spi r.2)
    | mtd d => let r := NandInterface.write d offset buffer; (r.1, mtd r.2)
  size d :=
    match d with
    | hat d => NandInterface.size d
    | spi d => NandInterface.size d
    | mtd d => NandInterface.size d

/-- The contents. -/
def flat (mem : F → AndMemory.Mem 8) : Backend F → AndMemory.Mem 8
  | hat d => d.flat
  | spi d => d.flat
  | mtd d => d.flat mem

/-- What a CPU needs: an MTD as the driver promises it, with pages and blocks that fit, a chip of the
HAT at rest, or one or five chips on spidev. -/
inductive Usable (mem : F → AndMemory.Mem 8) (pos : F → Nat) : Backend F → Prop
  | mtd {d : MTDFlashDevice F} {size writesize erasesize : Nat}
    (driver : MtdFile.FaultFree mem pos size writesize erasesize) (sizeOk : SizeOk size)
    (page : writesize ∣ PAGE_SIZ) (block : erasesize ∣ 131072) (ok : d.Ok size erasesize) :
    Usable mem pos (.mtd d)
  | hat {d : W25NFlashDevice} (ok : d.Ok) : Usable mem pos (.hat d)
  | spi {n : Nat} {d : W25NSpiFlashDevice (n + 1)} (count : n + 1 ∣ 5) (idle : d.Idle) :
    Usable mem pos (.spi d)

theorem sameCalls_spi {n : Nat} (size : Nat) :
    SameCalls (fun (b : Backend F) (d : W25NSpiFlashDevice (n + 1)) => b = .spi d) size :=
  .of_wrap (Backend.spi (F := F) (n := n)) (fun _ => rfl) (fun _ _ _ _ => rfl) (fun _ _ _ _ => rfl) (fun _ _ _ => rfl)

theorem hat_sizeOk : SizeOk W25N_TOTAL_SIZE := bundle_sizeOk (N := 1) (by decide)

/-- A chip of the HAT at rest, behind these pins. -/
def HatReady (p : Pins) (b : Backend F) : Prop := ∃ d, b = .hat d ∧ d.Ok ∧ d.pins = p

theorem hat_paged (mem : F → AndMemory.Mem 8) (p : Pins) :
    PagedDevice (flat mem) (HatReady p) W25N_TOTAL_SIZE := by
  have hready : HatReady (F := F) p =
      fun b => ∃ d, b = .hat d ∧ ∃ b', ((d.Ok ∧ d.pins = p) ∧ b' = d.bundle) ∧ b'.Idle := by
    funext b
    apply propext
    constructor
    · rintro ⟨d, rfl, h⟩
      exact ⟨d, rfl, d.bundle, ⟨h, rfl⟩, h.1.idle⟩
    · rintro ⟨d, rfl, -, ⟨h, -⟩, -⟩
      exact ⟨d, rfl, h⟩
  rw [hready]
  have hle : RAM ≤ W25N_TOTAL_SIZE := hat_sizeOk.ram.le
  have hone : PagedDevice W25NSpiFlashDevice.flat W25NSpiFlashDevice.Idle W25N_TOTAL_SIZE :=
    (bundle_flat (N := 1) (by decide) (Nat.one_dvd 5)).paged
  have hhat : PagedDevice W25NFlashDevice.flat _ W25N_TOTAL_SIZE :=
    (W25NFlashDevice.sameCalls p).paged hone hle (by rintro d' d ⟨-, rfl⟩; exact (W25NFlashDevice.bundle_flat d').symm)
  exact (SameCalls.of_wrap (Backend.hat (F := F)) (fun _ => rfl) (fun _ _ _ _ => rfl) (fun _ _ _ _ => rfl)
    (fun _ _ _ => rfl)).paged hhat hle (by rintro _ d rfl; rfl)

/-- One memory under a usable backend. -/
theorem Usable.paged {mem : F → AndMemory.Mem 8} {pos : F → Nat} {b : Backend F} (h : b.Usable mem pos) :
    ∃ (Ok : Backend F → Prop) (size : Nat), SizeOk size ∧ PagedDevice (flat mem) Ok size ∧ Ok b := by
  cases h with
  | @mtd d size writesize erasesize driver hs hpage hblock ok =>
    have hmtd := MTDFlashDevice.paged driver hs hpage hblock
    exact ⟨_, size, hs, (SameCalls.of_wrap Backend.mtd (fun _ => rfl) (fun _ _ _ _ => rfl)
      (fun _ _ _ _ => rfl) (fun _ _ _ => rfl)).paged hmtd hs.ram.le (by rintro _ d rfl; rfl),
      d, rfl, ok⟩
  | @hat d ok =>
    exact ⟨_, W25N_TOTAL_SIZE, hat_sizeOk, hat_paged mem d.pins, d, rfl, ok, rfl⟩
  | @spi n d hcount hidle =>
    have hN : n + 1 ≤ 15 := (Nat.le_of_dvd (by decide) hcount).trans (by decide)
    have hs := bundle_sizeOk (N := n + 1) hN
    exact ⟨_, _, hs, (sameCalls_spi _).paged (bundle_flat hN hcount).paged hs.ram.le
      (by rintro _ d rfl; rfl), d, rfl, hidle⟩

end Backend

/-! ## CPUs on any device -/

namespace CPU

variable {D : Type} [NandInterface D]

/-- A CPU between two rounds, on a device that works. -/
def Steady (rom : List RomT) (c : CPU D) : Prop :=
  ∃ (mem : D → AndMemory.Mem 8) (Ok : D → Prop) (size k : Nat), SizeOk size ∧ PagedDevice mem Ok size ∧
    Ready mem (WithRom mem Ok rom) rom size k c

section
variable {rom : List RomT} {net : Netlist} {cells : List Cell} {last : Int} {l0 l1 : Lane}
  (hc : RoundCode rom net cells last l0 l1)
include hc

theorem Steady.round {c : CPU D} (h : Steady rom c) (inA inB : Vector (BitVec 64) LANES) :
    Steady rom (c.setIn inA inB).round ∧ Subtracts inA inB (c.setIn inA inB).round := by
  obtain ⟨mem, Ok, size, k, hs, hp, hr⟩ := h
  have hin := hr.setIn inA inB
  obtain ⟨c', hrun, hr', hsub⟩ := round_ready hc hs (hp.calc hs) hin (Nat.le_refl _)
  have hround : (c.setIn inA inB).round = c' := by rw [CPU.round, hin.romSize, hrun]
  rw [hround]
  exact ⟨⟨mem, Ok, size, _, hs, hp, hr'⟩, hsub⟩

theorem steady_computes : Pool.Computes (Steady (D := D) rom) where
  keeps _ h inA inB := (h.round hc inA inB).1
  answers _ h inA inB := (h.round hc inA inB).2.boost

/-- Its constructor succeeds, whatever the device holds. -/
theorem new_steady {mem : D → AndMemory.Mem 8} {Ok : D → Prop} {size : Nat} (hp : PagedDevice mem Ok size)
    (hs : SizeOk size) {g' : Globals} (hinit : ∀ g, romInit g = some (rom, g')) (g : Globals)
    (garbage : Vector Byte ROM_SIZE) {d : D} (ho : Ok d) :
    ∃ c, CPU.new g garbage d = some (c, g') ∧ Steady rom c := by
  obtain ⟨c, hnew, hr⟩ := new_ready (hp.boot hs) hs (fun _ ho _ => hp.erased ho) hc.linked.size hinit g
    garbage ho
  exact ⟨c, hnew, mem, Ok, size, 0, hs, hp, hr⟩

theorem Steady.rounds {c : CPU D} (h : Steady rom c)
    (past : List (Vector (BitVec 64) LANES × Vector (BitVec 64) LANES)) : Steady rom (c.rounds past) := by
  induction past generalizing c with
  | nil => exact h
  | cons i past ih => exact ih (h.round hc i.1 i.2).1

end

end CPU

namespace Backend

variable {F : Type} [MtdFile F]

/-- **A CPU computes on every backend.** -/
theorem computes {mem : F → AndMemory.Mem 8} {pos : F → Nat} {b : Backend F} (h : b.Usable mem pos)
    (g : Globals) (garbage : Vector Byte ROM_SIZE) : ∃ c g', CPU.new g garbage b = some (c, g') ∧
      ∀ (past : List (Vector (BitVec 64) LANES × Vector (BitVec 64) LANES))
        (inA inB : Vector (BitVec 64) LANES), Subtracts inA inB ((c.rounds past).setIn inA inB).round := by
  obtain ⟨rom, g', net, cells, last, l0, l1, hc, hinit⟩ := romInit_spec
  obtain ⟨Ok, size, hs, hp, ho⟩ := h.paged
  obtain ⟨c, hnew, hst⟩ := new_steady hc hp hs hinit g garbage ho
  exact ⟨c, g', hnew, fun past inA inB => ((hst.rounds hc past).round hc inA inB).2⟩

/-- A partition of a simulated NAND, full of old data. -/
theorem computes_nandsim : ∃ c g', CPU.new ⟨0, 0⟩ (.replicate ROM_SIZE 0)
    (Backend.mtd ⟨some (⟨fun _ => 0, 0⟩ : NandSim), ⟨NandSim.SIZE, 131072⟩⟩) = some (c, g') ∧
      ∀ (past : List (Vector (BitVec 64) LANES × Vector (BitVec 64) LANES))
        (inA inB : Vector (BitVec 64) LANES), Subtracts inA inB ((c.rounds past).setIn inA inB).round :=
  computes (.mtd NandSim.faultFree ⟨by decide, by decide, by decide⟩ (Nat.dvd_refl _) (Nat.dvd_refl _)
    (MTDFlashDevice.Ok.some _ _ _)) _ _

end Backend

end NandServer
