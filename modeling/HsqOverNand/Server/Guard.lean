import HsqOverNand.Server.Proof.Life
import HsqOverNand.Server.Proof.Trace

/-!
# The start-up ROM guard

`Unreliable`: a device any of whose calls may fail, with the effect the source allows. The constructor
looks at the status of the erase only; a failed read leaves its buffer. `rom_guard`: so the guard fails
exactly when neither read of the ROM area is carried out, the fresh buffer happens to hold the image
and the ROM area does not.
-/

set_option autoImplicit false

namespace NandServer

open NandInterface

/-- A device with a fault pattern. -/
structure Unreliable where
  mem : AndMemory.Mem 8
  size : Nat
  /-- Call `n` returns false. -/
  fails : Nat → Bool
  /-- Failed call `n` leaves address `a` as it was. -/
  kept : (n a : Nat) → Bool
  /-- Calls so far. -/
  calls : Nat

namespace Unreliable

/-- An erase or a write that would lead to the memory `m`. -/
def change (d : Unreliable) (m : AndMemory.Mem 8) : Bool × Unreliable :=
  (!d.fails d.calls, { d with
    mem := fun a => if d.fails d.calls && d.kept d.calls a then d.mem a else m a
    calls := d.calls + 1 })

end Unreliable

instance : NandInterface Unreliable where
  erase d offset length := d.change (AndMemory.erase d.mem offset length)
  read {n} d offset buffer := (!d.fails d.calls,
    if d.fails d.calls then buffer else AndMemory.readOut d.mem offset n,
    { d with calls := d.calls + 1 })
  write d offset buffer := d.change (AndMemory.program d.mem offset buffer)
  size d := d.size

namespace Unreliable

theorem change_same (d : Unreliable) {m : AndMemory.Mem 8} {a : Nat} (h : m a = d.mem a) :
    (d.change m).2.mem a = d.mem a := by
  unfold change
  simp only []
  split
  · rfl
  · exact h

/-- The ROM area holds the image. -/
def Holds (d : Unreliable) (image : Vector Byte ROM_SIZE) : Prop :=
  AndMemory.readOut d.mem 0 ROM_SIZE = image

theorem holds_iff {d : Unreliable} {image : Vector Byte ROM_SIZE} :
    d.Holds image ↔ ∀ a (h : a < ROM_SIZE), d.mem a = image[a] := by
  unfold Holds
  constructor
  · rintro rfl a h
    rw [AndMemory.getElem_readOut h, Nat.zero_add]
  · intro hm
    refine Vector.ext fun a h => ?_
    rw [AndMemory.getElem_readOut h, Nat.zero_add, hm a h]

/-- A write of the image over the image, carried out or not. -/
theorem Holds.write {d : Unreliable} {image : Vector Byte ROM_SIZE} (h : d.Holds image) :
    (NandInterface.write d 0 image).2.Holds image := by
  rw [holds_iff] at h ⊢
  intro a ha
  refine (d.change_same ?_).trans (h a ha)
  rw [AndMemory.program_zero ha, h a ha, BitVec.and_self]

/-- What the last erase does to the ROM area: nothing. -/
theorem holds_erase {d : Unreliable} {image : Vector Byte ROM_SIZE} (n : Nat) :
    (CPU.init n d).erase.nand.Holds image ↔ d.Holds image := by
  have hrom : ∀ a < ROM_SIZE, (CPU.init n d).erase.nand.mem a = d.mem a := fun a ha =>
    d.change_same (AndMemory.erase_other (.inl ha))
  rw [holds_iff, holds_iff]
  constructor
  · intro h a ha
    rw [← hrom a ha, h a ha]
  · intro h a ha
    rw [hrom a ha, h a ha]

/-- The guard never compares the flash: both reads fail, the buffer from `new` holds the image, and the
write does not bring the image into the ROM area. -/
structure Blind (d : Unreliable) (garbage image : Vector Byte ROM_SIZE) : Prop where
  first : d.fails d.calls = true
  second : d.fails (d.calls + 2) = true
  garbage : garbage = image
  wrong : ¬ (NandInterface.write { d with calls := d.calls + 1 } 0 image).2.Holds image

/-- A read that is carried out returns the ROM area. -/
theorem read_ok {d : Unreliable} (h : d.fails d.calls = false) (buffer : Vector Byte ROM_SIZE) :
    (NandInterface.read d 0 buffer).2.1 = AndMemory.readOut d.mem 0 ROM_SIZE := by
  show (if d.fails d.calls then buffer else _) = _
  rw [h]
  rfl

theorem read_failed {d : Unreliable} (h : d.fails d.calls = true) (buffer : Vector Byte ROM_SIZE) :
    (NandInterface.read d 0 buffer).2.1 = buffer := by
  show (if d.fails d.calls then buffer else _) = _
  rw [h]
  rfl

/-- A blind guard lets the ROM area through. -/
theorem Blind.passes {d : Unreliable} {garbage image : Vector Byte ROM_SIZE}
    (h : d.Blind garbage image) :
    (NandInterface.read d 0 garbage).2.1 = image ∧
      (NandInterface.read (NandInterface.write { d with calls := d.calls + 1 } 0 image).2 0 image).2.1 =
        image :=
  ⟨(read_failed h.first garbage).trans h.garbage, read_failed h.second image⟩

end Unreliable

namespace CPU

open Unreliable

/-- If the constructor returns, the ROM area holds the generated image. -/
def Guarded (g : Globals) (garbage : Vector Byte ROM_SIZE) (d : Unreliable) : Prop :=
  ∀ rom g' c, romInit g = some (rom, g') → CPU.new g garbage d = some (c, g') →
    c.nand.Holds (romImage rom)

/-- The image in the buffer: nothing is erased. -/
theorem eraseOld_image {image : Vector Byte ROM_SIZE} {D : Type} [NandInterface D] (d : D) :
    eraseOld image image d = some d := if_neg fun h => h.1 rfl

/-- What the read back finds is the image: the flash holds it, or no read was carried out. -/
theorem readBack {d d1 : Unreliable} {garbage image : Vector Byte ROM_SIZE}
    (hold : eraseOld image (NandInterface.read d 0 garbage).2.1 (NandInterface.read d 0 garbage).2.2 =
      some d1)
    (hback : (NandInterface.read (NandInterface.write d1 0 image).2 0
      (NandInterface.read d 0 garbage).2.1).2.1 = image) :
    (NandInterface.write d1 0 image).2.Holds image ∨ d.Blind garbage image := by
  cases h2 : (NandInterface.write d1 0 image).2.fails (NandInterface.write d1 0 image).2.calls with
  | false =>
    rw [read_ok h2] at hback
    exact .inl hback
  | true =>
    -- The buffer still holds what the first read left there.
    rw [read_failed h2] at hback
    rw [hback, eraseOld_image] at hold
    cases hold
    cases h1 : d.fails d.calls with
    | false =>
      rw [read_ok h1] at hback
      exact .inl (Holds.write (d := (NandInterface.read d 0 garbage).2.2) hback)
    | true =>
      rw [read_failed h1] at hback
      by_cases hw : (NandInterface.write (NandInterface.read d 0 garbage).2.2 0 image).2.Holds image
      · exact .inl hw
      · exact .inr ⟨h1, h2, hback, hw⟩

/-- **The guard lets a wrong ROM through exactly when it is blind.** -/
theorem rom_guard (g : Globals) (garbage : Vector Byte ROM_SIZE) (d : Unreliable) :
    Guarded g garbage d ↔ ∀ rom g', romInit g = some (rom, g') → ¬ d.Blind garbage (romImage rom) := by
  obtain ⟨rom0, g0, net, cells, last, l0, l1, hc, hinit⟩ := romInit_spec
  constructor
  · intro hguard rom g' hrom hblind
    obtain ⟨hread, hback⟩ := hblind.passes
    rw [hinit g] at hrom
    cases hrom
    have hnew := new_iff.2 ⟨rom0, (NandInterface.read d 0 garbage).2.2, hinit g, hc.linked.size,
      by rw [hread, eraseOld_image], by rw [hread]; exact hback, rfl⟩
    have hholds := hguard rom0 g0 _ (hinit g) hnew
    rw [holds_erase, hread] at hholds
    exact hblind.wrong hholds
  · intro hcond rom g' c hrom hnew
    obtain ⟨rom', d1, hrom', -, hold, hback, rfl⟩ := new_iff.1 hnew
    rw [hrom] at hrom'
    cases hrom'
    rw [holds_erase]
    cases readBack hold hback with
    | inl hholds => exact hholds
    | inr hblind => exact absurd hblind (hcond rom g' hrom)

/-- The image the constructor generates. -/
def generated (g : Globals) : Vector Byte ROM_SIZE := romImage ((romInit g).elim [] Prod.fst)

theorem generated_eq {g g' : Globals} {rom : List RomT} (h : romInit g = some (rom, g')) :
    generated g = romImage rom := by
  unfold generated
  rw [h, Option.elim_some]

/-- Old data, and no call is carried out. -/
def deaf : Unreliable := ⟨fun _ => 0x00, 786432, fun _ => true, fun _ _ => true, 0⟩

/-- The constructor returns on a ROM area of zeros if the buffer for the read back held the image. -/
theorem guard_blind : ¬ Guarded ⟨0, 0⟩ (generated ⟨0, 0⟩) deaf := by
  obtain ⟨rom, g', net, cells, last, l0, l1, hc, hinit⟩ := romInit_spec
  rw [rom_guard, generated_eq (hinit _)]
  refine fun h => h rom g' (hinit _) ⟨rfl, rfl, rfl, fun hholds => ?_⟩
  have h0 := holds_iff.1 hholds 0 (by decide)
  rw [getElem_romImage rom (by decide), romByte_zero hc] at h0
  have hzero : deaf.mem 0 = 0x08 := h0
  exact absurd hzero (by decide)

end CPU

end NandServer
