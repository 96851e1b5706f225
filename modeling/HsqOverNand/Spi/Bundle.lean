import HsqOverNand.Spi.Proof.Refine

/-!
# Bundled chips refine one flat memory

`FlatCall.run` is the abstract device: one byte array whose `write` ANDs, and whose `erase` takes whole
groups of a block per chip. `bundle_refines`: any calls inside the bundle are answered as there, and the
cells stay the same.
-/

set_option autoImplicit false

namespace NandServer

/-- A call with the caller's buffer. -/
inductive DeviceCall
  | read (offset : Nat) {n : Nat} (buffer : Vector Byte n)
  | write (offset : Nat) {n : Nat} (buffer : Vector Byte n)
  | erase (offset length : Nat)

namespace DeviceCall

def InRange (size : Nat) : DeviceCall → Prop
  | @read offset n _ => offset + n ≤ size
  | @write offset n _ => offset + n ≤ size
  | erase offset length => offset + length ≤ size

/-- The status, and the bytes read. -/
abbrev Answer := Bool × List Byte

/-- The call on a flat memory; erases are multiples of `group`. -/
def onFlat (group : Nat) (m : AndMemory.Mem 8) : DeviceCall → Answer × AndMemory.Mem 8
  | @read offset n _ => ((true, (AndMemory.readOut m offset n).toList), m)
  | write offset buffer => ((true, []), AndMemory.program m offset buffer)
  | erase offset length =>
    if offset % group = 0 ∧ length % group = 0 then ((true, []), AndMemory.erase m offset length)
    else ((false, []), m)

def runFlat (group : Nat) (m : AndMemory.Mem 8) : List DeviceCall → List Answer × AndMemory.Mem 8
  | [] => ([], m)
  | c :: cs =>
    let r := c.onFlat group m
    let rs := runFlat group r.2 cs
    (r.1 :: rs.1, rs.2)

variable {N : Nat} [NeZero N]

/-- The call on a bundle. -/
def onChips (d : W25NSpiFlashDevice N) : DeviceCall → Answer × W25NSpiFlashDevice N
  | read offset buffer =>
    let r := NandInterface.read d offset buffer
    ((r.1, r.2.1.toList), r.2.2)
  | write offset buffer =>
    let r := NandInterface.write d offset buffer
    ((r.1, []), r.2)
  | erase offset length =>
    let r := NandInterface.erase d offset length
    ((r.1, []), r.2)

def runChips (d : W25NSpiFlashDevice N) : List DeviceCall → List Answer × W25NSpiFlashDevice N
  | [] => ([], d)
  | c :: cs =>
    let r := c.onChips d
    let rs := runChips r.2 cs
    (r.1 :: rs.1, rs.2)

open W25NSpiFlashDevice

/-- One call. -/
theorem onChips_flat (hN : N ≤ 15) {d : W25NSpiFlashDevice N} (hd : d.Idle) {c : DeviceCall}
    (hc : c.InRange (W25N_SPI_TOTAL_SIZE * N)) :
    (c.onChips d).1 = (c.onFlat (131072 * N) d.flat).1 ∧
      (c.onChips d).2.flat = (c.onFlat (131072 * N) d.flat).2 ∧ (c.onChips d).2.Idle := by
  cases c with
  | @read offset n buffer =>
    have h := readLoop_spec hN n offset 0 buffer hd hc (Nat.zero_add n)
    have hdata : (readLoop d offset buffer 0 n).2.1 = AndMemory.readOut d.flat offset n := by
      refine Vector.ext fun i hi => ?_
      rw [h.get i hi, if_neg (Nat.not_lt_zero i), AndMemory.getElem_readOut hi, Nat.sub_zero]
    exact ⟨Prod.ext h.ok (congrArg Vector.toList hdata), h.flat, h.idle⟩
  | write offset buffer =>
    obtain ⟨hok, hidle, hflat⟩ := write_spec hN hd buffer hc
    exact ⟨Prod.ext hok rfl, hflat, hidle⟩
  | erase offset length =>
    by_cases h : Aligned N offset length
    · have hcall : onFlat (131072 * N) d.flat (erase offset length) =
          ((true, []), AndMemory.erase d.flat offset length) := if_pos h
      obtain ⟨hok, hidle, hflat⟩ := erase_spec hN hd hc h
      rw [hcall]
      exact ⟨Prod.ext hok rfl, hflat, hidle⟩
    · have hcall : onFlat (131072 * N) d.flat (erase offset length) = ((false, []), d.flat) := if_neg h
      have hchips : onChips d (erase offset length) = ((false, []), d) :=
        congrArg (fun r : Bool × W25NSpiFlashDevice N => ((r.1, ([] : List Byte)), r.2))
          (erase_refused hN h)
      rw [hcall, hchips]
      exact ⟨rfl, rfl, hd⟩

/-- **A bundle of up to 15 chips is one flat memory**, over every sequence of calls. -/
theorem bundle_refines (hN : N ≤ 15) : ∀ (cs : List DeviceCall) {d : W25NSpiFlashDevice N}, d.Idle →
    (∀ c ∈ cs, c.InRange (W25N_SPI_TOTAL_SIZE * N)) →
    (runChips d cs).1 = (runFlat (131072 * N) d.flat cs).1 ∧
      (runChips d cs).2.flat = (runFlat (131072 * N) d.flat cs).2
  | [], _, _, _ => ⟨rfl, rfl⟩
  | c :: cs, d, hd, hcs => by
    obtain ⟨hans, hflat, hidle⟩ := onChips_flat hN hd (hcs c (.head cs))
    obtain ⟨hrest, hend⟩ := bundle_refines hN cs hidle fun c' hc' => hcs c' (.tail c hc')
    unfold runChips runFlat
    simp only []
    rw [← hflat, ← hans]
    exact ⟨congrArg (_ :: ·) hrest, hend⟩

/-- Two zeroed chips: an erase of half a group is refused, one of a group is not; then a program there and a
read across the chips. -/
theorem bundle_refines_two :
    let d : W25NSpiFlashDevice 2 := ⟨.replicate 2 ⟨fun _ _ => 0, fun _ => 0, false, false⟩⟩
    let cs : List DeviceCall :=
      [.erase 0 131072, .erase 262144 262144, .write 264191 (.replicate 3 0x55), .read 2047 (.replicate 2 0x11),
        .read 264190 (.replicate 4 0)]
    (runChips d cs).1 = (runFlat (131072 * 2) d.flat cs).1 ∧
      (runChips d cs).2.flat = (runFlat (131072 * 2) d.flat cs).2 :=
  bundle_refines (by decide) _ (fun i => by revert i; decide) (by
    intro c hc
    simp only [List.mem_cons, List.not_mem_nil, or_false] at hc
    rcases hc with rfl | rfl | rfl | rfl | rfl <;> simp only [InRange] <;> decide)

end DeviceCall

end NandServer
