import HsqOverNand.Server.Proof.RoundRun
import HsqOverNand.Server.Requests

/-!
# The life of a CPU

`Ready k c`: between two rounds the CPU is about to use physical page `k`; from there on the
calculation area is erased and the buffer holds another page.

* `new_ready`: the constructor ends in `Ready 0`, from any contents of the device.
* `round_ready`: a round leads from `Ready k` to `Ready ((k + 1) % pages)`.

The device is described by what it does in the states `Ok`: `BootDevice` for the constructor,
`CalcDevice` for the rounds. `FlatDevice`, a fault-free one, is both.
-/

set_option autoImplicit false

namespace NandServer

open NandInterface

namespace CPU

variable {D : Type}

/-! ## Geometry -/

/-- Pages of the calculation area. -/
def pages (size : Nat) : Nat := (size - RAM) / PAGE_SIZ

/-- A page of the calculation area. -/
structure CalcPage (size P : Nat) : Prop where
  ram : RAM ≤ P
  size : P + PAGE_SIZ ≤ size
  aligned : P % PAGE_SIZ = 0

theorem pages_mul {size : Nat} (h : SizeOk size) : RAM + pages size * PAGE_SIZ = size := by
  have hb := h.blocks
  have hr : 655360 < size := h.ram
  show 655360 + (size - 655360) / 2048 * 2048 = size
  omega

theorem one_lt_pages {size : Nat} (h : SizeOk size) : 1 < pages size := by
  have hb := h.blocks
  have hr : 655360 < size := h.ram
  show 1 < (size - 655360) / 2048
  omega

theorem size_le {size : Nat} (h : SizeOk size) : size + 131072 ≤ 4294967296 := by
  have hb := h.blocks
  have hu : size < 4294967296 := h.u32
  omega

theorem calcPage_of_lt {size k : Nat} (h : SizeOk size) (hk : k < pages size) :
    CalcPage size (RAM + k * PAGE_SIZ) := by
  have hm : 655360 + pages size * 2048 = size := pages_mul h
  have hmul : (k + 1) * 2048 ≤ pages size * 2048 := Nat.mul_le_mul_right _ hk
  refine ⟨Nat.le_add_right _ _, ?_, ?_⟩
  · show 655360 + k * 2048 + 2048 ≤ size
    omega
  · show (655360 + k * 2048) % 2048 = 0
    omega

/-- The wrap test of `RAISE` finds the last page, without a 32-bit overflow. -/
theorem lastPage_iff {size k : Nat} (h : SizeOk size) (hk : k < pages size) :
    LastPage (k * PAGE_SIZ) size ↔ k + 1 = pages size := by
  have hm : 655360 + pages size * 2048 = size := pages_mul h
  have hmul : (k + 1) * 2048 ≤ pages size * 2048 := Nat.mul_le_mul_right _ hk
  have hle := size_le h
  have h1 : u32 (k * PAGE_SIZ + PAGE_SIZ) = k * 2048 + 2048 :=
    u32_of_lt (show k * 2048 + 2048 < 4294967296 by omega)
  have h2 : u32 (RAM + (k * 2048 + 2048)) = 655360 + (k * 2048 + 2048) :=
    u32_of_lt (show 655360 + (k * 2048 + 2048) < 4294967296 by omega)
  have h3 : u32 (655360 + (k * 2048 + 2048) + PAGE_SIZ) = 655360 + (k * 2048 + 2048) + 2048 :=
    u32_of_lt (show 655360 + (k * 2048 + 2048) + 2048 < 4294967296 by omega)
  rw [LastPage, h1, h2, h3]
  constructor
  · intro hlt
    have hgt : pages size * 2048 < (k + 2) * 2048 := by omega
    have := Nat.lt_of_mul_lt_mul_right hgt
    omega
  · intro he
    rw [← he] at hm
    omega

/-! ## Devices -/

variable [NandInterface D]

/-- In the states `Ok` the bit columns `G` of the calculation area are AND flash, a page is only
changed through itself, and the ROM area holds `rom`. -/
structure CalcDevice (mem : D → AndMemory.Mem 8) (Ok : D → Prop) (rom : List RomT) (size : Nat)
    (G : List Nat) : Prop where
  majority : Majority G
  page : ∀ P, CalcPage size P → RoundDevice mem Ok rom P G
  write_other : ∀ d (buf : Vector Byte PAGE_SIZ) P, CalcPage size P → Ok d →
    ∀ a, P + PAGE_SIZ ≤ a → mem (NandInterface.write d P buf).2 a = mem d a
  read_other : ∀ d (buf : Vector Byte PAGE_SIZ) P, CalcPage size P → Ok d →
    ∀ a, P + PAGE_SIZ ≤ a → mem (NandInterface.read d P buf).2.2 a = mem d a
  fetch_other : ∀ d (buf : Vector Byte PAGE_SIZ) p, p < ROM_SIZE → p % PAGE_SIZ = 0 → Ok d →
    ∀ a, RAM ≤ a → mem (NandInterface.read d p buf).2.2 a = mem d a
  erase_ok : ∀ d, Ok d → Ok (NandInterface.erase d RAM (size - RAM)).2
  erase : ∀ d, Ok d → ∀ a, RAM ≤ a → a < size →
    mem (NandInterface.erase d RAM (size - RAM)).2 a = 0xff

/-- Between two rounds, before page `k`: the CPU's side. -/
structure Seated (romLen size k : Nat) (c : CPU D) : Prop where
  pc : c.pc = 0
  nandSize : c.nandSize = size
  romSize : c.romSize = romLen
  pageOffset : c.pageOffset = k * PAGE_SIZ
  lt : k < pages size
  preOffset : c.preOffset ≠ RAM + k * PAGE_SIZ

/-- Between two rounds, before page `k`, with this and the later pages blank. -/
structure Ready (mem : D → AndMemory.Mem 8) (Ok : D → Prop) (rom : List RomT) (size k : Nat)
    (c : CPU D) : Prop extends Seated rom.length size k c where
  ok : Ok c.nand
  blank : ∀ a, RAM + k * PAGE_SIZ ≤ a → a < size → mem c.nand a = 0xff

omit [NandInterface D] in
theorem Ready.imp {mem : D → AndMemory.Mem 8} {Ok Ok' : D → Prop} {rom : List RomT} {size k : Nat}
    {c : CPU D} (h : Ready mem Ok rom size k c) (hok : Ok c.nand → Ok' c.nand) :
    Ready mem Ok' rom size k c := ⟨h.toSeated, hok h.ok, h.blank⟩

omit [NandInterface D] in
theorem Seated.setIn {romLen size k : Nat} {c : CPU D} (h : Seated romLen size k c)
    (inA inB : Vector (BitVec 64) LANES) : Seated romLen size k (c.setIn inA inB) :=
  ⟨h.pc, h.nandSize, h.romSize, h.pageOffset, h.lt, h.preOffset⟩

omit [NandInterface D] in
theorem Ready.setIn {mem : D → AndMemory.Mem 8} {Ok : D → Prop} {rom : List RomT} {size k : Nat}
    {c : CPU D} (h : Ready mem Ok rom size k c) (inA inB : Vector (BitVec 64) LANES) :
    Ready mem Ok rom size k (c.setIn inA inB) := ⟨h.toSeated.setIn inA inB, h.ok, h.blank⟩

section
variable {mem : D → AndMemory.Mem 8} {Ok : D → Prop} {rom : List RomT} {size : Nat} {G : List Nat}

/-- The round's device, with the pages after the round's one kept. -/
theorem CalcDevice.keepRest (h : CalcDevice mem Ok rom size G) {P : Nat} (hP : CalcPage size P)
    (m : AndMemory.Mem 8) :
    RoundDevice mem (fun d => Ok d ∧ ∀ a, P + PAGE_SIZ ≤ a → mem d a = m a) rom P G := by
  have hram := hP.ram
  refine (h.page P hP).and (fun d buf ho hq a ha => ?_) (fun d buf ho hq a ha => ?_)
    (fun d buf p hp hal ho hq a ha => ?_)
  · exact (h.write_other d buf P hP ho a ha).trans (hq a ha)
  · exact (h.read_other d buf P hP ho a ha).trans (hq a ha)
  · exact (h.fetch_other d buf p hp hal ho a (by omega)).trans (hq a ha)

omit [NandInterface D] in
theorem subtracts_intro {inA inB : Vector (BitVec 64) LANES} {c : CPU D} (hs : c.signal = true)
    (hpc : c.pc = 0) (hout : ∀ l : Fin LANES, c.out.get l = inB.get l - inA.get l)
    (hjmp : ∀ l : Fin LANES, c.isJmp.get l = decide ((inB.get l - inA.get l).toInt ≤ 0)) :
    Subtracts inA inB c where
  signal := hs
  pc := hpc
  out := hout
  isJmp := hjmp
  boost l := by
    have hresp : c.responses.get l = ⟨c.out.get l, c.isJmp.get l⟩ := Vector.getElem_ofFn l.isLt
    rw [hresp, hout l, hjmp l]
    rfl

section
variable {romLen k : Nat} {c : CPU D} (h : Seated romLen size k c)
include h
omit [NandInterface D]

/-- The round's physical page. -/
theorem Seated.start (hs : SizeOk size) : pageStart (c.phys RAM) = RAM + k * PAGE_SIZ := by
  have hP := calcPage_of_lt hs h.lt
  have hsz := hP.size
  have hle := size_le hs
  have hphys : c.phys RAM = RAM + k * PAGE_SIZ := by
    rw [phys, if_pos (Nat.le_refl _), h.pageOffset]
    exact u32_of_lt (show RAM + k * PAGE_SIZ < 4294967296 by omega)
  rw [hphys, pageStart_self hP.aligned]

theorem Seated.aligned : c.pageOffset % PAGE_SIZ = 0 := by
  rw [h.pageOffset, Nat.mul_mod_left]

/-- The addresses of the page at `RAM` stand for the round's page. -/
theorem Seated.maps (hs : SizeOk size) : Maps c (RAM + k * PAGE_SIZ) :=
  h.start hs ▸ maps_aligned h.aligned

end

omit [NandInterface D] in
theorem Ready.page_blank {k : Nat} {c : CPU D} (h : Ready mem Ok rom size k c) (hs : SizeOk size) :
    ∀ i < PAGE_SIZ, mem c.nand (RAM + k * PAGE_SIZ + i) = 0xff := by
  intro i hi
  have hsz := (calcPage_of_lt hs h.lt).size
  exact h.blank _ (Nat.le_add_right _ _) (by omega)

/-- The device after the wrap test of round `k`. -/
def wrapped (size k : Nat) (d : D) : D :=
  if k + 1 = pages size then (NandInterface.erase d RAM (size - RAM)).2 else d

/-- The wrap test moves to the next page, or back to page 0. -/
theorem RoundDone.next (hs : SizeOk size) {romLen k : Nat} {c c' : CPU D} {d : D}
    (h : Seated romLen size k c) (hdone : RoundDone c c' d) :
    Seated romLen size ((k + 1) % pages size) c' ∧ c'.nand = wrapped size k d := by
  have hlast := lastPage_iff hs h.lt
  have hle := size_le hs
  have hone := one_lt_pages hs
  have hpo := hdone.pageOffset
  have hnand := hdone.nand
  have hpre := hdone.preOffset.trans (h.start hs)
  rw [h.pageOffset, h.nandSize] at hpo hnand
  rw [usub_of_le hs.ram.le hs.u32] at hnand
  unfold wrapped
  by_cases hk : k + 1 = pages size
  · rw [if_pos (hlast.2 hk)] at hpo hnand
    rw [if_pos hk, hk, Nat.mod_self]
    refine ⟨⟨hdone.pc, hdone.nandSize.trans h.nandSize, hdone.romSize.trans h.romSize, ?_, by omega, ?_⟩,
      hnand⟩
    · rw [hpo, Nat.zero_mul]
    · rw [hpre]
      show RAM + k * 2048 ≠ RAM + 0 * 2048
      omega
  · have hlt : k + 1 < pages size := by have := h.lt; omega
    have hsz := (calcPage_of_lt hs hlt).size
    have hnext : k * PAGE_SIZ + PAGE_SIZ = (k + 1) * PAGE_SIZ := (Nat.succ_mul k PAGE_SIZ).symm
    rw [if_neg fun hl => hk (hlast.1 hl), hnext] at hpo
    rw [if_neg fun hl => hk (hlast.1 hl)] at hnand
    rw [if_neg hk, Nat.mod_eq_of_lt hlt]
    refine ⟨⟨hdone.pc, hdone.nandSize.trans h.nandSize, hdone.romSize.trans h.romSize, ?_, hlt, ?_⟩, hnand⟩
    · rw [hpo]
      exact u32_of_lt (show (k + 1) * PAGE_SIZ < 4294967296 by omega)
    · rw [hpre]
      show RAM + k * 2048 ≠ RAM + (k + 1) * 2048
      omega

/-- **A round on a blank page** leads to the next page. -/
theorem round_seated {net : Netlist} {cells : List Cell} {last : Int} {l0 l1 : Lane}
    (hc : RoundCode rom net cells last l0 l1) (hs : SizeOk size) {k : Nat}
    (hd : RoundDevice mem Ok rom (RAM + k * PAGE_SIZ) G) (hG : Majority G) {c : CPU D}
    (h : Seated rom.length size k c) (ho : Ok c.nand)
    (hblank : ∀ i < PAGE_SIZ, mem c.nand (RAM + k * PAGE_SIZ + i) = 0xff) {fuel : Nat}
    (hfuel : rom.length ≤ fuel) : ∃ c' d, runUntilSignal fuel c = (rom.length, c') ∧
      Seated rom.length size ((k + 1) % pages size) c' ∧ Subtracts c.inA c.inB c' ∧ Ok d ∧
      c'.nand = wrapped size k d := by
  have hstart := h.start hs
  rw [← hstart] at hd hblank
  obtain ⟨c', d, hrun, ho', hdone⟩ := round_run hc hd hG h.pc h.aligned
    (fun he => h.preOffset (he.trans hstart)) ho (fun j hj i hi => by
      rw [hblank i hi]
      exact getLsbD_fill true (hG.lt j hj)) hfuel
  obtain ⟨hnext, hnand⟩ := hdone.next hs h
  exact ⟨c', d, hrun, hnext, subtracts_intro hdone.signal hdone.pc hdone.out hdone.isJmp, ho', hnand⟩

/-- **A round leads to the next page.** -/
theorem round_ready {net : Netlist} {cells : List Cell} {last : Int} {l0 l1 : Lane}
    (hc : RoundCode rom net cells last l0 l1) (hs : SizeOk size) (hd : CalcDevice mem Ok rom size G)
    {k : Nat} {c : CPU D} (h : Ready mem Ok rom size k c) {fuel : Nat} (hfuel : rom.length ≤ fuel) :
    ∃ c', runUntilSignal fuel c = (rom.length, c') ∧
      Ready mem Ok rom size ((k + 1) % pages size) c' ∧ Subtracts c.inA c.inB c' := by
  have hP := calcPage_of_lt hs h.lt
  obtain ⟨c', d, hrun, hnext, hsub, ⟨ho, hrest⟩, hnand⟩ := round_seated hc hs
    (hd.keepRest hP (mem c.nand)) hd.majority h.toSeated ⟨h.ok, fun _ _ => rfl⟩ (h.page_blank hs) hfuel
  refine ⟨c', hrun, ⟨hnext, ?_, fun a ha hlt => ?_⟩, hsub⟩
  all_goals
    rw [hnand]
    unfold wrapped
    by_cases hk : k + 1 = pages size
  · rw [if_pos hk]
    exact hd.erase_ok d ho
  · rw [if_neg hk]
    exact ho
  · rw [if_pos hk]
    exact hd.erase d ho a (by omega) hlt
  · have hlt' : k + 1 < pages size := by have := h.lt; omega
    have hnext : k * PAGE_SIZ + PAGE_SIZ = (k + 1) * PAGE_SIZ := (Nat.succ_mul k PAGE_SIZ).symm
    have hle : RAM + k * PAGE_SIZ ≤ RAM + (k + 1) * PAGE_SIZ :=
      Nat.add_le_add_left (Nat.mul_le_mul_right _ (Nat.le_succ k)) _
    rw [Nat.mod_eq_of_lt hlt'] at ha
    rw [if_neg hk, hrest a (by rw [Nat.add_assoc, hnext]; exact ha)]
    exact h.blank a (hle.trans ha) hlt

/-- **Rounds follow each other through the pages.** -/
theorem rounds_ready {net : Netlist} {cells : List Cell} {last : Int} {l0 l1 : Lane}
    (hc : RoundCode rom net cells last l0 l1) (hs : SizeOk size) (hd : CalcDevice mem Ok rom size G) :
    ∀ (inputs : List (Vector (BitVec 64) LANES × Vector (BitVec 64) LANES)) (n : Nat) {c : CPU D},
      Ready mem Ok rom size (n % pages size) c →
      Ready mem Ok rom size ((n + inputs.length) % pages size) (c.rounds inputs)
  | [], _, _, h => h
  | i :: is, n, c, h => by
    have hin := h.setIn i.1 i.2
    obtain ⟨c', hrun, hready, -⟩ := round_ready hc hs hd hin (Nat.le_refl _)
    have hround : (c.setIn i.1 i.2).round = c' := by rw [CPU.round, hin.romSize, hrun]
    rw [Nat.mod_add_mod] at hready
    have ih := rounds_ready hc hs hd is (n + 1) hready
    rw [Nat.add_assoc, Nat.add_comm 1, ← hround] at ih
    exact ih

end

/-! ## The constructor -/

/-- In the states `Ok` the ROM area is fault-free flash, and erasing the calculation area leads to
`Ok'`. -/
structure BootDevice (mem : D → AndMemory.Mem 8) (Ok Ok' : D → Prop) (size : Nat) : Prop where
  size_eq : ∀ d, Ok d → NandInterface.size d = size
  read : ∀ d (buf : Vector Byte ROM_SIZE), Ok d → Ok (NandInterface.read d 0 buf).2.2 ∧
    (NandInterface.read d 0 buf).2.1 = AndMemory.readOut (mem d) 0 ROM_SIZE ∧
    ∀ a < ROM_SIZE, mem (NandInterface.read d 0 buf).2.2 a = mem d a
  erase : ∀ d, Ok d → (NandInterface.erase d 0 ROM_SIZE).1 = true ∧
    Ok (NandInterface.erase d 0 ROM_SIZE).2 ∧
    ∀ a < ROM_SIZE, mem (NandInterface.erase d 0 ROM_SIZE).2 a = 0xff
  write : ∀ d (buf : Vector Byte ROM_SIZE), Ok d → Ok (NandInterface.write d 0 buf).2 ∧
    ∀ a (ha : a < ROM_SIZE), mem (NandInterface.write d 0 buf).2 a = mem d a &&& buf[a]
  eraseCalc : ∀ d, Ok d → Ok' (NandInterface.erase d RAM (size - RAM)).2 ∧
    ∀ a < ROM_SIZE, mem (NandInterface.erase d RAM (size - RAM)).2 a = mem d a

/-- The ROM area holds `rom`. -/
def HoldsRom (mem : D → AndMemory.Mem 8) (rom : List RomT) (d : D) : Prop :=
  ∀ a < ROM_SIZE, mem d a = romByte rom a

/-- The states of the rounds: the ROM area stays as the constructor left it. -/
def WithRom (mem : D → AndMemory.Mem 8) (Ok : D → Prop) (rom : List RomT) (d : D) : Prop :=
  Ok d ∧ HoldsRom mem rom d

/-- The constructor's steps: with `r` the first read, a possible erase leads to `d1`, then come the write
and the read back. -/
theorem new_iff {g g' : Globals} {garbage : Vector Byte ROM_SIZE} {d : D} {c : CPU D} :
    CPU.new g garbage d = some (c, g') ↔ ∃ rom d1, romInit g = some (rom, g') ∧
      rom.length * 8 ≤ ROM_SIZE ∧
      eraseOld (romImage rom) (NandInterface.read d 0 garbage).2.1 (NandInterface.read d 0 garbage).2.2 =
        some d1 ∧
      (NandInterface.read (NandInterface.write d1 0 (romImage rom)).2 0
        (NandInterface.read d 0 garbage).2.1).2.1 = romImage rom ∧
      c = (init rom.length (NandInterface.read (NandInterface.write d1 0 (romImage rom)).2 0
        (NandInterface.read d 0 garbage).2.1).2.2).erase := by
  unfold CPU.new
  constructor
  · intro h
    cases hr : romInit g with
    | none =>
      rw [hr] at h
      cases h
    | some r =>
      rw [hr, Option.bind_eq_bind, Option.bind_some] at h
      simp only [] at h
      split at h
      · cases h
      · next hsize =>
        cases he : eraseOld (romImage r.1) (NandInterface.read d 0 garbage).2.1
            (NandInterface.read d 0 garbage).2.2 with
        | none =>
          rw [he] at h
          cases h
        | some d1 =>
          rw [he, Option.bind_eq_bind, Option.bind_some] at h
          split at h
          · cases h
          · next hv =>
            cases h
            exact ⟨r.1, d1, rfl, Nat.le_of_not_lt hsize, he, not_not.1 hv, rfl⟩
  · rintro ⟨rom, d1, hr, hsize, he, hv, rfl⟩
    rw [hr, Option.bind_eq_bind, Option.bind_some]
    simp only []
    rw [if_neg (Nat.not_lt.2 hsize), he, Option.bind_eq_bind, Option.bind_some]
    rw [if_neg (fun hn => hn hv)]

/-- The constructor ends with its `erase()`. -/
theorem new_eq_some {g g' : Globals} {garbage : Vector Byte ROM_SIZE} {d : D} {c : CPU D}
    (h : CPU.new g garbage d = some (c, g')) : ∃ n d', c = (init n d').erase := by
  obtain ⟨rom, d1, -, -, -, -, rfl⟩ := new_iff.1 h
  exact ⟨_, _, rfl⟩

section
variable {mem : D → AndMemory.Mem 8} {Ok Ok' : D → Prop} {size : Nat} {rom : List RomT}

/-- What the constructor finds decides whether it erases; the ROM area then takes the image. -/
theorem BootDevice.writable (h : BootDevice mem Ok Ok' size) (rom : List RomT) {d : D} (ho : Ok d)
    (buf : Vector Byte ROM_SIZE) :
    ∃ d', eraseOld (romImage rom) (NandInterface.read d 0 buf).2.1 (NandInterface.read d 0 buf).2.2 =
      some d' ∧ Ok d' ∧ ∀ a < ROM_SIZE, mem d' a &&& romByte rom a = romByte rom a := by
  obtain ⟨hro, hrbuf, hrmem⟩ := h.read d buf ho
  generalize NandInterface.read d 0 buf = r at hro hrbuf hrmem
  unfold eraseOld
  by_cases hdirty : r.2.1 ≠ romImage rom ∧ ¬ r.2.1.all (· = 0xff)
  · obtain ⟨hst, hoe, hff⟩ := h.erase _ hro
    rw [if_pos hdirty]
    simp only [hst, if_true]
    refine ⟨_, rfl, hoe, fun a ha => ?_⟩
    rw [hff a ha]
    exact BitVec.allOnes_and
  · rw [if_neg hdirty]
    refine ⟨_, rfl, hro, fun a ha => ?_⟩
    have hread : r.2.1[a] = mem d a := by
      rw [congrArg (fun v : Vector Byte ROM_SIZE => v[a]) hrbuf, AndMemory.getElem_readOut ha,
        Nat.zero_add]
    rw [hrmem a ha, ← hread]
    by_cases himg : r.2.1 = romImage rom
    · rw [congrArg (fun v : Vector Byte ROM_SIZE => v[a]) himg, getElem_romImage rom ha,
        BitVec.and_self]
    · have hall : r.2.1.all (· = 0xff) = true := by
        by_contra hn
        exact hdirty ⟨himg, hn⟩
      have hff : r.2.1[a] = 0xff := by
        simpa using (Vector.all_eq_true.1 hall) a ha
      rw [hff]
      exact BitVec.allOnes_and

/-- **The constructor succeeds and leaves the CPU before page 0**, from any contents; its last call is
the erase of the calculation area. -/
theorem new_seated (h : BootDevice mem Ok Ok' size) (hs : SizeOk size)
    (hrom : rom.length * 8 ≤ ROM_SIZE) {g' : Globals} (hinit : ∀ g, romInit g = some (rom, g'))
    (g : Globals) (garbage : Vector Byte ROM_SIZE) {d : D} (ho : Ok d) :
    ∃ c d', CPU.new g garbage d = some (c, g') ∧ Seated rom.length size 0 c ∧ WithRom mem Ok' rom c.nand ∧
      Ok d' ∧ c.nand = (NandInterface.erase d' RAM (size - RAM)).2 := by
  obtain ⟨d1, hd1, ho1, hand⟩ := h.writable rom ho garbage
  obtain ⟨how, hw⟩ := h.write d1 (romImage rom) ho1
  obtain ⟨hov, hvbuf, hv⟩ := h.read (NandInterface.write d1 0 (romImage rom)).2
    (NandInterface.read d 0 garbage).2.1 how
  have hmem : ∀ a < ROM_SIZE, mem (NandInterface.write d1 0 (romImage rom)).2 a = romByte rom a := by
    intro a ha
    rw [hw a ha, getElem_romImage rom ha, hand a ha]
  have hverify : (NandInterface.read (NandInterface.write d1 0 (romImage rom)).2 0
      (NandInterface.read d 0 garbage).2.1).2.1 = romImage rom := by
    rw [hvbuf]
    refine Vector.ext fun a ha => ?_
    rw [AndMemory.getElem_readOut ha, Nat.zero_add, hmem a ha, getElem_romImage rom ha]
  obtain ⟨hoe, herom⟩ := h.eraseCalc _ hov
  have hsize := h.size_eq _ hov
  have hnew : CPU.new g garbage d = some ((init rom.length (NandInterface.read
      (NandInterface.write d1 0 (romImage rom)).2 0 (NandInterface.read d 0 garbage).2.1).2.2).erase,
      g') := new_iff.2 ⟨rom, d1, hinit g, hrom, hd1, hverify, rfl⟩
  generalize (NandInterface.read (NandInterface.write d1 0 (romImage rom)).2 0
    (NandInterface.read d 0 garbage).2.1).2.2 = d2 at hnew hov hv hoe herom hsize
  have hnand : ((init rom.length d2).erase).nand = (NandInterface.erase d2 RAM (size - RAM)).2 := by
    show (NandInterface.erase d2 RAM (usub (NandInterface.size d2) RAM)).2 = _
    rw [hsize, usub_of_le hs.ram.le hs.u32]
  refine ⟨_, d2, hnew, ⟨rfl, hsize, rfl, (Nat.zero_mul _).symm, by have := one_lt_pages hs; omega, ?_⟩,
    ⟨hnand ▸ hoe, fun a ha => ?_⟩, hov, hnand⟩
  · show 0 ≠ RAM + 0 * 2048
    decide
  · rw [hnand, herom a ha, hv a ha, hmem a ha]

theorem new_ready (h : BootDevice mem Ok Ok' size) (hs : SizeOk size)
    (herase : ∀ d, Ok d → ∀ a, RAM ≤ a → a < size →
      mem (NandInterface.erase d RAM (size - RAM)).2 a = 0xff)
    (hrom : rom.length * 8 ≤ ROM_SIZE) {g' : Globals} (hinit : ∀ g, romInit g = some (rom, g'))
    (g : Globals) (garbage : Vector Byte ROM_SIZE) {d : D} (ho : Ok d) :
    ∃ c, CPU.new g garbage d = some (c, g') ∧ Ready mem (WithRom mem Ok' rom) rom size 0 c := by
  obtain ⟨c, d', hnew, hseat, hok, ho', hnand⟩ := new_seated h hs hrom hinit g garbage ho
  refine ⟨c, hnew, hseat, hok, fun a ha hlt => ?_⟩
  rw [hnand]
  exact herase d' ho' a (by omega) hlt

end

end CPU

end NandServer
