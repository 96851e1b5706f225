import HsqOverNand.Server.Proof.Life

/-!
# Fault-free devices

`FlatDevice mem Ok size`: in the states `Ok` the device is one AND-accumulating memory `mem`, and the
two erases a CPU asks for (the ROM area, the calculation area) are carried out. Such a device boots
(`FlatDevice.boot`) and computes on all eight bit columns (`FlatDevice.calc`). `Flash` is one
(`flash_flat`). A CPU writes whole pages only, so a `PagedDevice`, which takes no other write, is enough.
-/

set_option autoImplicit false

namespace NandServer

open NandInterface

namespace CPU

variable {D : Type} [NandInterface D]

structure FlatDevice (mem : D → AndMemory.Mem 8) (Ok : D → Prop) (size : Nat) : Prop where
  size_eq : ∀ d, Ok d → NandInterface.size d = size
  read_ok : ∀ d off {n : Nat} (buf : Vector Byte n), off + n ≤ size → Ok d →
    Ok (NandInterface.read d off buf).2.2
  read : ∀ d off {n : Nat} (buf : Vector Byte n), off + n ≤ size → Ok d →
    (NandInterface.read d off buf).2.1 = AndMemory.readOut (mem d) off n
  read_mem : ∀ d off {n : Nat} (buf : Vector Byte n), off + n ≤ size → Ok d →
    mem (NandInterface.read d off buf).2.2 = mem d
  write_ok : ∀ d off {n : Nat} (buf : Vector Byte n), off + n ≤ size → Ok d →
    Ok (NandInterface.write d off buf).2
  write : ∀ d off {n : Nat} (buf : Vector Byte n), off + n ≤ size → Ok d →
    mem (NandInterface.write d off buf).2 = AndMemory.program (mem d) off buf
  erase_rom : ∀ d, Ok d → (NandInterface.erase d 0 ROM_SIZE).1 = true ∧
    Ok (NandInterface.erase d 0 ROM_SIZE).2 ∧
    mem (NandInterface.erase d 0 ROM_SIZE).2 = AndMemory.erase (mem d) 0 ROM_SIZE
  erase_calc : ∀ d, Ok d → Ok (NandInterface.erase d RAM (size - RAM)).2 ∧
    mem (NandInterface.erase d RAM (size - RAM)).2 = AndMemory.erase (mem d) RAM (size - RAM)

theorem flash_flat (size : Nat) : FlatDevice Flash.mem (fun d => d.size = size) size where
  size_eq _ h := h
  read_ok _ _ _ _ _ h := h
  read _ _ _ _ _ _ := rfl
  read_mem _ _ _ _ _ _ := rfl
  write_ok _ _ _ _ _ h := h
  write _ _ _ _ _ _ := rfl
  erase_rom _ h := ⟨rfl, h, rfl⟩
  erase_calc _ h := ⟨h, rfl⟩

/-- A `FlatDevice` whose writes are whole pages. -/
structure PagedDevice (mem : D → AndMemory.Mem 8) (Ok : D → Prop) (size : Nat) : Prop where
  size_eq : ∀ d, Ok d → NandInterface.size d = size
  read_ok : ∀ d off {n : Nat} (buf : Vector Byte n), off + n ≤ size → Ok d →
    Ok (NandInterface.read d off buf).2.2
  read : ∀ d off {n : Nat} (buf : Vector Byte n), off + n ≤ size → Ok d →
    (NandInterface.read d off buf).2.1 = AndMemory.readOut (mem d) off n
  read_mem : ∀ d off {n : Nat} (buf : Vector Byte n), off + n ≤ size → Ok d →
    mem (NandInterface.read d off buf).2.2 = mem d
  write_ok : ∀ d off {n : Nat} (buf : Vector Byte n), PAGE_SIZ ∣ off → PAGE_SIZ ∣ n → off + n ≤ size →
    Ok d → Ok (NandInterface.write d off buf).2
  write : ∀ d off {n : Nat} (buf : Vector Byte n), PAGE_SIZ ∣ off → PAGE_SIZ ∣ n → off + n ≤ size →
    Ok d → mem (NandInterface.write d off buf).2 = AndMemory.program (mem d) off buf
  erase_rom : ∀ d, Ok d → (NandInterface.erase d 0 ROM_SIZE).1 = true ∧
    Ok (NandInterface.erase d 0 ROM_SIZE).2 ∧
    mem (NandInterface.erase d 0 ROM_SIZE).2 = AndMemory.erase (mem d) 0 ROM_SIZE
  erase_calc : ∀ d, Ok d → Ok (NandInterface.erase d RAM (size - RAM)).2 ∧
    mem (NandInterface.erase d RAM (size - RAM)).2 = AndMemory.erase (mem d) RAM (size - RAM)

section
variable {mem : D → AndMemory.Mem 8} {Ok : D → Prop} {rom : List RomT} {size : Nat}

/-- One statement for each kind of call. -/
theorem PagedDevice.of_calls (hsize : ∀ d, Ok d → NandInterface.size d = size)
    (hread : ∀ d off {n : Nat} (buf : Vector Byte n), off + n ≤ size → Ok d →
      Ok (NandInterface.read d off buf).2.2 ∧
        (NandInterface.read d off buf).2.1 = AndMemory.readOut (mem d) off n ∧
        mem (NandInterface.read d off buf).2.2 = mem d)
    (hwrite : ∀ d off {n : Nat} (buf : Vector Byte n), PAGE_SIZ ∣ off → PAGE_SIZ ∣ n → off + n ≤ size →
      Ok d → Ok (NandInterface.write d off buf).2 ∧
        mem (NandInterface.write d off buf).2 = AndMemory.program (mem d) off buf)
    (hrom : ∀ d, Ok d → (NandInterface.erase d 0 ROM_SIZE).1 = true ∧
      Ok (NandInterface.erase d 0 ROM_SIZE).2 ∧
      mem (NandInterface.erase d 0 ROM_SIZE).2 = AndMemory.erase (mem d) 0 ROM_SIZE)
    (hcalc : ∀ d, Ok d → Ok (NandInterface.erase d RAM (size - RAM)).2 ∧
      mem (NandInterface.erase d RAM (size - RAM)).2 = AndMemory.erase (mem d) RAM (size - RAM)) :
    PagedDevice mem Ok size where
  size_eq := hsize
  read_ok d off _ buf hin ho := (hread d off buf hin ho).1
  read d off _ buf hin ho := (hread d off buf hin ho).2.1
  read_mem d off _ buf hin ho := (hread d off buf hin ho).2.2
  write_ok d off _ buf hoff hn hin ho := (hwrite d off buf hoff hn hin ho).1
  write d off _ buf hoff hn hin ho := (hwrite d off buf hoff hn hin ho).2
  erase_rom := hrom
  erase_calc := hcalc

theorem FlatDevice.paged (h : FlatDevice mem Ok size) : PagedDevice mem Ok size where
  size_eq := h.size_eq
  read_ok := h.read_ok
  read := h.read
  read_mem := h.read_mem
  write_ok d off _ buf _ _ hin ho := h.write_ok d off buf hin ho
  write d off _ buf _ _ hin ho := h.write d off buf hin ho
  erase_rom := h.erase_rom
  erase_calc := h.erase_calc

omit [NandInterface D] in
/-- Changes outside the ROM area keep it. -/
theorem HoldsRom.of_eq {d d' : D} (hr : HoldsRom mem rom d) (he : ∀ a < ROM_SIZE, mem d' a = mem d a) :
    HoldsRom mem rom d' := fun a ha => (he a ha).trans (hr a ha)

theorem romPage_le {p : Nat} (hp : p < ROM_SIZE) (hal : p % PAGE_SIZ = 0) : p + PAGE_SIZ ≤ ROM_SIZE := by
  have hp : p < 655360 := hp
  have hal : p % 2048 = 0 := hal
  show p + 2048 ≤ 655360
  omega

/-- A page of the ROM area can be read. -/
theorem romPage_in (hs : SizeOk size) {p : Nat} (hp : p < ROM_SIZE) (hal : p % PAGE_SIZ = 0) :
    p + PAGE_SIZ ≤ size := (romPage_le hp hal).trans hs.ram.le

theorem majority_all : Majority (List.range 8) :=
  ⟨List.nodup_range, fun _ hj => List.mem_range.1 hj, by decide⟩

/-! ## Whole pages -/

namespace PagedDevice

variable (h : PagedDevice mem Ok size)
include h

theorem boot (hs : SizeOk size) : BootDevice mem Ok Ok size := by
  have hin : 0 + ROM_SIZE ≤ size := by
    rw [Nat.zero_add]
    exact hs.ram.le
  have hal : PAGE_SIZ ∣ ROM_SIZE := ⟨320, rfl⟩
  refine ⟨h.size_eq, fun d buf ho => ?_, fun d ho => ?_, fun d buf ho => ?_, fun d ho => ?_⟩
  · exact ⟨h.read_ok d 0 buf hin ho, h.read d 0 buf hin ho, fun a _ => by rw [h.read_mem d 0 buf hin ho]⟩
  · obtain ⟨hst, hok, hmem⟩ := h.erase_rom d ho
    refine ⟨hst, hok, fun a ha => ?_⟩
    rw [hmem, AndMemory.erase_in (Nat.zero_le a) (by omega)]
    rfl
  · refine ⟨h.write_ok d 0 buf (Nat.dvd_zero _) hal hin ho, fun a ha => ?_⟩
    rw [h.write d 0 buf (Nat.dvd_zero _) hal hin ho, AndMemory.program_zero ha]
  · obtain ⟨hok, hmem⟩ := h.erase_calc d ho
    refine ⟨hok, fun a ha => ?_⟩
    rw [hmem, AndMemory.erase_other (.inl ha)]

theorem erased {d : D} (ho : Ok d) {a : Nat} (ha : RAM ≤ a) (hlt : a < size) :
    mem (NandInterface.erase d RAM (size - RAM)).2 a = 0xff := by
  rw [(h.erase_calc d ho).2, AndMemory.erase_in ha (by omega)]
  rfl

/-- The write of a calculation page. -/
theorem write_page {P : Nat} (hP : CalcPage size P) {d : D} (ho : Ok d) (buf : Vector Byte PAGE_SIZ) :
    Ok (NandInterface.write d P buf).2 ∧
      mem (NandInterface.write d P buf).2 = AndMemory.program (mem d) P buf := by
  have hdvd := Nat.dvd_of_mod_eq_zero hP.aligned
  exact ⟨h.write_ok d P buf hdvd (Nat.dvd_refl _) hP.size ho,
    h.write d P buf hdvd (Nat.dvd_refl _) hP.size ho⟩

theorem pageOk {P : Nat} (hP : CalcPage size P) : PageOk (WithRom mem Ok rom) P where
  write d buf ho := by
    have hram : ROM_SIZE ≤ P := hP.ram
    obtain ⟨hok, hmem⟩ := h.write_page hP ho.1 buf
    refine ⟨hok, ho.2.of_eq fun a ha => ?_⟩
    rw [hmem, AndMemory.program_other (by omega)]
  read d buf ho := by
    refine ⟨h.read_ok d P buf hP.size ho.1, ho.2.of_eq fun a _ => ?_⟩
    rw [h.read_mem d P buf hP.size ho.1]

theorem pageColumn {P : Nat} (hP : CalcPage size P) (j : Nat) :
    PageColumn mem (WithRom mem Ok rom) P j where
  write d buf ho i hi := by
    rw [(h.write_page hP ho.1 buf).2]
    exact AndMemory.getLsbD_program hi j
  read d buf ho i hi := by
    rw [congrArg (fun v : Vector Byte PAGE_SIZ => v[i]) (h.read d P buf hP.size ho.1),
      AndMemory.getElem_readOut hi]
  read_mem d buf ho i _ := by rw [h.read_mem d P buf hP.size ho.1]

theorem romDevice (hs : SizeOk size) : RomDevice (WithRom mem Ok rom) rom where
  ok d buf p hp hal ho := by
    have hin := romPage_in hs hp hal
    refine ⟨h.read_ok d p buf hin ho.1, ho.2.of_eq fun a _ => ?_⟩
    rw [h.read_mem d p buf hin ho.1]
  rom d buf p hp hal ho i hi := by
    have hin := romPage_in hs hp hal
    have hle := romPage_le hp hal
    rw [congrArg (fun v : Vector Byte PAGE_SIZ => v[i]) (h.read d p buf hin ho.1),
      AndMemory.getElem_readOut hi]
    exact ho.2 (p + i) (by omega)

end PagedDevice

/-- **A fault-free device computes on all columns.** -/
theorem PagedDevice.calc (h : PagedDevice mem Ok size) (hs : SizeOk size) :
    CalcDevice mem (WithRom mem Ok rom) rom size (List.range 8) where
  majority := majority_all
  page P hP := ⟨h.pageOk hP, fun j _ => h.pageColumn hP j, h.romDevice hs, fun d buf p hp hal ho j _ i _ => by
    rw [h.read_mem d p buf (romPage_in hs hp hal) ho.1]⟩
  write_other d buf P hP ho a ha := by
    rw [(h.write_page hP ho.1 buf).2, AndMemory.program_other (.inr ha)]
  read_other d buf P hP ho a _ := by rw [h.read_mem d P buf hP.size ho.1]
  fetch_other d buf p hp hal ho a _ := by rw [h.read_mem d p buf (romPage_in hs hp hal) ho.1]
  erase_ok d ho := by
    obtain ⟨hok, hmem⟩ := h.erase_calc d ho.1
    refine ⟨hok, ho.2.of_eq fun a ha => ?_⟩
    rw [hmem, AndMemory.erase_other (.inl ha)]
  erase d ho a ha hlt := h.erased ho.1 ha hlt

/-! ## Any writes -/

theorem FlatDevice.boot (h : FlatDevice mem Ok size) (hs : SizeOk size) : BootDevice mem Ok Ok size :=
  h.paged.boot hs

theorem FlatDevice.erased (h : FlatDevice mem Ok size) {d : D} (ho : Ok d) {a : Nat} (ha : RAM ≤ a)
    (hlt : a < size) : mem (NandInterface.erase d RAM (size - RAM)).2 a = 0xff := h.paged.erased ho ha hlt

theorem FlatDevice.pageOk (h : FlatDevice mem Ok size) {P : Nat} (hP : CalcPage size P) :
    PageOk (WithRom mem Ok rom) P := h.paged.pageOk hP

theorem FlatDevice.romDevice (h : FlatDevice mem Ok size) (hs : SizeOk size) :
    RomDevice (WithRom mem Ok rom) rom := h.paged.romDevice hs

theorem FlatDevice.calc (h : FlatDevice mem Ok size) (hs : SizeOk size) :
    CalcDevice mem (WithRom mem Ok rom) rom size (List.range 8) := h.paged.calc hs

end

end CPU

end NandServer
