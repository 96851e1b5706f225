import HsqOverNand.Server.Proof.Flat

/-!
# A device of the MTD driver (`include/MTDFlashDevice.hpp`)

`MtdFile` are the system calls on an open MTD character device, `MTDFlashDevice` the calls the server
makes. The kernel's side is stated by `MtdFile.FaultFree`: writes are whole pages, erases whole erase
blocks, and the contents AND (`mtd_flat`).

* `errno` and the texts of the errors are left out.
-/

set_option autoImplicit false

namespace NandServer

/-- `mtd_info_user`: what the device reads of it. -/
structure MtdInfo where
  size : Nat
  erasesize : Nat

/-- System calls on a file descriptor. -/
class MtdFile (F : Type) where
  /-- `lseek(fd, offset, SEEK_SET)` -/
  lseek : F → (offset : Nat) → Int × F
  /-- `read`: a negative number, or the bytes read. -/
  read : F → (length : Nat) → Int × List Byte × F
  /-- `write`: a negative number, or how many bytes were written. -/
  write : F → List Byte → Int × F
  /-- `ioctl(fd, MEMERASE, ..)` -/
  memErase : F → (start length : Nat) → Int × F

structure MTDFlashDevice (F : Type) where
  /-- `none` is `fd < 0`. -/
  fd : Option F
  mtdInfo : MtdInfo

/-- A device file of the MTD driver. -/
structure MtdNode (F : Type) where
  /-- `::open(path, O_RDWR)` -/
  file : Option F
  /-- `ioctl(fd, MEMGETINFO, ..)` -/
  info : Option MtdInfo

/-- `MTDFlashDevice::open`; `none` is `false`. -/
def MtdNode.openDevice {F : Type} (node : MtdNode F) : Option (MTDFlashDevice F) :=
  match node.file, node.info with
  | some f, some info => some ⟨some f, info⟩
  | _, _ => none

namespace MTDFlashDevice

variable {F : Type} [MtdFile F]

def read {n : Nat} (d : MTDFlashDevice F) (offset : Nat) (buffer : Vector Byte n) :
    Bool × Vector Byte n × MTDFlashDevice F :=
  match d.fd with
  | none => (false, buffer, d)
  | some f =>
    let s := MtdFile.lseek f offset
    if s.1 ≠ offset then (false, buffer, { d with fd := some s.2 })
    else
      let r := MtdFile.read s.2 n
      let filled : Vector Byte n := .ofFn fun i => r.2.1.getD i (buffer.get i)
      (decide (r.1 = n), filled, { d with fd := some r.2.2 })

def write {n : Nat} (d : MTDFlashDevice F) (offset : Nat) (buffer : Vector Byte n) :
    Bool × MTDFlashDevice F :=
  match d.fd with
  | none => (false, d)
  | some f =>
    let s := MtdFile.lseek f offset
    if s.1 ≠ offset then (false, { d with fd := some s.2 })
    else
      let w := MtdFile.write s.2 buffer.toList
      (decide (w.1 = n), { d with fd := some w.2 })

def erase (d : MTDFlashDevice F) (offset length : Nat) : Bool × MTDFlashDevice F :=
  match d.fd with
  | none => (false, d)
  | some f =>
    if offset % d.mtdInfo.erasesize ≠ 0 then (false, d)
    else if length % d.mtdInfo.erasesize ≠ 0 then (false, d)
    else
      let r := MtdFile.memErase f offset length
      (decide (0 ≤ r.1), { d with fd := some r.2 })

/-- With `size` as `nandInterface` has it. -/
instance : NandInterface (MTDFlashDevice F) where
  erase := erase
  read := read
  write := write
  size d := d.mtdInfo.size

end MTDFlashDevice

/-! ## A fault-free MTD -/

/-- What the driver promises of an MTD with this geometry: `mem` is its contents, `pos` the file
position. -/
structure MtdFile.FaultFree {F : Type} [MtdFile F] (mem : F → AndMemory.Mem 8) (pos : F → Nat)
    (size writesize erasesize : Nat) : Prop where
  lseek : ∀ f offset, offset ≤ size → (lseek f offset).1 = offset ∧
    pos (MtdFile.lseek f offset).2 = offset ∧ mem (MtdFile.lseek f offset).2 = mem f
  read : ∀ f n, pos f + n ≤ size → (read f n).1 = n ∧
    (MtdFile.read f n).2.1 = (AndMemory.readOut (mem f) (pos f) n).toList ∧
    mem (MtdFile.read f n).2.2 = mem f
  write : ∀ f {n : Nat} (data : Vector Byte n), writesize ∣ pos f → writesize ∣ n → pos f + n ≤ size →
    (write f data.toList).1 = n ∧
    mem (MtdFile.write f data.toList).2 = AndMemory.program (mem f) (pos f) data
  memErase : ∀ f start length, erasesize ∣ start → erasesize ∣ length → start + length ≤ size →
    0 ≤ (memErase f start length).1 ∧
    mem (MtdFile.memErase f start length).2 = AndMemory.erase (mem f) start length

namespace MTDFlashDevice

variable {F : Type}

/-- The contents of an open device. -/
def flat (mem : F → AndMemory.Mem 8) (d : MTDFlashDevice F) : AndMemory.Mem 8 :=
  match d.fd with
  | some f => mem f
  | none => fun _ => 0xff

structure Ok (size erasesize : Nat) (d : MTDFlashDevice F) : Prop where
  isOpen : d.fd.isSome = true
  size : d.mtdInfo.size = size
  erasesize : d.mtdInfo.erasesize = erasesize

theorem Ok.exists_fd {size erasesize : Nat} {d : MTDFlashDevice F} (h : d.Ok size erasesize) :
    ∃ f, d = ⟨some f, ⟨size, erasesize⟩⟩ := by
  obtain ⟨fd, info⟩ := d
  obtain ⟨f, rfl⟩ := Option.isSome_iff_exists.1 h.isOpen
  obtain ⟨s, e⟩ := info
  have hsize : s = size := h.size
  have herase : e = erasesize := h.erasesize
  exact ⟨f, by rw [hsize, herase]⟩

theorem Ok.some (size erasesize : Nat) (f : F) :
    (⟨some f, ⟨size, erasesize⟩⟩ : MTDFlashDevice F).Ok size erasesize := ⟨rfl, rfl, rfl⟩

section
variable [MtdFile F] {mem : F → AndMemory.Mem 8} {pos : F → Nat} {size writesize erasesize : Nat}
  (h : MtdFile.FaultFree mem pos size writesize erasesize)
include h

theorem read_eq (f : F) {offset n : Nat} (buffer : Vector Byte n) (hin : offset + n ≤ size) :
    ∃ f', read ⟨some f, ⟨size, erasesize⟩⟩ offset buffer =
      (true, AndMemory.readOut (mem f) offset n, ⟨some f', ⟨size, erasesize⟩⟩) ∧ mem f' = mem f := by
  obtain ⟨hseek, hpos, hmem⟩ := h.lseek f offset (by omega)
  obtain ⟨hcount, hdata, hkept⟩ := h.read (MtdFile.lseek f offset).2 n (by rw [hpos]; exact hin)
  rw [hpos, hmem] at hdata
  refine ⟨(MtdFile.read (MtdFile.lseek f offset).2 n).2.2, ?_, hkept.trans hmem⟩
  unfold read
  simp only [hseek, ne_eq, not_true_eq_false, if_false, hcount, decide_true, hdata]
  refine Prod.ext rfl (Prod.ext (Vector.ext fun i hi => ?_) rfl)
  rw [Vector.getElem_ofFn, List.getD_eq_getElem?_getD, List.getElem?_eq_getElem (by simpa using hi)]
  rfl

theorem write_eq (f : F) {offset n : Nat} (buffer : Vector Byte n) (hoff : writesize ∣ offset)
    (hn : writesize ∣ n) (hin : offset + n ≤ size) :
    ∃ f', write ⟨some f, ⟨size, erasesize⟩⟩ offset buffer = (true, ⟨some f', ⟨size, erasesize⟩⟩) ∧
      mem f' = AndMemory.program (mem f) offset buffer := by
  obtain ⟨hseek, hpos, hmem⟩ := h.lseek f offset (by omega)
  obtain ⟨hcount, hdata⟩ := h.write (MtdFile.lseek f offset).2 buffer (by rwa [hpos]) hn
    (by rw [hpos]; exact hin)
  rw [hpos, hmem] at hdata
  refine ⟨(MtdFile.write (MtdFile.lseek f offset).2 buffer.toList).2, ?_, hdata⟩
  unfold write
  simp only [hseek, ne_eq, not_true_eq_false, if_false, hcount, decide_true]

theorem erase_eq (f : F) {offset length : Nat} (hoff : erasesize ∣ offset) (hlen : erasesize ∣ length)
    (hin : offset + length ≤ size) :
    ∃ f', erase ⟨some f, ⟨size, erasesize⟩⟩ offset length = (true, ⟨some f', ⟨size, erasesize⟩⟩) ∧
      mem f' = AndMemory.erase (mem f) offset length := by
  obtain ⟨hok, hmem⟩ := h.memErase f offset length hoff hlen hin
  refine ⟨(MtdFile.memErase f offset length).2, ?_, hmem⟩
  unfold erase
  simp only [Nat.mod_eq_zero_of_dvd hoff, Nat.mod_eq_zero_of_dvd hlen, ne_eq, not_true_eq_false, if_false,
    hok, decide_true]

/-- **An MTD is a device for a CPU**: pages are whole pages of the MTD, and blocks of 128 KiB whole
erase blocks. -/
theorem paged (hs : SizeOk size) (hpage : writesize ∣ PAGE_SIZ) (hblock : erasesize ∣ 131072) :
    CPU.PagedDevice (flat mem) (Ok size erasesize) size := by
  have hram : RAM ≤ size := hs.ram.le
  have hrom : erasesize ∣ ROM_SIZE := hblock.trans ⟨5, rfl⟩
  have hcalc : erasesize ∣ size - RAM := hblock.trans (Nat.dvd_sub hs.blocks ⟨5, rfl⟩)
  have herase : ∀ {offset length : Nat}, erasesize ∣ offset → erasesize ∣ length →
      offset + length ≤ size → ∀ d : MTDFlashDevice F, d.Ok size erasesize →
      (NandInterface.erase d offset length).1 = true ∧
        (NandInterface.erase d offset length).2.Ok size erasesize ∧
        flat mem (NandInterface.erase d offset length).2 = AndMemory.erase (flat mem d) offset length := by
    intro offset length hoff hlen hin d ho
    obtain ⟨f, rfl⟩ := ho.exists_fd
    obtain ⟨f', heq, hmem⟩ := erase_eq h f hoff hlen hin
    have heq : NandInterface.erase (⟨some f, ⟨size, erasesize⟩⟩ : MTDFlashDevice F) offset length =
      (true, ⟨some f', ⟨size, erasesize⟩⟩) := heq
    rw [heq]
    exact ⟨rfl, Ok.some size erasesize f', hmem⟩
  have hread : ∀ (d : MTDFlashDevice F) (off : Nat) {n : Nat} (buf : Vector Byte n), off + n ≤ size →
      d.Ok size erasesize → (NandInterface.read d off buf).2.2.Ok size erasesize ∧
        (NandInterface.read d off buf).2.1 = AndMemory.readOut (flat mem d) off n ∧
        flat mem (NandInterface.read d off buf).2.2 = flat mem d := by
    intro d off n buf hin ho
    obtain ⟨f, rfl⟩ := ho.exists_fd
    obtain ⟨f', heq, hmem⟩ := read_eq h f buf hin
    have heq : NandInterface.read (⟨some f, ⟨size, erasesize⟩⟩ : MTDFlashDevice F) off buf =
      (true, AndMemory.readOut (mem f) off n, ⟨some f', ⟨size, erasesize⟩⟩) := heq
    rw [heq]
    exact ⟨Ok.some size erasesize f', rfl, hmem⟩
  have hwrite : ∀ (d : MTDFlashDevice F) (off : Nat) {n : Nat} (buf : Vector Byte n), PAGE_SIZ ∣ off →
      PAGE_SIZ ∣ n → off + n ≤ size → d.Ok size erasesize →
      (NandInterface.write d off buf).2.Ok size erasesize ∧
        flat mem (NandInterface.write d off buf).2 = AndMemory.program (flat mem d) off buf := by
    intro d off n buf hoff hn hin ho
    obtain ⟨f, rfl⟩ := ho.exists_fd
    obtain ⟨f', heq, hmem⟩ := write_eq h f buf (hpage.trans hoff) (hpage.trans hn) hin
    have heq : NandInterface.write (⟨some f, ⟨size, erasesize⟩⟩ : MTDFlashDevice F) off buf =
      (true, ⟨some f', ⟨size, erasesize⟩⟩) := heq
    rw [heq]
    exact ⟨Ok.some size erasesize f', hmem⟩
  exact .of_calls (fun d ho => ho.size) hread hwrite
    (herase (Nat.dvd_zero _) hrom (by rw [Nat.zero_add]; exact hram))
    fun d ho => (herase (hblock.trans ⟨5, rfl⟩) hcalc (Nat.add_sub_cancel' hram).le d ho).2

end

end MTDFlashDevice

/-! ## A simulated NAND -/

/-- An MTD of whole 2 KiB pages in 128 KiB blocks. -/
structure NandSim where
  mem : AndMemory.Mem 8
  pos : Nat

namespace NandSim

/-- A partition of 512 blocks. -/
def SIZE : Nat := 67108864

instance : MtdFile NandSim where
  lseek f offset := if offset ≤ SIZE then (offset, { f with pos := offset }) else (-22, f)
  read f length :=
    let n := min length (SIZE - f.pos)
    (n, (AndMemory.readOut f.mem f.pos n).toList, { f with pos := f.pos + n })
  write f data :=
    if f.pos % 2048 = 0 ∧ data.length % 2048 = 0 ∧ f.pos + data.length ≤ SIZE then
      (data.length, ⟨AndMemory.program f.mem f.pos (.ofFn fun i : Fin data.length => data.get i),
        f.pos + data.length⟩)
    else (-22, f)
  memErase f start length :=
    if start % 131072 = 0 ∧ length % 131072 = 0 ∧ start + length ≤ SIZE then
      (0, { f with mem := AndMemory.erase f.mem start length })
    else (-22, f)

theorem program_toList {n : Nat} (m : AndMemory.Mem 8) (off : Nat) (data : Vector Byte n) :
    AndMemory.program m off (.ofFn fun i : Fin data.toList.length => data.toList.get i) =
      AndMemory.program m off data := by
  funext a
  unfold AndMemory.program
  simp only [Vector.length_toList, Vector.getElem_ofFn, List.get_eq_getElem, Vector.getElem_toList]

theorem faultFree : MtdFile.FaultFree NandSim.mem NandSim.pos SIZE 2048 131072 where
  lseek f offset hle := by
    have hseek : MtdFile.lseek f offset = ((offset : Int), ({ f with pos := offset } : NandSim)) :=
      if_pos hle
    rw [hseek]
    exact ⟨rfl, rfl, rfl⟩
  read f n hin := by
    have hmin : min n (SIZE - f.pos) = n := by omega
    show ((min n (SIZE - f.pos) : Nat) : Int) = n ∧
      (AndMemory.readOut f.mem f.pos (min n (SIZE - f.pos))).toList = _ ∧ f.mem = f.mem
    rw [hmin]
    exact ⟨rfl, rfl, rfl⟩
  write f n data hpos hn hin := by
    have hlen : data.toList.length = n := Vector.length_toList
    have hcond : f.pos % 2048 = 0 ∧ data.toList.length % 2048 = 0 ∧ f.pos + data.toList.length ≤ SIZE := by
      rw [hlen]
      exact ⟨Nat.mod_eq_zero_of_dvd hpos, Nat.mod_eq_zero_of_dvd hn, hin⟩
    have hwrite : MtdFile.write f data.toList = ((data.toList.length : Int),
        (⟨AndMemory.program f.mem f.pos (.ofFn fun i : Fin data.toList.length => data.toList.get i),
          f.pos + data.toList.length⟩ : NandSim)) := if_pos hcond
    rw [hwrite]
    exact ⟨congrArg _ hlen, program_toList f.mem f.pos data⟩
  memErase f start length hs hl hin := by
    have herase : MtdFile.memErase f start length =
        (0, ({ f with mem := AndMemory.erase f.mem start length } : NandSim)) :=
      if_pos ⟨Nat.mod_eq_zero_of_dvd hs, Nat.mod_eq_zero_of_dvd hl, hin⟩
    rw [herase]
    exact ⟨Int.le_refl 0, rfl⟩

end NandSim

end NandServer
