import HsqOverNand.Server.Nand
import HsqOverNand.Spi.Driver

/-!
# Bundled SPI chips (`include/W25NSpiFlashDevice.hpp`)

Logical page `p` is page `p / N` of chip `p % N`. `write` starts programs and waits for a chip only
before its next load and at the end; `erase` works on groups of one block of every chip.

* A buffer pointer is the buffer with a position.
* `for(off = ..; off < offset + length; off += groupSize)` runs at most `length` times where it
  terminates; `eraseGroups` returns `false` past that.
-/

set_option autoImplicit false

namespace NandServer

structure W25NSpiFlashDevice (N : Nat) where
  chips : Vector Chip N

namespace W25NSpiFlashDevice

variable {N : Nat}

def setChip (d : W25NSpiFlashDevice N) (i : Fin N) (c : Chip) : W25NSpiFlashDevice N :=
  ⟨d.chips.put i c⟩

/-- `n` bytes of a buffer replaced by the bytes received. -/
def receive {n : Nat} (buffer : Vector Byte n) (pos : Nat) (data : List Byte) : Vector Byte n :=
  .ofFn fun i => if pos ≤ i then data.getD (i - pos) (buffer.get i) else buffer.get i

/-- `n` bytes of a buffer to send. -/
def transmit {n : Nat} (buffer : Vector Byte n) (pos cnt : Nat) : List Byte :=
  (buffer.toList.drop pos).take cnt

section
variable [NeZero N]

def chipIndexOf (page : Nat) : Fin N := ⟨page % N, Nat.mod_lt _ (NeZero.pos N)⟩

def physPageOf (N page : Nat) : Nat := page / N

/-- `page_read` and `read_buf` of `cnt` bytes of a page; `none` is a failure. -/
def readChunk (d : W25NSpiFlashDevice N) (offset cnt : Nat) :
    Option (List Byte) × W25NSpiFlashDevice N :=
  let page := offset / W25N_SPI_PAGE_SIZE
  let idx : Fin N := chipIndexOf page
  let r := W25nSpi.pageRead (d.chips.get idx) (physPageOf N page)
  (if r.1 then W25nSpi.readBuf r.2 (offset % W25N_SPI_PAGE_SIZE) cnt else none, d.setChip idx r.2)

/-- The loop of `read`, `length` bytes before its end. -/
def readLoop {n : Nat} (d : W25NSpiFlashDevice N) (offset : Nat) (buffer : Vector Byte n)
    (pos length : Nat) : Bool × Vector Byte n × W25NSpiFlashDevice N :=
  if 0 < length then
    let cnt := min (W25N_SPI_PAGE_SIZE - offset % W25N_SPI_PAGE_SIZE) length
    let r := readChunk d offset cnt
    match r.1 with
    | none => (false, buffer, r.2)
    | some data => readLoop r.2 (u32 (offset + cnt)) (receive buffer pos data) (pos + cnt) (length - cnt)
  else (true, buffer, d)
termination_by length
decreasing_by
  have : offset % 2048 < 2048 := Nat.mod_lt _ (by decide)
  show length - min (2048 - offset % 2048) length < length
  omega

/-- `pendingPage`: the page issued to each chip and not waited for. -/
abbrev Pending (N : Nat) := Vector (Option Nat) N

/-- `waitChip` -/
def waitChip (d : W25NSpiFlashDevice N) (pending : Pending N) (idx : Fin N) :
    Bool × Pending N × W25NSpiFlashDevice N :=
  match pending.get idx with
  | none => (true, pending, d)
  | some _ =>
    let r := W25nSpi.programWait (d.chips.get idx)
    (r.1, pending.put idx none, d.setChip idx r.2)

/-- `program_load` and `program_issue` on a chip. -/
def loadIssue (d : W25NSpiFlashDevice N) (idx : Fin N) (phys col : Nat) (data : List Byte) :
    Bool × W25NSpiFlashDevice N :=
  let l := W25nSpi.programLoad (d.chips.get idx) col data
  if l.1 then
    let r := W25nSpi.programIssue l.2 phys
    (r.1, d.setChip idx r.2)
  else (false, d.setChip idx l.2)

/-- The loop of `write`; it stops at the first failure. -/
def writeLoop {n : Nat} (d : W25NSpiFlashDevice N) (pending : Pending N) (offset : Nat)
    (buffer : Vector Byte n) (pos length : Nat) : Bool × Pending N × W25NSpiFlashDevice N :=
  if 0 < length then
    let page := offset / W25N_SPI_PAGE_SIZE
    let col := offset % W25N_SPI_PAGE_SIZE
    let chunk := min (W25N_SPI_PAGE_SIZE - col) length
    let idx : Fin N := chipIndexOf page
    let phys := physPageOf N page
    let w := waitChip d pending idx
    if w.1 then
      let r := loadIssue w.2.2 idx phys col (transmit buffer pos chunk)
      if r.1 then
        writeLoop r.2 (w.2.1.put idx (some phys)) (u32 (offset + chunk)) buffer (pos + chunk)
          (length - chunk)
      else (false, w.2.1, r.2)
    else (false, w.2.1, w.2.2)
  else (true, pending, d)
termination_by length
decreasing_by
  have : offset % 2048 < 2048 := Nat.mod_lt _ (by decide)
  show length - min (2048 - offset % 2048) length < length
  omega

/-- `ok = waitChip(i) && ok` for the chips of a list. -/
def waitAll (d : W25NSpiFlashDevice N) (pending : Pending N) (ok : Bool) :
    List (Fin N) → Bool × W25NSpiFlashDevice N
  | [] => (ok, d)
  | i :: is =>
    let w := waitChip d pending i
    waitAll w.2.2 w.2.1 (w.1 && ok) is

/-- `block_erase` on the chips of a list, until a failure. -/
def eraseChips (d : W25NSpiFlashDevice N) (page : Nat) : List (Fin N) → Bool × W25NSpiFlashDevice N
  | [] => (true, d)
  | i :: is =>
    let r := W25nSpi.blockErase (d.chips.get i) page
    if r.1 then eraseChips (d.setChip i r.2) page is else (false, d.setChip i r.2)

def groupSize (N : Nat) : Nat := u32 (W25N_SPI_BLOCK_SIZE * N)

/-- The loop of `erase` from `off` to `stop`, at most `fuel` groups. -/
def eraseGroups (d : W25NSpiFlashDevice N) (stop : Nat) : (fuel off : Nat) → Bool × W25NSpiFlashDevice N
  | 0, off => (decide (stop ≤ off), d)
  | fuel + 1, off =>
    if off < stop then
      let r := eraseChips d (physPageOf N (off / W25N_SPI_PAGE_SIZE)) (List.finRange N)
      if r.1 then eraseGroups r.2 stop fuel (u32 (off + groupSize N)) else (false, r.2)
    else (true, d)

def erase (d : W25NSpiFlashDevice N) (offset length : Nat) : Bool × W25NSpiFlashDevice N :=
  if offset % groupSize N ≠ 0 ∨ length % groupSize N ≠ 0 then (false, d)
  else eraseGroups d (u32 (offset + length)) length offset

def write {n : Nat} (d : W25NSpiFlashDevice N) (offset : Nat) (buffer : Vector Byte n) :
    Bool × W25NSpiFlashDevice N :=
  let r := writeLoop d (.replicate N none) offset buffer 0 n
  waitAll r.2.2 r.2.1 r.1 (List.finRange N)

instance : NandInterface (W25NSpiFlashDevice N) where
  erase := erase
  read {n} d offset buffer := readLoop d offset buffer 0 n
  write := write
  size _ := u32 (W25N_SPI_TOTAL_SIZE * N)

/-- What the bundle holds, as one memory. -/
def flat (d : W25NSpiFlashDevice N) : AndMemory.Mem 8 := fun a =>
  if a < W25N_SPI_TOTAL_SIZE * N then
    (d.chips.get (chipIndexOf (a / W25N_SPI_PAGE_SIZE))).pages (physPageOf N (a / W25N_SPI_PAGE_SIZE))
      (a % W25N_SPI_PAGE_SIZE)
  else 0xff

end

/-- No chip is busy. -/
def Idle (d : W25NSpiFlashDevice N) : Prop := ∀ i : Fin N, (d.chips.get i).busy = false

end W25NSpiFlashDevice

end NandServer
