import HsqOverNand.Qspi.Swizzle
import HsqOverNand.Spi.Device

/-!
# A chip of the HAT as a device (`include/W25NFlashDevice.hpp`, `src/qspi/w25n_pio.c`)

The `W25nPio` functions are the driver's, as the chip sees their transfers: `load_data` sends the data
as words of the wide OUT (32h) or byte by byte (02h), `w25n_read_buf` takes four bytes a word or one
byte at a time. `W25NFlashDevice.write` waits for each program; `erase` works on blocks.

* The pins and the state machine during a call are in `Driver.lean`; here a call is not interrupted.
* A poll of `w25n_wait_busy` takes three microseconds.
* `for(off = ..; off < offset + length; off += W25N_BLOCK_SIZE)` runs at most `length` times where it
  terminates; `eraseBlocks` returns `false` past that.
-/

set_option autoImplicit false

namespace NandServer

abbrev W25N_PAGE_SIZE : Nat := 2048
abbrev W25N_BLOCK_PAGES : Nat := 64
abbrev W25N_BLOCK_SIZE : Nat := W25N_PAGE_SIZE * W25N_BLOCK_PAGES
abbrev W25N_NUM_BLOCKS : Nat := 2048
abbrev W25N_TOTAL_SIZE : Nat := W25N_BLOCK_SIZE * W25N_NUM_BLOCKS

namespace Pins

variable (p : Pins)

/-- The GPIO levels while the wide OUT drives a word. -/
def levels (w : Word) : Word := w <<< p.io3

/-- The bytes a chip takes from words on IO0..IO3, two words each. -/
def sampled : List Word → List Byte
  | w0 :: w1 :: ws => p.unpackByte (p.levels w0) (p.levels w1) :: sampled ws
  | _ => []

end Pins

/-- 32h: the buffer is reset, and takes the data on four lines at the column. -/
def Chip.quadLoad (d : Chip) (p : Pins) (args : List Byte) (words : List Word) : Chip :=
  match args with
  | [b1, b0] => if d.busy then d else d.dataLoad (Chip.colOf b1 b0) (p.sampled words)
  | _ => d

namespace W25nPio

/-- The polls of `w25n_wait_busy`; after `n` more the time is over. Returns the last SR-3. -/
def waitBusy : Nat → Chip → Bool × Byte × Chip
  | 0, d => (decide ((W25nSpi.readStatus d).1 &&& 0x01 = 0), W25nSpi.readStatus d)
  | n + 1, d =>
    if (W25nSpi.readStatus d).1 &&& 0x01 = 0 then (true, W25nSpi.readStatus d)
    else waitBusy n (W25nSpi.readStatus d).2

def polls (timeoutUs : Nat) : Nat := timeoutUs / 3

def writeEnable (d : Chip) : Chip := d.command 0x06 []

def blockErase (d : Chip) (page : Nat) : Bool × Chip :=
  let r := waitBusy (polls 500000) ((writeEnable d).command 0xd8 (W25nSpi.pageBytes page))
  (r.1 && r.2.1 &&& 0x04 = 0, r.2.2)

/-- `load_data`; `others` are the registered pins of the other devices. -/
def loadData (p : Pins) (others : List Pins) (noQuad : Bool) (d : Chip) (col : Nat)
    (data : List Byte) : Chip :=
  if noQuad = false ∧ 8 ≤ data.length ∧ data.length ≤ BULK_MAX then
    d.quadLoad p (W25nSpi.colBytes col) (p.qtxWords others data)
  else d.command 0x02 (W25nSpi.colBytes col ++ data)

def programBegin (p : Pins) (others : List Pins) (noQuad : Bool) (d : Chip) (col : Nat)
    (data : List Byte) : Bool × Chip := (true, loadData p others noQuad (writeEnable d) col data)

def programCommit (d : Chip) (page : Nat) : Bool × Chip :=
  let r := waitBusy (polls 100000) (d.command 0x10 (W25nSpi.pageBytes page))
  (r.1 && r.2.1 &&& 0x08 = 0, r.2.2)

def pageRead (d : Chip) (page : Nat) : Bool × Chip :=
  let r := waitBusy (polls 100000) (d.command 0x13 (W25nSpi.pageBytes page))
  (r.1, r.2.2)

/-- The words the `rx` program packs. -/
def rxWords : List Byte → List Word
  | b0 :: b1 :: b2 :: b3 :: bs => (b0 ++ b1 ++ b2 ++ b3 : BitVec (8 + 8 + 8 + 8)) :: rxWords bs
  | _ => []

/-- The last loop of `rx_bulk`. -/
def rxUnpack : List Word → List Byte
  | [] => []
  | w :: ws => (w >>> 24).setWidth 8 :: (w >>> 16).setWidth 8 :: (w >>> 8).setWidth 8 ::
      w.setWidth 8 :: rxUnpack ws

/-- `none` is a failure. -/
def readBuf (d : Chip) (col len : Nat) : Option (List Byte) :=
  let data := d.received 0x03 (W25nSpi.colBytes col ++ [0x00]) len
  if len % 4 ≠ 0 ∨ len < 8 ∨ BULK_MAX < len then data
  else data.map fun bs => rxUnpack (rxWords bs)

end W25nPio

/-- An open device, with what `load_data` depends on. -/
structure W25NFlashDevice where
  chip : Chip
  pins : Pins
  /-- The pins of the other registered devices. -/
  others : List Pins
  /-- `W25N_NOQUAD` -/
  noQuad : Bool

namespace W25NFlashDevice

def setChip (d : W25NFlashDevice) (c : Chip) : W25NFlashDevice := { d with chip := c }

open W25NSpiFlashDevice (receive transmit)

/-- The loop of `read`, `length` bytes before its end. -/
def readLoop {n : Nat} (d : W25NFlashDevice) (offset : Nat) (buffer : Vector Byte n)
    (pos length : Nat) : Bool × Vector Byte n × W25NFlashDevice :=
  if 0 < length then
    let cnt := min (W25N_PAGE_SIZE - offset % W25N_PAGE_SIZE) length
    let r := W25nPio.pageRead d.chip (offset / W25N_PAGE_SIZE)
    match if r.1 then W25nPio.readBuf r.2 (offset % W25N_PAGE_SIZE) cnt else none with
    | none => (false, buffer, d.setChip r.2)
    | some data =>
      readLoop (d.setChip r.2) (u32 (offset + cnt)) (receive buffer pos data) (pos + cnt) (length - cnt)
  else (true, buffer, d)
termination_by length
decreasing_by
  have : offset % 2048 < 2048 := Nat.mod_lt _ (by decide)
  show length - min (2048 - offset % 2048) length < length
  omega

/-- The loop of `write`, `length` bytes before its end. -/
def writeLoop {n : Nat} (d : W25NFlashDevice) (offset : Nat) (buffer : Vector Byte n)
    (pos length : Nat) : Bool × W25NFlashDevice :=
  if 0 < length then
    let col := offset % W25N_PAGE_SIZE
    let cnt := min (W25N_PAGE_SIZE - col) length
    let l := W25nPio.programBegin d.pins d.others d.noQuad d.chip col (transmit buffer pos cnt)
    if l.1 then
      let r := W25nPio.programCommit l.2 (offset / W25N_PAGE_SIZE)
      if r.1 then
        writeLoop (d.setChip r.2) (u32 (offset + cnt)) buffer (pos + cnt) (length - cnt)
      else (false, d.setChip r.2)
    else (false, d.setChip l.2)
  else (true, d)
termination_by length
decreasing_by
  have : offset % 2048 < 2048 := Nat.mod_lt _ (by decide)
  show length - min (2048 - offset % 2048) length < length
  omega

/-- The loop of `erase` from `off` to `stop`, at most `fuel` blocks. -/
def eraseBlocks (d : W25NFlashDevice) (stop : Nat) : (fuel off : Nat) → Bool × W25NFlashDevice
  | 0, off => (decide (stop ≤ off), d)
  | fuel + 1, off =>
    if off < stop then
      let r := W25nPio.blockErase d.chip (off / W25N_PAGE_SIZE)
      if r.1 then eraseBlocks (d.setChip r.2) stop fuel (u32 (off + W25N_BLOCK_SIZE))
      else (false, d.setChip r.2)
    else (true, d)

def erase (d : W25NFlashDevice) (offset length : Nat) : Bool × W25NFlashDevice :=
  if offset % W25N_BLOCK_SIZE ≠ 0 ∨ length % W25N_BLOCK_SIZE ≠ 0 then (false, d)
  else eraseBlocks d (u32 (offset + length)) length offset

instance : NandInterface W25NFlashDevice where
  erase := erase
  read {n} d offset buffer := readLoop d offset buffer 0 n
  write {n} d offset buffer := writeLoop d offset buffer 0 n
  size _ := W25N_TOTAL_SIZE

end W25NFlashDevice

end NandServer
