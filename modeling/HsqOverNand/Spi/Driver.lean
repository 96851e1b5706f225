import HsqOverNand.Lib.AndMemory
import HsqOverNand.Server.Rom

/-!
# The SPI driver (`src/spi/w25n_spidev.c`)

`Chip` is a fault-free W25N02KV on the bus: it takes the commands the driver sends (`Chip.command`), is
busy after an erase, a program or a page read until its status has been polled, and ignores commands
meanwhile. The `W25nSpi` functions are the driver's; a negative return value is `false`.

* ECC and the protection registers are set up by `open` and not modelled, nor is the spare area.
* A poll of `w25n_spi_wait_busy` takes one poll interval.
-/

set_option autoImplicit false

namespace NandServer

abbrev W25N_SPI_PAGE_SIZE : Nat := 2048
abbrev W25N_SPI_BLOCK_PAGES : Nat := 64
abbrev W25N_SPI_BLOCK_SIZE : Nat := W25N_SPI_PAGE_SIZE * W25N_SPI_BLOCK_PAGES
abbrev W25N_SPI_NUM_BLOCKS : Nat := 2048
abbrev W25N_SPI_TOTAL_SIZE : Nat := W25N_SPI_BLOCK_SIZE * W25N_SPI_NUM_BLOCKS

structure Chip where
  /-- The cells of a page, by column. -/
  pages : Nat → AndMemory.Mem 8
  /-- The data buffer, by column. -/
  buffer : AndMemory.Mem 8
  /-- The write enable latch. -/
  wel : Bool
  busy : Bool

namespace Chip

/-- A page address of three bytes. -/
def pageOf (b2 b1 b0 : Byte) : Nat := b2.toNat * 65536 + b1.toNat * 256 + b0.toNat

/-- A column address of two bytes. -/
def colOf (b1 b0 : Byte) : Nat := b1.toNat * 256 + b0.toNat

/-- D8h: the block of the page is erased. -/
def blockErase (d : Chip) (page : Nat) : Chip :=
  if d.wel then
    { d with
      pages := fun p => if p / W25N_SPI_BLOCK_PAGES = page / W25N_SPI_BLOCK_PAGES then fun _ => 0xff
        else d.pages p
      wel := false
      busy := true }
  else d

/-- 02h: the buffer is reset, and takes the data at the column. -/
def dataLoad (d : Chip) (col : Nat) (data : List Byte) : Chip :=
  if d.wel then
    { d with buffer := fun i => if col ≤ i then data.getD (i - col) 0xff else 0xff }
  else d

/-- 10h: the buffer is programmed into the page. -/
def programExecute (d : Chip) (page : Nat) : Chip :=
  if d.wel then
    { d with
      pages := fun p => if p = page then fun i => d.pages p i &&& d.buffer i else d.pages p
      wel := false
      busy := true }
  else d

/-- 13h: the page is read into the buffer. -/
def pageDataRead (d : Chip) (page : Nat) : Chip := { d with buffer := d.pages page, busy := true }

/-- The effect of a transfer that starts with `op`. -/
def command (d : Chip) (op : Byte) (args : List Byte) : Chip :=
  if d.busy then d
  else if op = 0x06 then { d with wel := true }
  else if op = 0x02 then
    match args with
    | b1 :: b0 :: data => d.dataLoad (colOf b1 b0) data
    | _ => d
  else
    match args with
    | [b2, b1, b0] =>
      if op = 0xd8 then d.blockErase (pageOf b2 b1 b0)
      else if op = 0x10 then d.programExecute (pageOf b2 b1 b0)
      else if op = 0x13 then d.pageDataRead (pageOf b2 b1 b0)
      else d
    | _ => d

/-- 03h with a dummy byte: the bytes received. -/
def received (d : Chip) (op : Byte) (args : List Byte) (len : Nat) : Option (List Byte) :=
  match args with
  | [b1, b0, _] =>
    if op = 0x03 ∧ ¬ d.busy then some ((List.range len).map fun i => d.buffer (colOf b1 b0 + i))
    else none
  | _ => none

end Chip

namespace W25nSpi

/-- `w25n_spi_read_status` of status register 3; the next operation finds the chip ready. -/
def readStatus (d : Chip) : Byte × Chip := (if d.busy then 0x01 else 0x00, { d with busy := false })

/-- `uint8_t` casts of a page address. -/
def pageBytes (page : Nat) : List Byte :=
  [.ofNat 8 (page >>> 16), .ofNat 8 (page >>> 8), .ofNat 8 page]

def colBytes (col : Nat) : List Byte := [.ofNat 8 (col >>> 8), .ofNat 8 col]

def writeEnable (d : Chip) : Chip := d.command 0x06 []

/-- The polls of `w25n_spi_wait_busy`, at most `n`; returns the last SR-3. -/
def waitBusy : Nat → Chip → Bool × Byte × Chip
  | 0, d => (false, 0xff, d)
  | n + 1, d =>
    let r := readStatus d
    if r.1 &&& 0x01 = 0 then (true, r) else waitBusy n r.2

/-- Polls that fit in a timeout. -/
def polls (timeoutUs pollIntervalUs : Nat) : Nat := timeoutUs / pollIntervalUs

def blockErase (d : Chip) (page : Nat) : Bool × Chip :=
  let r := waitBusy (polls 500000 200) ((writeEnable d).command 0xd8 (pageBytes page))
  (r.1 && r.2.1 &&& 0x04 = 0, r.2.2)

def programLoad (d : Chip) (col : Nat) (data : List Byte) : Bool × Chip :=
  (true, (writeEnable d).command 0x02 (colBytes col ++ data))

def programIssue (d : Chip) (page : Nat) : Bool × Chip := (true, d.command 0x10 (pageBytes page))

def programWait (d : Chip) : Bool × Chip :=
  let r := waitBusy (polls 100000 50) d
  (r.1 && r.2.1 &&& 0x08 = 0, r.2.2)

def pageRead (d : Chip) (page : Nat) : Bool × Chip :=
  let r := waitBusy (polls 100000 20) (d.command 0x13 (pageBytes page))
  (r.1, r.2.2)

/-- `none` is a failure. -/
def readBuf (d : Chip) (col len : Nat) : Option (List Byte) :=
  d.received 0x03 (colBytes col ++ [0x00]) len

end W25nSpi

end NandServer
