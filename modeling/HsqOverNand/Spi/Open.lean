import HsqOverNand.Spi.Transfer
import HsqOverNand.Subleq.Sq

/-!
# Opening spidev chips (`src/spi/w25n_spidev.c`, `include/W25NSpiFlashDevice.hpp`)

`SpidevHost` are the system calls on spidev files. `open` takes the chips of a list of paths one by one:
the file and its parameters (`w25n_spi_open`), the JEDEC ID, the protection and the ECC; at the first
failure it closes what it has opened.

* `calloc` succeeds. The speed of a transfer is left out, and so are the texts of the errors.
-/

set_option autoImplicit false

namespace NandServer

/-- The parameters of a spidev file. -/
inductive SpiSetting
  | mode (value : Nat)
  | bitsPerWord (value : Nat)
  | maxSpeedHz (value : Nat)
  deriving DecidableEq

structure SpidevHost (σ : Type) where
  openFile : Text → σ → Option Nat × σ
  /-- `ioctl(fd, SPI_IOC_WR_.., ..)` -/
  set : Nat → SpiSetting → σ → Bool × σ
  /-- `ioctl(fd, SPI_IOC_MESSAGE(..), ..)` -/
  bus : Nat → SpiBus σ
  closeFile : Nat → σ → σ

/-- `struct w25n_spi_dev` -/
structure W25nSpiDev where
  fd : Nat
  speedHz : Nat

/-- `struct Chip` of the bundle. -/
structure ChipFile where
  dev : W25nSpiDev
  path : Text

namespace SpiBus

variable {σ : Type} (bus : SpiBus σ)

/-- `w25n_spi_jedec_id` into three zeros. -/
def jedecId (s : σ) : Vector Byte 3 × σ :=
  let r := bus.transfer [0x9f, 0x00] 3 s
  (r.1.getD (.replicate 3 0), r.2)

def jedecOk (s : σ) : Bool × σ :=
  let r := bus.jedecId s
  (decide (r.1.toList = [0xef, 0xaa, 0x22]), r.2)

/-- `w25n_spi_unprotect(d) < 0 || w25n_spi_set_ecc(d, 0) < 0` is false. -/
def unlock (s : σ) : Bool × σ :=
  let u := bus.unprotect s
  if u.1 then bus.setEcc false u.2 else u

end SpiBus

namespace SpidevHost

variable {σ : Type} (host : SpidevHost σ)

/-- The parameters one after the other, until one fails. -/
def setAll (fd : Nat) : List SpiSetting → σ → Bool × σ
  | [], s => (true, s)
  | x :: xs, s =>
    let r := host.set fd x s
    if r.1 then setAll fd xs r.2 else (false, r.2)

def w25nSpiOpen (path : Text) (speedHz : Nat) (s : σ) : Option W25nSpiDev × σ :=
  let r := host.openFile path s
  match r.1 with
  | none => (none, r.2)
  | some fd =>
    let t := host.setAll fd [.mode 0, .bitsPerWord 8, .maxSpeedHz speedHz] r.2
    if t.1 then (some ⟨fd, speedHz⟩, t.2) else (none, host.closeFile fd t.2)

def w25nSpiClose (d : W25nSpiDev) (s : σ) : σ := host.closeFile d.fd s

/-- `close()` -/
def closeChips (chips : List ChipFile) (s : σ) : σ := chips.foldl (fun s c => host.w25nSpiClose c.dev s) s

/-- The loop of `open`; `chips` are the chips so far. -/
def openLoop (speedHz : Nat) : List Text → List ChipFile → σ → Bool × List ChipFile × σ
  | [], chips, s => (!chips.isEmpty, chips, s)
  | path :: paths, chips, s =>
    let r := host.w25nSpiOpen path speedHz s
    match r.1 with
    | none => (false, [], host.closeChips chips r.2)
    | some d =>
      let j := (host.bus d.fd).jedecOk r.2
      if j.1 then
        let u := (host.bus d.fd).unlock j.2
        if u.1 then openLoop speedHz paths (chips ++ [⟨d, path⟩]) u.2
        else (false, [], host.closeChips chips (host.w25nSpiClose d u.2))
      else (false, [], host.closeChips chips (host.w25nSpiClose d j.2))

/-- `open` -/
def openPaths (paths : List Text) (speedHz : Nat) (s : σ) : Bool × List ChipFile × σ :=
  host.openLoop speedHz paths [] s

def probe (path : Text) (speedHz : Nat) (s : σ) : Bool × σ :=
  let r := host.w25nSpiOpen path speedHz s
  match r.1 with
  | none => (false, r.2)
  | some d =>
    let j := (host.bus d.fd).jedecOk r.2
    (j.1, host.w25nSpiClose d j.2)

end SpidevHost

end NandServer
