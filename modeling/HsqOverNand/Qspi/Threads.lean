import HsqOverNand.Lib.RwLock
import HsqOverNand.Qspi.Proof.Calls
import HsqOverNand.Qspi.Proof.Device

/-!
# The calls of a HAT device, pin by pin (`include/W25NFlashDevice.hpp`, `src/qspi/w25n_pio.c`)

The functions of `Device.lean` once more, as programs of what a thread does on the way: its CS line moves,
a byte goes each way, a word goes out on four lines, and `busMu` is taken, shared or unique. `Wire` is a
chip with what it has taken since its CS line fell.

* A word of the wide OUT, or of `restore_wp_hold`, may drive pins of other chips. What a selected chip makes
  of that is unknown (`glitch`); one that is not selected ignores its pins.
* The words that `rx` packs beyond the ones asked for only move the chip on in its buffer, and are left out,
  and so are the changes of pin directions and state machines, which are the chip's own.
-/

set_option autoImplicit false

namespace NandServer

open RwLock (Prog)

/-! ## A chip on its pins -/

/-- What a thread does on the bus. -/
inductive BusAct
  /-- `set_line` of its CS line -/
  | line (value : Bool)
  /-- `xfer_byte` -/
  | byte (b : Byte)
  /-- `rx` packs a word. -/
  | rxWord
  /-- `qtx` drives a word. -/
  | word (w : Word)
  /-- `pio_sm_set_pins_with_mask` of `restore_wp_hold` -/
  | restore (mask : Word)

namespace BusAct

/-- It may drive pins of other chips. -/
def wide : BusAct → Bool
  | word _ | restore _ => true
  | _ => false

/-- The pins that it drives. -/
def drives (p : Pins) : BusAct → Nat → Prop
  | line _, g => g = p.cs
  | byte _, g | rxWord, g => g = p.clk ∨ g = p.io0
  | word _, g => g = p.clk ∨ g < 32 ∧ (g + 32 - p.io3) % 32 < QTX_SPAN
  | restore mask, g => mask.getLsbD g = true

instance (p : Pins) : (a : BusAct) → (g : Nat) → Decidable (a.drives p g)
  | line _, _ => inferInstanceAs (Decidable (_ = _))
  | byte _, _ | rxWord, _ => inferInstanceAs (Decidable (_ ∨ _))
  | word _, _ => inferInstanceAs (Decidable (_ ∨ _))
  | restore _, _ => inferInstanceAs (Decidable (_ = _))

end BusAct

namespace Chip

/-- The byte that it drives after it has taken these. -/
def out (d : Chip) : List Byte → Byte
  | op :: b1 :: bs =>
    if op = 0x0f then (W25nSpi.readStatus d).1
    else
      match bs with
      | b0 :: _ :: bs => if op = 0x03 ∧ ¬ d.busy then d.buffer (colOf b1 b0 + bs.length) else 0
      | _ => 0
  | _ => 0

/-- Its CS line rises after these bytes and words. -/
def deselect (d : Chip) (p : Pins) : List Byte → List Word → Chip
  | [], _ => d
  | op :: args, ws =>
    if op = 0x0f then (W25nSpi.readStatus d).2
    else if op = 0x32 then d.quadLoad p args ws
    else d.command op args

end Chip

/-- A chip with the bytes and words that it has taken since its CS line fell. -/
structure Wire where
  chip : Chip
  taken : Option (List Byte × List Word)

namespace Wire

def exchange (w : Wire) (b : Byte) : Byte × Wire :=
  match w.taken with
  | none => (0, w)
  | some (bs, ws) => (w.chip.out bs, { w with taken := some (bs ++ [b], ws) })

/-- The word and the wire after an act of its thread. -/
def own (p : Pins) : BusAct → Wire → Word × Wire
  | .line false, w => (0, { w with taken := some ([], []) })
  | .line true, w => (0, ⟨w.taken.elim w.chip fun t => w.chip.deselect p t.1 t.2, none⟩)
  | .byte b, w =>
    let r := w.exchange b
    (r.1.setWidth 32, r.2)
  | .rxWord, w =>
    let r0 := w.exchange 0
    let r1 := r0.2.exchange 0
    let r2 := r1.2.exchange 0
    let r3 := r2.2.exchange 0
    ((r0.1 ++ r1.1 ++ r2.1 ++ r3.1 : BitVec (8 + 8 + 8 + 8)), r3.2)
  | .word x, w => (0, { w with taken := w.taken.map fun t => (t.1, t.2 ++ [x]) })
  | .restore _, w => (0, w)

variable {ι : Type} (pins : ι → Pins) (glitch : ι → BusAct → ι → Wire → Wire)

/-- Chip `j` while the thread of chip `i` acts. -/
def other (i : ι) (a : BusAct) (j : ι) (w : Wire) : Wire :=
  if w.taken.isSome ∧ ∃ g ∈ (pins j).gpios, a.drives (pins i) g then glitch i a j w else w

end Wire

/-! ## The driver -/

abbrev BusCode := Prog BusAct Word

namespace BusCode

def act (a : BusAct) : BusCode Word := Prog.act a .ret

def setLine (value : Bool) : BusCode Unit := do
  let _ ← act (.line value)

def xferByte (b : Byte) : BusCode Byte := do
  let w ← act (.byte b)
  return w.setWidth 8

def sendBytes : List Byte → BusCode Unit
  | [] => pure ()
  | b :: bs => do
    let _ ← xferByte b
    sendBytes bs

def receiveBytes : Nat → BusCode (List Byte)
  | 0 => pure []
  | n + 1 => do
    let b ← xferByte 0x00
    let bs ← receiveBytes n
    return b :: bs

/-- The words that `qtx` drives. -/
def sendWords : List Word → BusCode Unit
  | [] => pure ()
  | w :: ws => do
    let _ ← act (.word w)
    sendWords ws

/-- The words that `rx` packs. -/
def receiveWords : Nat → BusCode (List Word)
  | 0 => pure []
  | n + 1 => do
    let w ← act .rxWord
    let ws ← receiveWords n
    return w :: ws

def cmd (tx : List Byte) (rxlen : Nat) : BusCode (List Byte) := do
  setLine false
  sendBytes tx
  let rx ← receiveBytes rxlen
  setLine true
  return rx

def writeEnable : BusCode Unit := do
  let _ ← cmd [0x06] 0

def readStatus : BusCode Byte := do
  let rx ← cmd [0x0f, 0xc0] 1
  return rx.headD 0

/-- The polls of `w25n_wait_busy`; after `n` more the time is over. Returns the last SR-3. -/
def waitBusy : Nat → BusCode (Bool × Byte)
  | 0 => do
    let sr3 ← readStatus
    return (decide (sr3 &&& 0x01 = 0), sr3)
  | n + 1 => do
    let sr3 ← readStatus
    if sr3 &&& 0x01 = 0 then return (true, sr3) else waitBusy n

def blockErase (page : Nat) : BusCode Bool := do
  writeEnable
  let _ ← cmd (0xd8 :: W25nSpi.pageBytes page) 0
  let r ← waitBusy (W25nPio.polls 500000)
  return r.1 && r.2 &&& 0x04 = 0

def loadData (p : Pins) (others : List Pins) (noQuad : Bool) (col : Nat) (data : List Byte) :
    BusCode Unit := do
  setLine false
  if noQuad = false ∧ 8 ≤ data.length ∧ data.length ≤ BULK_MAX then
    sendBytes (0x32 :: W25nSpi.colBytes col)
    sendWords (p.qtxWords others data)
    setLine true
    let _ ← act (.restore (Dev.restoreMask (p :: others)))
  else
    sendBytes (0x02 :: W25nSpi.colBytes col)
    sendBytes data
    setLine true

def programBegin (p : Pins) (others : List Pins) (noQuad : Bool) (col : Nat) (data : List Byte) :
    BusCode Bool := do
  writeEnable
  loadData p others noQuad col data
  return true

def programCommit (page : Nat) : BusCode Bool := do
  let _ ← cmd (0x10 :: W25nSpi.pageBytes page) 0
  let r ← waitBusy (W25nPio.polls 100000)
  return r.1 && r.2 &&& 0x08 = 0

def pageRead (page : Nat) : BusCode Bool := do
  let _ ← cmd (0x13 :: W25nSpi.pageBytes page) 0
  let r ← waitBusy (W25nPio.polls 100000)
  return r.1

def readBuf (col len : Nat) : BusCode (List Byte) :=
  let tx : List Byte := 0x03 :: W25nSpi.colBytes col ++ [0x00]
  if len % 4 ≠ 0 ∨ len < 8 ∨ BULK_MAX < len then cmd tx len
  else do
    setLine false
    sendBytes tx
    let words ← receiveWords (len / 4)
    setLine true
    return W25nPio.rxUnpack words

/-! ## The device -/

open W25NSpiFlashDevice (receive transmit)

/-- The loop of `read`, `length` bytes before its end. -/
def readLoop {n : Nat} (offset : Nat) (buffer : Vector Byte n) (pos length : Nat) :
    BusCode (Bool × Vector Byte n) :=
  if 0 < length then do
    let cnt := min (W25N_PAGE_SIZE - offset % W25N_PAGE_SIZE) length
    let ok ← pageRead (offset / W25N_PAGE_SIZE)
    if ok then
      let data ← readBuf (offset % W25N_PAGE_SIZE) cnt
      readLoop (u32 (offset + cnt)) (receive buffer pos data) (pos + cnt) (length - cnt)
    else return (false, buffer)
  else return (true, buffer)
termination_by length
decreasing_by
  have : offset % 2048 < 2048 := Nat.mod_lt _ (by decide)
  show length - min (2048 - offset % 2048) length < length
  omega

def read {n : Nat} (offset : Nat) (buffer : Vector Byte n) : BusCode (Bool × Vector Byte n) :=
  .locked .shared (readLoop offset buffer 0 n)

section
variable (p : Pins) (others : List Pins) (noQuad : Bool)

/-- The loop of `write`, `length` bytes before its end. -/
def writeLoop {n : Nat} (offset : Nat) (buffer : Vector Byte n) (pos length : Nat) : BusCode Bool :=
  if 0 < length then do
    let col := offset % W25N_PAGE_SIZE
    let cnt := min (W25N_PAGE_SIZE - col) length
    let ok ← .locked .unique (programBegin p others noQuad col (transmit buffer pos cnt))
    if ok then
      let ok ← .locked .shared (programCommit (offset / W25N_PAGE_SIZE))
      if ok then writeLoop (u32 (offset + cnt)) buffer (pos + cnt) (length - cnt) else return false
    else return false
  else return true
termination_by length
decreasing_by
  have : offset % 2048 < 2048 := Nat.mod_lt _ (by decide)
  show length - min (2048 - offset % 2048) length < length
  omega

/-- The loop of `erase` from `off` to `stop`, at most `fuel` blocks. -/
def eraseBlocks (stop : Nat) : (fuel off : Nat) → BusCode Bool
  | 0, off => pure (decide (stop ≤ off))
  | fuel + 1, off =>
    if off < stop then do
      let ok ← blockErase (off / W25N_PAGE_SIZE)
      if ok then eraseBlocks stop fuel (u32 (off + W25N_BLOCK_SIZE)) else return false
    else pure true

def erase (offset length : Nat) : BusCode Bool :=
  if offset % W25N_BLOCK_SIZE ≠ 0 ∨ length % W25N_BLOCK_SIZE ≠ 0 then pure false
  else .locked .shared (eraseBlocks (u32 (offset + length)) length offset)

def call : DeviceCall → BusCode DeviceCall.Answer
  | .read offset buffer => do
    let r ← read offset buffer
    return (r.1, r.2.toList)
  | .write (n := n) offset buffer => do
    let ok ← writeLoop p others noQuad offset buffer 0 n
    return (ok, [])
  | .erase offset length => do
    let ok ← erase offset length
    return (ok, [])

def calls : List DeviceCall → BusCode (List DeviceCall.Answer)
  | [] => pure []
  | c :: cs => do
    let a ← call p others noQuad c
    let as ← calls cs
    return a :: as

end

end BusCode

/-- A chip for each thread. -/
abbrev Hat (ι : Type) := ι → RwLock.Thread BusAct Word (List DeviceCall.Answer) Wire

namespace Hat

variable {ι : Type} [Fintype ι] [DecidableEq ι]

/-- One thread goes on. -/
def step (pins : ι → Pins) (glitch : ι → BusAct → ι → Wire → Wire) : Hat ι → ι → Option (Hat ι) :=
  RwLock.step (fun i => Wire.own (pins i)) (Wire.other pins glitch)

/-- Thread `i` has these calls on device `i` before it. -/
def start (devs : ι → W25NFlashDevice) (calls : ι → List DeviceCall) : Hat ι :=
  RwLock.start (fun i => BusCode.calls (devs i).pins (devs i).others (devs i).noQuad (calls i))
    fun i => ⟨(devs i).chip, none⟩

end Hat

end NandServer
