import HsqOverNand.Lib.Follow
import HsqOverNand.Lib.Pio
import HsqOverNand.Qspi.Threads

/-!
# The driver, cycle by cycle (`src/qspi/w25n_pio.c`, `load_spi_programs` to `qtx_bulk`)

`Rig` is a state machine of the PIO with a chip on its pins: what `w25n_open` loads and configures runs
(`tick`) while the driver puts words, gets words, changes the mode and moves the CS line. `Port` is the chip
behind the edges of its CLK: it takes a bit from IO0 at a rising edge, or four bits after 32h and an address,
and puts its next bit on IO1 at a falling edge.

* The state machine ticks as often as it likes before each thing that the driver does (`Does`).
* `Rigs`: one for each thread. While an act drives pins of another chip, these may change at any time (`disturb`).
* The `jmp` of `pio_sm_init` has side-set 0.
* The directions of the pins are left out: IO1 is driven by the chip except in `qtx`, which reads no pins.
  `w25n_quad_read_buf` is left out.
-/

set_option autoImplicit false

namespace NandServer

/-! ## The programs -/

namespace PioEncode

/-- `_pio_encode_instr_and_args` -/
def instrAndArgs (bits : BitVec 16) (arg1 arg2 : Nat) : BitVec 16 :=
  bits ||| (BitVec.ofNat 16 arg1 <<< 5) ||| (BitVec.ofNat 16 arg2 &&& 0x1f)

/-- `pio_pins`, `pio_y` -/
abbrev pins : Nat := 0
abbrev y : Nat := 2

/-- `pio_encode_out`, `pio_encode_in`, `pio_encode_mov`, `pio_encode_nop`, `pio_encode_sideset` -/
def out (dest count : Nat) : BitVec 16 := instrAndArgs 0x6000 dest count
def inp (src count : Nat) : BitVec 16 := instrAndArgs 0x4000 src count
def mov (dest src : Nat) : BitVec 16 := instrAndArgs 0xa000 dest src
def nop : BitVec 16 := mov y y
def sideset (bitCount value : Nat) : BitVec 16 := BitVec.ofNat 16 value <<< (13 - bitCount)

end PioEncode

abbrev OFF_FDX : Nat := 0
abbrev OFF_RX : Nat := 2
abbrev RX_LEN : Nat := 16
abbrev OFF_QTX : Nat := 18
abbrev QTX_LEN : Nat := 10
abbrev OFF_QRX : Nat := 28

namespace Program

open PioEncode

/-- Two instructions, over and over. -/
def alternate (even odd : BitVec 16) (len : Nat) : List (BitVec 16) :=
  (List.range len).map fun i => if i % 2 = 0 then even else odd

/-- The arrays of `load_spi_programs`. -/
def code : Program → List (BitVec 16)
  | fdx => [out pins 1 ||| sideset 1 0, inp pins 1 ||| sideset 1 1]
  | rx => alternate (inp pins 1 ||| sideset 1 1) (nop ||| sideset 1 0) RX_LEN
  | qtx => alternate (out pins QTX_SPAN ||| sideset 1 0) (nop ||| sideset 1 1) QTX_LEN
  | qrx => [inp pins 32 ||| sideset 1 1, nop ||| sideset 1 0]

def offset : Program → Nat
  | fdx => OFF_FDX
  | rx => OFF_RX
  | qtx => OFF_QTX
  | qrx => OFF_QRX

/-- The instruction memory after `load_spi_programs`. -/
def memory : List (BitVec 16) := code fdx ++ code rx ++ code qtx ++ code qrx

/-- `build_configs` -/
def config (p : Pins) (pr : Program) : Pio.Config :=
  let c : Pio.Config :=
    { wrapTarget := 0, wrap := 31, sidePin := p.clk, outBase := p.io0, outCount := 1, inBase := p.io1,
      outRight := true, inRight := true, autopull := false, autopush := false, pullThresh := 32,
      pushThresh := 32 }
  match pr with
  | fdx => { c with
      wrapTarget := OFF_FDX, wrap := OFF_FDX + 1, outRight := false, autopull := true, pullThresh := 8,
      inRight := false, autopush := true, pushThresh := 8 }
  | rx => { c with
      wrapTarget := OFF_RX, wrap := OFF_RX + RX_LEN - 1, outRight := false, pullThresh := 32,
      inRight := false, autopush := true, pushThresh := 32 }
  | qtx => { c with
      wrapTarget := OFF_QTX, wrap := OFF_QTX + QTX_LEN - 1, outBase := p.io3, outCount := QTX_SPAN,
      outRight := true, autopull := true, pullThresh := QTX_SPAN,
      inRight := false, autopush := true, pushThresh := 32 }
  | qrx => { c with
      wrapTarget := OFF_QRX, wrap := OFF_QRX + 1, inBase := 0, outRight := false, pullThresh := 32,
      inRight := false, autopush := true, pushThresh := 32 }

end Program

/-! ## The chip on its pins -/

/-- A chip behind its pins. -/
structure Port where
  chip : Chip
  /-- What it has taken since its CS line fell: bytes, then nibbles on four lines. -/
  taken : Option (List Byte × List Word)
  /-- The bits of the byte under way, and how many they are. -/
  bits : Byte
  count : Nat
  clk : Bool
  /-- What it drives on IO1. -/
  dout : Bool

namespace Port

/-- The data of a quad data load comes next. -/
def isQuad : List Byte → Bool
  | [op, _, _] => op = 0x32
  | _ => false

/-- The levels of IO0..IO3. -/
def lines (p : Pins) (latch : Nat → Bool) : Word :=
  (BitVec.ofBool (latch p.io0)).setWidth 32 ||| ((BitVec.ofBool (latch p.io1)).setWidth 32 <<< 1) |||
    ((BitVec.ofBool (latch p.io2)).setWidth 32 <<< 2) ||| ((BitVec.ofBool (latch p.io3)).setWidth 32 <<< 3)

/-- Nibbles as bytes, the high one first. -/
def joined : List Word → List Byte
  | n0 :: n1 :: ns => (n0 <<< 4 ||| n1).setWidth 8 :: joined ns
  | _ => []

/-- Its next bit. -/
def next (x : Port) : Bool :=
  match x.taken with
  | none => false
  | some (bs, _) => (x.chip.out bs).getLsbD (7 - x.count)

/-- CLK rises. -/
def rise (p : Pins) (latch : Nat → Bool) (x : Port) : Port :=
  match x.taken with
  | none => x
  | some (bs, ns) =>
    if isQuad bs then { x with taken := some (bs, ns ++ [lines p latch]) }
    else
      let bits := x.bits <<< 1 ||| (BitVec.ofBool (latch p.io0)).setWidth 8
      if x.count = 7 then { x with taken := some (bs ++ [bits], ns), bits := 0, count := 0 }
      else { x with bits := bits, count := x.count + 1 }

/-- The pins have changed. -/
def see (p : Pins) (latch : Nat → Bool) (x : Port) : Port :=
  match x.clk, latch p.clk with
  | false, true => { x.rise p latch with clk := true }
  | true, false => { x with dout := x.next, clk := false }
  | _, _ => x

/-- The CS line falls. -/
def select (x : Port) : Port := { x with taken := some ([], []), bits := 0, count := 0, dout := false }

/-- The effect of a transfer with these nibbles. -/
def release (d : Chip) : List Byte → List Word → Chip
  | [], _ => d
  | op :: args, ns =>
    if op = 0x0f then (W25nSpi.readStatus d).2
    else if op = 0x32 then
      match args with
      | [b1, b0] => if d.busy then d else d.dataLoad (Chip.colOf b1 b0) (joined ns)
      | _ => d
    else d.command op args

/-- The CS line rises. -/
def deselect (x : Port) : Port :=
  { x with chip := x.taken.elim x.chip fun t => release x.chip t.1 t.2, taken := none, bits := 0, count := 0 }

end Port

/-! ## A state machine with its chip -/

/-- `pio_get_fifo_depth` of the RP1 -/
abbrev FIFO_DEPTH : Nat := 8

structure Rig where
  /-- The program that runs. -/
  mode : Option Program
  sm : Pio.Sm
  latch : Nat → Bool
  port : Port

namespace Rig

variable (p : Pins)

def levels (s : Rig) (g : Nat) : Bool := if g = p.io1 then s.port.dout else s.latch g

/-- The state machine takes a cycle. -/
def tick (s : Rig) : Rig :=
  match s.mode, Program.memory[s.sm.pc]?.bind Pio.decode with
  | some pr, some i =>
    let c := pr.config p
    let r := c.cycle FIFO_DEPTH i.op (s.levels p) s.sm
    let latch := c.drive i.side r.1 s.latch
    { s with sm := r.2, latch := latch, port := s.port.see p latch }
  | _, _ => s

def ticks (n : Nat) (s : Rig) : Rig := (tick p)^[n] s

/-- `pio_sm_init` with a program, enabled. -/
def init (pr : Program) (s : Rig) : Rig :=
  let latch := Function.update s.latch p.clk false
  { mode := some pr, sm := .start pr.offset, latch := latch, port := s.port.see p latch }

/-- `enter_mode`, and the start of `rx_bulk`. -/
def enter (pr : Program) (s : Rig) : Rig := if s.mode = some pr then s else s.init p pr

/-- `pio_sm_put`; `none`: the FIFO is full. -/
def put (w : Word) (s : Rig) : Option Rig :=
  if s.sm.tx.length < FIFO_DEPTH then some { s with sm := { s.sm with tx := s.sm.tx ++ [w] } } else none

/-- `pio_sm_get`; `none`: the FIFO is empty. -/
def get (s : Rig) : Option (Word × Rig) :=
  match s.sm.rx with
  | [] => none
  | w :: rx => some (w, { s with sm := { s.sm with rx := rx } })

/-- `pio_sm_set_pins_with_mask(mask, mask)` -/
def setPins (mask : Word) (s : Rig) : Rig :=
  let latch := fun g => if mask.getLsbD g then true else s.latch g
  { s with latch := latch, port := s.port.see p latch }

def select (s : Rig) : Rig := { s with port := s.port.select }
def deselect (s : Rig) : Rig := { s with port := s.port.deselect }

/-- The end of `w25n_open`: the byte program runs, /WP and /HOLD are high, the CS line too. -/
def opened (d : Chip) (latch : Nat → Bool) : Rig :=
  (init p .fdx ⟨none, .start OFF_FDX, latch, ⟨d, none, 0, 0, latch p.clk, false⟩⟩).setPins p
    (bit p.io2 ||| bit p.io3)

/-- The cycles that `drain_tx` sleeps for, at least. -/
def DRAIN : Nat := 80

/-- The end of a transfer: `drain_tx`, or the state machine is disabled. -/
def Settles (s t : Rig) : Prop :=
  match s.mode with
  | some .qtx => s.sm.tx = [] ∧ ∃ n, DRAIN ≤ n ∧ t = s.ticks p n
  | some .rx => t = { s with mode := none }
  | some .fdx => t = s
  | _ => False

/-- What the driver does for an act, with the answer; its puts and gets wait. -/
def Does : BusAct → Rig → Word → Rig → Prop
  | .line false, s, a, t => ∃ n m, a = 0 ∧ t = (((s.ticks p n).enter p .fdx).ticks p m).select
  | .line true, s, a, t => ∃ n u, (s.ticks p n).Settles p u ∧ a = 0 ∧ t = u.deselect
  | .byte b, s, a, t => ∃ n m u w, (s.ticks p n).put (b.setWidth 32 <<< 24) = some u ∧
      (u.ticks p m).get = some (w, t) ∧ a = (w.setWidth 8).setWidth 32
  | .rxWord, s, a, t => ∃ n m, (((s.ticks p n).enter p .rx).ticks p m).get = some (a, t)
  | .word x, s, a, t => ∃ n m, a = 0 ∧ (((s.ticks p n).enter p .qtx).ticks p m).put x = some t
  | .restore mask, s, a, t => ∃ n, a = 0 ∧ t = (s.ticks p n).setPins p mask

/-! ## Rigs next to each other -/

/-- The words that are not driven yet. -/
def pending (sm : Pio.Sm) : List Word := (if sm.osrCount < QTX_SPAN then [sm.osr] else []) ++ sm.tx

/-- The send program drives words during the act. -/
def Spreads (s : Rig) (a : BusAct) : Prop := s.mode = some .qtx ∧ (pending s.sm ≠ [] ∨ ∃ b, a = .byte b)

/-- Pins of other chips may change during the act. -/
def Loud (a : BusAct) (s : Rig) : Prop := a.wide = true ∨ s.Spreads a

/-- The pins that may change. -/
def drives (a : BusAct) (s : Rig) (g : Nat) : Prop :=
  a.drives p g ∨ g = p.clk ∨ g = p.io0 ∨ s.Spreads a ∧ g < 32 ∧ (g + 32 - p.io3) % 32 < QTX_SPAN

/-- The pins change. -/
def shake (latch : Nat → Bool) (s : Rig) : Rig := { s with latch := latch, port := s.port.see p latch }

/-- Any such changes, while the state machine goes on. -/
def Shaken (s t : Rig) : Prop := Relation.ReflTransGen (fun u v => v = u.tick p ∨ ∃ latch, v = u.shake p latch) s t

variable {ι : Type} (pins : ι → Pins)

/-- What rig `j` makes of an act of rig `i`. -/
def disturb (i : ι) (a : BusAct) (s : Rig) (j : ι) (u v : Rig) : Prop :=
  v = u ∨ (∃ g ∈ (pins j).gpios, s.drives (pins i) a g) ∧ u.Shaken (pins j) v

end Rig

/-- A rig for each thread. -/
abbrev Rigs (ι : Type) := ι → RwLock.Thread BusAct Word (List DeviceCall.Answer) Rig

namespace Rigs

variable {ι : Type} [DecidableEq ι] (devs : ι → W25NFlashDevice)

/-- Thread `i` has opened device `i`, and has these calls before it. -/
def start (latch : ι → Nat → Bool) (calls : ι → List DeviceCall) : Rigs ι :=
  RwLock.start (fun i => BusCode.calls (devs i).pins (devs i).others (devs i).noQuad (calls i))
    fun i => Rig.opened (devs i).pins (devs i).chip (latch i)

/-- One thread goes on. -/
def Step (s : Rigs ι) (i : ι) (t : Rigs ι) : Prop :=
  RwLock.Step (fun i => Rig.Does (devs i).pins) (Rig.disturb fun i => (devs i).pins) s i t

/-- The threads go on in this order. -/
def Leads (s : Rigs ι) (is : List ι) (t : Rigs ι) : Prop :=
  RwLock.Leads (fun i => Rig.Does (devs i).pins) (Rig.disturb fun i => (devs i).pins) s is t

end Rigs

end NandServer
