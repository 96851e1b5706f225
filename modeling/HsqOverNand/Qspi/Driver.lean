import HsqOverNand.Qspi.Swizzle
import HsqOverNand.Spi.Driver

/-!
# The HAT driver (`src/qspi/w25n_pio.c`)

`Bus` is what the calls share: the output latches and directions of the pins, the CS lines, the
state machines of the PIO and the globals of the driver. A device is passed by value through a call
and stored at its end. What happens outside the driver is a parameter of a call: how many polls find
the chip busy, which set-ups and transfers fail, and how far the state machine got at a failed x4
send (`TxEnv`).

* Received bytes change nothing on the bus and are left out, and so are the level of CLK and the
  loading of the programs.
* `drain_tx` that succeeds leaves no word in the FIFO. The polling loops end with a result.
* Another process may hold a state machine (`OpenEnv.smFree`).
* `fdxOnly` records whether every byte so far was transferred by the byte program.
-/

set_option autoImplicit false

namespace NandServer

inductive SmMode
  | none | fdx | qtx
  deriving DecidableEq, Repr

inductive Program
  | fdx | rx | qtx | qrx
  deriving DecidableEq, Repr

/-- `pio_sm_config`: the program with the pins and the clock it was built for. -/
structure SmConfig where
  program : Program
  pins : Pins
  clkdiv : Nat
  deriving DecidableEq, Repr

structure Sm where
  claimed : Bool
  enabled : Bool
  config : Option SmConfig
  /-- The words it has not driven. -/
  fifo : List Word

def Sm.idle : Sm := ⟨false, false, .none, []⟩

/-- `struct w25n_dev` -/
structure Dev where
  pins : Pins
  sm : Nat
  clkdiv : Nat
  mode : SmMode
  useRxdma : Bool
  noQuadDma : Bool
  quadDmaReady : Bool
  /-- `cfg_fdx`, `cfg_rx`, `cfg_qtx`, `cfg_qrx` -/
  cfg : Program → SmConfig

structure Bus where
  latch : Nat → Bool
  /-- Whether the pin is an output. -/
  dir : Nat → Bool
  /-- The CS lines. -/
  line : Nat → Bool
  sms : Nat → Sm
  /-- The open devices. -/
  devs : Nat → Option Dev
  /-- `g_devs`, four slots -/
  gDevs : List (Option Nat)
  gPio : Bool
  gPioRefs : Nat
  /-- `W25N_NOQUAD` -/
  noQuad : Bool
  fdxOnly : Bool

/-! ## The PIO and the GPIO lines -/

namespace Bus

def setSm (s : Bus) (n : Nat) (f : Sm → Sm) : Bus :=
  { s with sms := Function.update s.sms n (f (s.sms n)) }

def smSetEnabled (s : Bus) (n : Nat) (b : Bool) : Bus := s.setSm n fun m => { m with enabled := b }

/-- `pio_sm_init` stops the state machine and clears its FIFOs. -/
def smInit (s : Bus) (n : Nat) (c : SmConfig) : Bus :=
  s.setSm n fun m => { m with enabled := false, config := some c, fifo := [] }

def setPinsWithMask (s : Bus) (values mask : Word) : Bus :=
  { s with latch := fun g => if mask.getLsbD g then values.getLsbD g else s.latch g }

def setPindirsWithMask (s : Bus) (dirs mask : Word) : Bus :=
  { s with dir := fun g => if mask.getLsbD g then dirs.getLsbD g else s.dir g }

/-- `pio_sm_set_consecutive_pindirs` of one pin. -/
def setPindir (s : Bus) (g : Nat) (out : Bool) : Bus := { s with dir := Function.update s.dir g out }

def setLine (s : Bus) (g : Nat) (value : Bool) : Bus := { s with line := Function.update s.line g value }

/-- `out pins, 22` from `io3` on; pin numbers wrap at 32. -/
def driveWord (p : Pins) (s : Bus) (w : Word) : Bus :=
  { s with latch := fun g =>
      if g < 32 ∧ (g + 32 - p.io3) % 32 < QTX_SPAN then w.getLsbD ((g + 32 - p.io3) % 32)
      else s.latch g }

/-- The state machine drives its next word. -/
def smStep (s : Bus) (n : Nat) : Bus :=
  match (s.sms n).enabled, (s.sms n).config, (s.sms n).fifo with
  | true, some c, w :: ws =>
    if c.program = .qtx then driveWord c.pins (s.setSm n fun m => { m with fifo := ws }) w else s
  | _, _, _ => s

/-- The state machine of the device runs this program of it. -/
def Runs (s : Bus) (d : Dev) (pr : Program) : Prop :=
  (s.sms d.sm).enabled = true ∧ (s.sms d.sm).config = some (d.cfg pr)

instance (s : Bus) (d : Dev) (pr : Program) : Decidable (s.Runs d pr) :=
  inferInstanceAs (Decidable (_ ∧ _))

/-- `xfer_byte`; IO0 keeps the last bit. -/
def xferByte (d : Dev) (s : Bus) (b : Byte) : Bus :=
  { s with
    latch := Function.update s.latch d.pins.io0 (b.getLsbD 0)
    fdxOnly := s.fdxOnly && decide (s.Runs d .fdx) }

def xferBytes (s : Bus) (d : Dev) (bs : List Byte) : Bus := bs.foldl (xferByte d) s

/-- The pins of the registered devices. -/
def registered (s : Bus) : List Pins := s.gDevs.filterMap fun o => (o.bind s.devs).map (·.pins)

/-- The pins of the registered devices other than `h`. -/
def others (s : Bus) (h : Nat) : List Pins :=
  s.gDevs.filterMap fun o => if o = some h then none else (o.bind s.devs).map (·.pins)

end Bus

/-! ## The calls on a device -/

def SmMode.program : SmMode → Program
  | qtx => .qtx
  | _ => .fdx

namespace Dev

def buildConfigs (d : Dev) : Dev := { d with cfg := fun pr => ⟨pr, d.pins, d.clkdiv⟩ }

def enterMode (d : Dev) (s : Bus) (mode : SmMode) : Dev × Bus :=
  if d.mode = mode then (d, s)
  else
    let s := ((s.smSetEnabled d.sm false).smInit d.sm (d.cfg mode.program)).smSetEnabled d.sm true
    ({ d with mode := mode }, s)

def cmd (d : Dev) (s : Bus) (tx : List Byte) (rxlen : Nat) : Dev × Bus :=
  let r := d.enterMode s .fdx
  let s := ((r.2.setLine r.1.pins.cs false).xferBytes r.1 tx).xferBytes r.1 (List.replicate rxlen 0)
  (r.1, s.setLine r.1.pins.cs true)

def setClkdiv (d : Dev) (s : Bus) (clkdiv : Nat) : Dev × Bus :=
  ({ buildConfigs { d with clkdiv } with mode := .none }, s)

/-- The masks of `restore_wp_hold`. -/
def restoreMask : List Pins → Word
  | [] => 0
  | p :: ps => bit p.io2 ||| bit p.io3 ||| restoreMask ps

def restoreWpHold (s : Bus) : Bus :=
  s.setPinsWithMask (restoreMask s.registered) (restoreMask s.registered)

/-- What happens in an x4 send. -/
structure TxEnv where
  /-- `pio_sm_config_xfer` succeeds. -/
  configXfer : Bool
  /-- `pio_sm_xfer_data` succeeds. -/
  xferData : Bool
  /-- The polling loop ends without a timeout. -/
  poll : Bool
  /-- `drain_tx` ends without a timeout. -/
  drain : Bool
  /-- At a failure: the words driven, and those still queued. -/
  driven : Nat
  queued : Nat
  deriving Repr

/-- The DMA set-up of `qtx_bulk`. -/
def setupDma (d : Dev) (env : TxEnv) : Dev :=
  if d.noQuadDma ∨ d.quadDmaReady then d
  else if env.configXfer then { d with quadDmaReady := true }
  else { d with noQuadDma := true }

/-- The send succeeds. -/
def sendOk (d : Dev) (env : TxEnv) : Bool :=
  (if d.noQuadDma then env.poll else env.xferData) && env.drain

def qtxBulk (d : Dev) (s : Bus) (h : Nat) (data : List Byte) (env : TxEnv) : Bool × Dev × Bus :=
  let words := d.pins.qtxWords (s.others h) data
  let r := d.enterMode s .qtx
  let d := r.1.setupDma env
  if d.sendOk env then (true, d, words.foldl (Bus.driveWord d.pins) r.2)
  else
    let s := (words.take env.driven).foldl (Bus.driveWord d.pins) r.2
    (false, d, s.setSm d.sm fun m => { m with fifo := (words.drop env.driven).take env.queued })

/-- A send of this data that fails leaves no word for the state machine. -/
def Settled (d : Dev) (s : Bus) (h : Nat) (data : List Byte) (env : TxEnv) : Prop :=
  (d.setupDma env).sendOk env = false →
    ((d.pins.qtxWords (s.others h) data).drop env.driven).take env.queued = []

/-- Disables the state machine after a bulk receive of the program, with or without a failure. -/
def receive (d : Dev) (s : Bus) (pr : Program) : Dev × Bus :=
  let s := ((s.smSetEnabled d.sm false).smInit d.sm (d.cfg pr)).smSetEnabled d.sm true
  ({ d with mode := .none }, s.smSetEnabled d.sm false)

/-- `w25n_wait_busy` whose first `n` polls find the chip busy. -/
def waitBusy (d : Dev) (s : Bus) : Nat → Dev × Bus
  | 0 => d.cmd s [0x0f, 0xc0] 1
  | n + 1 =>
    let r := d.cmd s [0x0f, 0xc0] 1
    waitBusy r.1 r.2 n

def writeEnable (d : Dev) (s : Bus) : Dev × Bus := d.cmd s [0x06] 0

def blockErase (d : Dev) (s : Bus) (n page : Nat) : Dev × Bus :=
  let r := d.writeEnable s
  let r := r.1.cmd r.2 (0xd8 :: W25nSpi.pageBytes page) 0
  r.1.waitBusy r.2 n

/-- `quad` of `load_data` -/
def isQuad (s : Bus) (len : Nat) : Prop := s.noQuad = false ∧ 8 ≤ len ∧ len ≤ BULK_MAX

instance (s : Bus) (len : Nat) : Decidable (isQuad s len) := inferInstanceAs (Decidable (_ ∧ _))

def loadData (d : Dev) (s : Bus) (h col : Nat) (data : List Byte) (env : TxEnv) : Bool × Dev × Bus :=
  let r := d.enterMode s .fdx
  let d := r.1
  let op : Byte := if isQuad s data.length then 0x32 else 0x02
  let s' := (r.2.setLine d.pins.cs false).xferBytes d (op :: W25nSpi.colBytes col)
  if isQuad s data.length then
    let io123 := bit d.pins.io1 ||| bit d.pins.io2 ||| bit d.pins.io3
    let q := d.qtxBulk (s'.setPindirsWithMask io123 io123) h data env
    let s := (q.2.2.setLine d.pins.cs true).setPindirsWithMask 0 (bit d.pins.io1)
    (q.1, q.2.1, restoreWpHold s)
  else (true, d, (s'.xferBytes d data).setLine d.pins.cs true)

def programBegin (d : Dev) (s : Bus) (h col : Nat) (data : List Byte) (env : TxEnv) :
    Bool × Dev × Bus :=
  let r := d.writeEnable s
  r.1.loadData r.2 h col data env

def programCommit (d : Dev) (s : Bus) (n page : Nat) : Dev × Bus :=
  let r := d.cmd s (0x10 :: W25nSpi.pageBytes page) 0
  r.1.waitBusy r.2 n

def pageRead (d : Dev) (s : Bus) (n page : Nat) : Dev × Bus :=
  let r := d.cmd s (0x13 :: W25nSpi.pageBytes page) 0
  r.1.waitBusy r.2 n

def readBuf (d : Dev) (s : Bus) (col len : Nat) : Dev × Bus :=
  let tx : List Byte := 0x03 :: W25nSpi.colBytes col ++ [0x00]
  if len % 4 ≠ 0 ∨ len < 8 ∨ BULK_MAX < len then d.cmd s tx len
  else
    let r := d.enterMode s .fdx
    let r := r.1.receive ((r.2.setLine r.1.pins.cs false).xferBytes r.1 tx) .rx
    (r.1, r.2.setLine r.1.pins.cs true)

def quadReadBuf (d : Dev) (s : Bus) (col len : Nat) : Dev × Bus :=
  if len < 1 ∨ BULK_MAX < len then (d, s)
  else
    let r := d.enterMode s .fdx
    let d := r.1
    let io023 := bit d.pins.io0 ||| bit d.pins.io2 ||| bit d.pins.io3
    let s := (r.2.setLine d.pins.cs false).xferBytes d (0x6b :: W25nSpi.colBytes col)
    let r := d.receive ((s.setPindirsWithMask 0 io023).xferByte d 0x00) .qrx
    (r.1, restoreWpHold ((r.2.setLine d.pins.cs true).setPindirsWithMask io023 io023))

end Dev

/-! ## Opening and closing -/

/-- What happens in `w25n_open`. -/
structure OpenEnv where
  calloc : Bool
  /-- `/dev/gpiochip0` opens. -/
  chip : Bool
  /-- The CS line can be claimed. -/
  claimCs : Bool
  pioOpen : Bool
  /-- No other process holds the state machine. -/
  smFree : Bool
  configXfer : Bool
  /-- `W25N_RXDMA` and `W25N_QUAD_NODMA` -/
  useRxdma : Bool
  noQuadDma : Bool
  deriving Repr

/-- The first free slot of `g_devs`. -/
def registerDev (h : Nat) : List (Option Nat) → List (Option Nat)
  | [] => []
  | none :: os => some h :: os
  | some h' :: os => some h' :: registerDev h os

namespace Bus

/-- The device leaves the registry and is freed. -/
def unregister (s : Bus) (h : Nat) : Bus :=
  { s with
    gDevs := s.gDevs.map fun o => if o = some h then none else o
    devs := Function.update s.devs h none }

/-- The state machine and the reference of a device; the last one closes the PIO. -/
def releasePio (s : Bus) (sm : Option Nat) : Bus :=
  let s := match sm with
    | some n => s.setSm n fun m => { m with enabled := false, claimed := false }
    | none => s
  let s := { s with gPioRefs := s.gPioRefs - 1 }
  if s.gPioRefs = 0 then { s with sms := fun _ => .idle, gPio := false } else s

/-- `w25n_close` of a device with `d->pio` set or not, and `d->sm`. -/
def closeDev (s : Bus) (h : Nat) (pio : Bool) (sm : Option Nat) : Bus :=
  if pio then (s.unregister h).releasePio sm else s.unregister h

/-- The pins and the state machine of a new device. -/
def initPins (s : Bus) (p : Pins) (c : SmConfig) : Bus :=
  let s := (s.smInit p.sm c).setPinsWithMask (bit p.io2 ||| bit p.io3) (bit p.io2 ||| bit p.io3)
  let s := ((s.setPindir p.clk true).setPindir p.io0 true).setPindir p.io1 false
  ((s.setPindir p.io2 true).setPindir p.io3 true).smSetEnabled p.sm true

/-- `w25n_open` of a device at the address `h`; `false` is `NULL`. -/
def openDev (s : Bus) (h : Nat) (p : Pins) (clkdiv : Nat) (env : OpenEnv) : Bool × Bus :=
  if ¬ env.calloc then (false, s)
  else if ¬ env.chip ∨ ¬ env.claimCs then (false, s.closeDev h false none)
  else
    let s := s.setLine p.cs true
    if ¬ s.gPio ∧ ¬ env.pioOpen then (false, s.closeDev h false none)
    else
      let s := { s with gPio := true, gPioRefs := s.gPioRefs + 1 }
      if (s.sms p.sm).claimed ∨ ¬ env.smFree then (false, s.closeDev h true none)
      else
        let s := s.setSm p.sm fun m => { m with claimed := true }
        let d := Dev.buildConfigs
          { pins := p, sm := p.sm, clkdiv, mode := .none, useRxdma := env.useRxdma,
            noQuadDma := env.noQuadDma, quadDmaReady := false, cfg := fun pr => ⟨pr, p, 0⟩ }
        if env.useRxdma ∧ ¬ env.configXfer then (false, s.closeDev h true (some p.sm))
        else
          let s := s.initPins p (d.cfg .fdx)
          (true, { s with
            devs := Function.update s.devs h (some { d with mode := .fdx })
            gDevs := registerDev h s.gDevs })

end Bus

/-! ## Runs -/

/-- A call on an open device. -/
inductive DevCall
  | cmd (tx : List Byte) (rxlen : Nat)
  | programBegin (col : Nat) (data : List Byte) (env : Dev.TxEnv)
  | programCommit (polls page : Nat)
  | pageRead (polls page : Nat)
  | readBuf (col len : Nat)
  | quadReadBuf (col len : Nat)
  | setClkdiv (clkdiv : Nat)
  | blockErase (polls page : Nat)

def Dev.call (d : Dev) (s : Bus) (h : Nat) : DevCall → Dev × Bus
  | .cmd tx rxlen => d.cmd s tx rxlen
  | .programBegin col data env => (d.programBegin s h col data env).2
  | .programCommit n page => d.programCommit s n page
  | .pageRead n page => d.pageRead s n page
  | .readBuf col len => d.readBuf s col len
  | .quadReadBuf col len => d.quadReadBuf s col len
  | .setClkdiv c => d.setClkdiv s c
  | .blockErase n page => d.blockErase s n page

/-- A call, or a word driven between two calls. -/
inductive BusEvent
  | openDev (h : Nat) (p : Pins) (clkdiv : Nat) (env : OpenEnv)
  | closeDev (h : Nat)
  | call (h : Nat) (c : DevCall)
  | smStep (n : Nat)

namespace Bus

def step (s : Bus) : BusEvent → Bus
  | .openDev h p c env => (s.openDev h p c env).2
  | .closeDev h =>
    match s.devs h with
    | some d => s.closeDev h true (some d.sm)
    | none => s
  | .call h c =>
    match s.devs h with
    | some d =>
      let r := d.call s h c
      { r.2 with devs := Function.update r.2.devs h (some r.1) }
    | none => s
  | .smStep n => s.smStep n

def run (s : Bus) (es : List BusEvent) : Bus := es.foldl step s

/-- No device is open. -/
def start (latch dir line : Nat → Bool) (noQuad : Bool) : Bus where
  latch := latch
  dir := dir
  line := line
  sms := fun _ => .idle
  devs := fun _ => none
  gDevs := List.replicate 4 none
  gPio := false
  gPioRefs := 0
  noQuad := noQuad
  fdxOnly := true

end Bus

end NandServer
