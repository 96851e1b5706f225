import HsqOverNand.Server.Nand

/-!
# The flash CPU (`include/cpu.hpp`, `src/server/cpu.cpp`)

A `CPU` over any `NandInterface`. `CPU.new` is the constructor (`none` is an `exit(1)` or a failed
`assert`); `fetch` and `execute` are one instruction.

* Host words are little-endian in the ROM image.
* The GUI's shadow `mtd_data` is write-only here; `shadow` lists the ranges written to it.
-/

set_option autoImplicit false

namespace NandServer

open NandInterface

/-- `majorityVote` -/
def majorityVote (bits : Byte) : Bool :=
  3 < (List.range 8).countP fun i => (bits >>> i).getLsbD 0

/-! ## Microcode words -/

def Opcode.toBits : Opcode → BitVec 3
  | .mov => 0 | .invMov => 1 | .capIn => 2 | .getIn => 3
  | .prgNand => 4 | .pushOut => 5 | .raise => 6 | .erase => 7

def Opcode.ofBits (b : BitVec 3) : Opcode :=
  match b.toNat with
  | 0 => .mov | 1 => .invMov | 2 => .capIn | 3 => .getIn
  | 4 => .prgNand | 5 => .pushOut | 6 => .raise | _ => .erase

/-- The constructor's 64-bit word of an operation. -/
def packWord (o : RomT) : BitVec 64 :=
  (o.code.toBits.setWidth 64 <<< 61) + (o.dest.setWidth 64 <<< 40) + (o.src.setWidth 64 <<< 20) +
    o.next.setWidth 64

/-- `fetch`'s decoding of a word. -/
def unpackWord (inst : BitVec 64) : RomT where
  code := .ofBits ((inst >>> 61).setWidth 3)
  dest := ((inst >>> 40) &&& 0xfffff).setWidth 20
  src := ((inst >>> 20) &&& 0xfffff).setWidth 20
  next := ((inst >>> 0) &&& 0xfffff).setWidth 20

/-- Byte `k` of a word in memory. -/
def wordByte (w : BitVec 64) (k : Nat) : Byte := w.extractLsb' (8 * k) 8

/-- The word whose bytes in memory are `b`. -/
def leWord (b : Nat → Byte) : BitVec 64 :=
  (b 7 ++ b 6 ++ b 5 ++ b 4 ++ b 3 ++ b 2 ++ b 1 ++ b 0 : BitVec (8 + 8 + 8 + 8 + 8 + 8 + 8 + 8))

/-- `nand_internal`: the packed operations over a background of 0xff. -/
def romImage (rom : List RomT) : Vector Byte ROM_SIZE :=
  let ops := rom.toArray
  .ofFn fun i => match ops[i.val / 8]? with
    | some o => wordByte (packWord o) (i.val % 8)
    | none => 0xff

/-! ## The CPU -/

structure CPU (D : Type) where
  pc : Nat
  out : Vector (BitVec 64) LANES
  inA : Vector (BitVec 64) LANES
  inB : Vector (BitVec 64) LANES
  signal : Bool
  isJmp : Vector Bool LANES
  page : Vector Byte PAGE_SIZ
  rom : Vector Byte PAGE_SIZ
  romSize : Nat
  getinCnt : Nat
  pageOffset : Nat
  preOffset : Nat
  nandSize : Nat
  nand : D
  /-- The ranges `(start, length)` of `mtd_data` written so far. -/
  shadow : List (Nat × Nat)

/-- The byte of the page buffer an address stands for. -/
def slot (addr : Nat) : Fin PAGE_SIZ := ⟨addr % PAGE_SIZ, Nat.mod_lt _ (by decide)⟩

/-- `x % LANES` -/
def laneOf (x : Nat) : Fin LANES := ⟨x % LANES, Nat.mod_lt _ (by decide)⟩

/-- Start of the page that holds an address. -/
def pageStart (addr : Nat) : Nat := addr / PAGE_SIZ * PAGE_SIZ

namespace CPU

variable {D : Type}

/-- `phys`: the wear-levelled address. -/
def phys (c : CPU D) (addr : Nat) : Nat := if RAM ≤ addr then u32 (addr + c.pageOffset) else addr

def read (c : CPU D) (addr : Nat) : Byte := c.page.get (slot addr)

def editBuf (c : CPU D) (addr : Nat) (value : Byte) : CPU D :=
  let offset := pageStart (c.phys addr)
  let page := if offset ≠ c.preOffset then .replicate PAGE_SIZ 0xff else c.page
  { c with page := page.put (slot addr) value, preOffset := offset }

section
variable [NandInterface D]

/-- `erase`: the status of `nand.erase` only selects a message. -/
def erase (c : CPU D) : CPU D :=
  let r := NandInterface.erase c.nand RAM (usub c.nandSize RAM)
  { c with
    nand := r.2
    shadow := c.shadow ++ [(0, MTD_SHADOW_SIZE)]
    pageOffset := 0
    page := .replicate PAGE_SIZ 0xff }

/-- Position in `mtd_data` of a calculation page. -/
def shadowPos (offset : Nat) : Nat :=
  usub offset RAM / PAGE_SIZ % (MTD_SHADOW_SIZE / PAGE_SIZ) * PAGE_SIZ

def write (c : CPU D) (addr : Nat) : CPU D :=
  let offset := pageStart (c.phys addr)
  let w := NandInterface.write c.nand offset c.page
  let r := NandInterface.read w.2 offset c.page
  { c with
    nand := r.2.2
    page := r.2.1
    shadow := c.shadow ++ [(shadowPos offset, PAGE_SIZ)] }

/-- The refill of the `rom` buffer at a page boundary. -/
def refill (c : CPU D) : CPU D :=
  if c.pc % PAGE_SIZ = 0 then
    let r := NandInterface.read c.nand c.pc c.rom
    { c with rom := r.2.1, nand := r.2.2 }
  else c

/-- The word at `rom[pc % PAGE_SIZ]`; past the buffer's end its bytes are unspecified. -/
def romWord (c : CPU D) : BitVec 64 :=
  leWord fun k => if h : c.pc % PAGE_SIZ + k < PAGE_SIZ then c.rom[c.pc % PAGE_SIZ + k] else 0

def fetch (c : CPU D) : RomT × CPU D := (unpackWord c.refill.romWord, c.refill)

/-- All eight bits at `b`. -/
def fill (b : Bool) : Byte := if b then 0xff else 0x00

/-- The lane of `GET_IN` number `n`: `n / DIGIT`, at most the last. -/
def getinLane (n : Nat) : Fin LANES :=
  if h : n / DIGIT < LANES then ⟨n / DIGIT, h⟩ else ⟨LANES - 1, by decide⟩

/-- The `GET_IN` case. -/
def getIn (c : CPU D) (dest src : Nat) : CPU D :=
  let lane := getinLane c.getinCnt
  let c := { c with getinCnt := u32 (c.getinCnt + 1) }
  let c := c.editBuf src (fill ((c.inA.get lane).getLsbD 0))
  let c := { c with inA := c.inA.put lane (c.inA.get lane >>> 1) }
  let c := c.editBuf dest (fill ((c.inB.get lane).getLsbD 0))
  { c with inB := c.inB.put lane (c.inB.get lane >>> 1) }

/-- The `PUSH_OUT` case. -/
def pushOut (c : CPU D) (dest src : Nat) : CPU D :=
  let lane := laneOf dest
  let bit := BitVec.ofNat 64 (majorityVote (c.read src)).toNat
  { c with out := c.out.put lane (c.out.get lane >>> 1 ||| bit <<< (DIGIT - 1)) }

/-- The `RAISE` case: the last lane ends the round and moves on to the next physical page. -/
def raise (c : CPU D) (dest src : Nat) : CPU D :=
  let c := { c with isJmp := c.isJmp.put (laneOf dest) (majorityVote (c.read src)) }
  if dest % LANES = LANES - 1 then
    let c := { c with signal := true, pageOffset := u32 (c.pageOffset + PAGE_SIZ) }
    if u32 (u32 (RAM + c.pageOffset) + PAGE_SIZ) > c.nandSize then c.erase else c
  else c

/-- `execute`'s `switch`. -/
def dispatch (c : CPU D) (code : Opcode) (dest src : Nat) : CPU D :=
  match code with
  | .mov => c.editBuf dest (c.read src)
  | .invMov => c.editBuf dest (~~~ c.read src)
  | .capIn => { c with getinCnt := 0 }
  | .getIn => c.getIn dest src
  | .prgNand => c.write dest
  | .pushOut => c.pushOut dest src
  | .raise => c.raise dest src
  | .erase => c.erase

def execute (c : CPU D) (rom : RomT) : CPU D :=
  { ({ c with signal := false }).dispatch rom.code rom.dest.toNat rom.src.toNat with
    pc := rom.next.toNat }

/-- `cpu.execute(cpu.fetch())` -/
def instr (c : CPU D) : CPU D := c.fetch.2.execute c.fetch.1

/-- `for(k = 0; k < n; k++) { execute(fetch()); if(signal) break; }`, with the number of
instructions executed. -/
def runUntilSignal : Nat → CPU D → Nat × CPU D
  | 0, c => (0, c)
  | n + 1, c =>
    if c.instr.signal then (1, c.instr)
    else (fun r => (r.1 + 1, r.2)) (runUntilSignal n c.instr)

/-- The members before the constructor's `erase()`. -/
def init (romSize : Nat) (nand : D) : CPU D where
  pc := 0
  out := .replicate LANES 0
  inA := .replicate LANES 0
  inB := .replicate LANES 0
  signal := false
  isJmp := .replicate LANES false
  page := .replicate PAGE_SIZ 0
  rom := .replicate PAGE_SIZ 0
  romSize := romSize
  getinCnt := 0
  pageOffset := 0
  preOffset := 0
  nandSize := size nand
  nand := nand
  shadow := []

/-- The erase of a ROM area whose contents `verify` are neither the image nor blank. -/
def eraseOld (image verify : Vector Byte ROM_SIZE) (dev : D) : Option D :=
  if verify ≠ image ∧ ¬ verify.all (· = 0xff) then
    let e := NandInterface.erase dev 0 ROM_SIZE
    if e.1 then some e.2 else none
  else some dev

/-- The constructor: `g` are the globals `rom_init` resets, `garbage` what `new` returns for
`verify`. -/
def new (g : Globals) (garbage : Vector Byte ROM_SIZE) (dev : D) : Option (CPU D × Globals) := do
  let (rom, g) ← romInit g
  let image := romImage rom
  if ROM_SIZE < rom.length * 8 then none
  else
    let r := NandInterface.read dev 0 garbage
    let dev ← eraseOld image r.2.1 r.2.2
    let w := NandInterface.write dev 0 image
    let v := NandInterface.read w.2 0 r.2.1
    if v.2.1 ≠ image then none
    else
      some ((init rom.length v.2.2).erase, g)

end

end CPU

end NandServer
