import Mathlib.Data.Fintype.Order
import Mathlib.Tactic.Ring

/-!
# The microcode generator (`include/ROM.hpp`, `src/server/ROM.cpp`)

A netlist of flash cells is built (`Netlist.input`, `cell`, `wire` and the gates over them),
every write gets a step (`Netlist.schedule`) and the steps are emitted in order as microcode
(`buildRound`). One lane (`buildLane`) is a borrow look-ahead subtractor.

* A failed `assert` of the source is `none`, so a builder is a `Build` (state `Netlist`, which also
  carries the global `calcAddr` the cells draw their addresses from).
* A C array passed by pointer (`const Sig* G`) is a function from indices.
* `uint32_t` values are `Nat` under `u32`; `int` values are `Int`.
* The `reserved` bit of `ROM_t` is written as 0 and read nowhere; it is left out.
-/

set_option autoImplicit false

namespace NandServer

/-- A `uint32_t` result. -/
def u32 (n : Nat) : Nat := n % 2 ^ 32

/-- A `uint32_t` difference of two `uint32_t` values. -/
def usub (a b : Nat) : Nat := u32 (a + 2 ^ 32 - b)

theorem u32_of_lt {n : Nat} (h : n < 2 ^ 32) : u32 n = n := Nat.mod_eq_of_lt h

theorem usub_of_le {a b : Nat} (h : b ≤ a) (ha : a < 2 ^ 32) : usub a b = a - b := by
  unfold usub u32
  omega

abbrev Byte := BitVec 8

/-! ## `ROM.hpp` -/

abbrev ROM_SIZE : Nat := 0xa0000
abbrev RAM : Nat := ROM_SIZE
abbrev DIGIT : Nat := 64
abbrev PAGE_SIZ : Nat := 2048
abbrev MTD_SHADOW_SIZE : Nat := 250000
abbrev LANES : Nat := 2

inductive Opcode
  | mov | invMov | capIn | getIn | prgNand | pushOut | raise | erase
  deriving DecidableEq, Repr, Inhabited

/-- `ROM_t`: one microcode word, as bit fields. -/
structure RomT where
  code : Opcode
  dest : BitVec 20
  src : BitVec 20
  next : BitVec 20
  deriving DecidableEq, Repr, Inhabited

/-! ## Globals and `push_op` -/

structure Globals where
  romAddr : Nat
  calcAddr : Nat
  deriving Repr

/-- The operations emitted so far, with the global `romAddr`. -/
structure RomBuf where
  rom : List RomT
  romAddr : Nat

/-- `operation`'s constructor takes `next` from `incAddr()`, the address of the word after it. -/
def pushOp (b : RomBuf) (op : Opcode) (dest src : Nat) : RomBuf where
  rom := b.rom ++ [⟨op, .ofNat 20 dest, .ofNat 20 src, .ofNat 20 (u32 (b.romAddr + 8))⟩]
  romAddr := u32 (b.romAddr + 8)

/-! ## Netlists -/

/-- A signal: a cell read in one polarity. -/
structure Sig where
  cell : Nat
  inv : Bool
  deriving DecidableEq, Repr, Inhabited

/-- `NOT`. -/
def Sig.not (s : Sig) : Sig := { s with inv := !s.inv }

structure Write where
  src : Sig
  step : Int
  deriving DecidableEq, Repr, Inhabited

structure Cell where
  addr : Nat
  ins : List Write
  /-- The step after which the value is final; -1 while unscheduled. -/
  complete : Int
  deriving DecidableEq, Repr, Inhabited

/-- `Netlist`, and the global `calcAddr`. -/
structure Netlist where
  cells : List Cell
  calcAddr : Nat
  deriving Repr

/-- A builder call: `none` is a failed `assert`. -/
abbrev Build := StateT Netlist Option

def cassert (c : Prop) [Decidable c] : Build Unit := if c then pure () else failure

namespace Netlist

/-- `cells[i]` -/
def cellAt (net : Netlist) (i : Nat) : Cell := net.cells.getD i default

/-- `cells.push_back({getCalcAddr(), {}, complete}); return cells.size() - 1;` -/
def pushCell (complete : Int) : Build Nat :=
  modifyGet fun net => (net.cells.length,
    { cells := net.cells ++ [⟨net.calcAddr, [], complete⟩], calcAddr := u32 (net.calcAddr + 1) })

/-- An input cell gets its value at step 1. -/
def input : Build Nat := pushCell 1

def cell : Build Nat := pushCell (-1)

def wire (dst : Nat) (src : Sig) (inv : Bool) : Build Unit :=
  modify fun net => { net with
    cells := net.cells.modify dst fun c =>
      { c with ins := c.ins ++ [⟨⟨src.cell, src.inv != inv⟩, -1⟩] } }

/-- `addrOf` (`assert(!s.inv)`). -/
def addrOf (net : Netlist) (s : Sig) : Option Nat :=
  if s.inv = false then some (net.cellAt s.cell).addr else none

def andOf (xs : List Sig) : Build Sig := do
  cassert (xs ≠ [])
  match xs with
  | [x] => pure x
  | xs => do
    let t ← cell
    xs.forM fun x => wire t x false
    pure ⟨t, false⟩

/-- De Morgan: the cell holds the NOR, its inverted reading is the OR. -/
def orOf (xs : List Sig) : Build Sig := do
  cassert (2 ≤ xs.length)
  let t ← cell
  xs.forM fun x => wire t x.not false
  pure ⟨t, true⟩

def xorOf (a b : Sig) : Build Sig := do
  let hi ← andOf [a, b]
  let lo ← andOf [a.not, b.not]
  let o ← orOf [hi, lo]
  pure o.not

def buf (s : Sig) : Build Sig :=
  if s.inv = false then pure s
  else do
    let t ← cell
    wire t s false
    pure ⟨t, false⟩

/-! ### `Netlist::schedule` -/

/-- `readers[c]`: the reading cells, once per wire, in the order of the two loops. -/
def readers (cells : List Cell) (c : Nat) : List Nat :=
  cells.zipIdx.flatMap fun p => (p.1.ins.filter fun w => w.src.cell = c).map fun _ => p.2

/-- The `assert`s of the first loop: an input (`complete == 1`) has no wire, any other cell one. -/
def shapeOk (cells : List Cell) : Bool :=
  cells.all fun c => if c.complete = 1 then c.ins.isEmpty else !c.ins.isEmpty

structure SchedState where
  cells : List Cell
  pend : List Int
  q : List Nat
  done : Nat
  maxStep : Int

/-- The state before the `while` loop. -/
def schedInit (cells : List Cell) : SchedState where
  cells := cells
  pend := cells.map fun c => (c.ins.length : Int)
  q := (cells.zipIdx.filter fun p => p.1.complete = 1).map (·.2)
  done := 0
  maxStep := 1

/-- `cells[w.src.cell].complete` -/
def srcComplete (cells : List Cell) (w : Write) : Int := (cells.getD w.src.cell default).complete

/-- The step loop over sorted writes: `t = max(complete, t) + 1`. -/
def assignSteps (complete : Write → Int) : Int → List Write → List Write × Int
  | t, [] => ([], t)
  | t, w :: ws =>
    let t' := max (complete w) t + 1
    let r := assignSteps complete t' ws
    ({ w with step := t' } :: r.1, r.2)

/-- A cell popped with all its sources final: sorted writes with steps, and its completion. -/
def scheduleCell (cells : List Cell) (c : Cell) : Cell :=
  let sorted := c.ins.mergeSort fun l r => decide (srcComplete cells l ≤ srcComplete cells r)
  let r := assignSteps (srcComplete cells) 1 sorted
  { c with ins := r.1, complete := r.2 }

/-- `if(--pend[r] == 0) q.push_back(r);` for each reader. -/
def notify : List Nat → List Int × List Nat → List Int × List Nat
  | [], pq => pq
  | r :: rs, (pend, q) =>
    let pend' := pend.modify r (· - 1)
    notify rs (pend', if pend'.getD r 0 = 0 then q ++ [r] else q)

/-- The body of the `while` loop, after `c = q.front(); q.pop_front();`. -/
def schedBody (rd : Nat → List Nat) (s : SchedState) (c : Nat) (q : List Nat) : SchedState :=
  let cl := s.cells.getD c default
  let cl' := if cl.complete < 0 then scheduleCell s.cells cl else cl
  let pq := notify (rd c) (s.pend, q)
  { cells := s.cells.set c cl'
    pend := pq.1
    q := pq.2
    done := s.done + 1
    maxStep := if cl.complete < 0 then max s.maxStep cl'.complete else s.maxStep }

/-- The `while` loop, for at most `fuel` iterations. -/
def schedLoop (rd : Nat → List Nat) : Nat → SchedState → SchedState
  | 0, s => s
  | fuel + 1, s =>
    match s.q with
    | [] => s
    | c :: q => schedLoop rd fuel (schedBody rd s c q)

/-- `schedule()`: the netlist with its steps, and the last step. A cell enters the queue at most
once, so `cells.size()` iterations empty it (`schedLoop_q`). -/
def schedule (net : Netlist) : Option (Netlist × Int) :=
  let n := net.cells.length
  if shapeOk net.cells then
    let s := schedLoop (readers net.cells) n (schedInit net.cells)
    if s.done = n then some ({ net with cells := s.cells }, s.maxStep) else none
  else none

end Netlist

/-! ## One lane -/

open Netlist

/-- Borrow into relative position `k`: `g_{k-1} | p_{k-1}g_{k-2} | ... | p_{k-1}..p_0*bin`. -/
def claBorrow (G P : Nat → Sig) (borIn : Sig) (k : Nat) : Build Sig :=
  if k = 0 then pure borIn
  else do
    let terms ← (List.range k).reverse.mapM fun j =>
      andOf ((List.range' (j + 1) (k - 1 - j)).reverse.map P ++ [G j])
    let last ← andOf ((List.range k).reverse.map P ++ [borIn])
    orOf (terms ++ [last])

/-- Group generate and propagate of four signals. -/
def claGroup (G P : Nat → Sig) : Build (Sig × Sig) := do
  let terms ← (List.range 4).reverse.mapM fun j =>
    andOf ((List.range' (j + 1) (3 - j)).reverse.map P ++ [G j])
  let gg ← orOf terms
  let gp ← andOf [P 3, P 2, P 1, P 0]
  pure (gg, gp)

/-- The cells and signals `build_lane` hands back. -/
structure Lane where
  ain : Nat → Nat
  bin : Nat → Nat
  sum : Nat → Sig
  isJmp : Sig

/-- An array filled by a loop. -/
def arr {α : Type} [Inhabited α] (xs : List α) (i : Nat) : α := xs.getD i default

/-- The borrows into the bits: groups of 4 bits, super-groups of 4 groups, 4 super-groups. -/
def laneBorrow (digit : Nat) (g p : Nat → Sig) (zero : Sig) : Build (Nat → Sig) := do
  let grp1 ← (List.range (digit / 4)).mapM fun k =>
    claGroup (fun j => g (4 * k + j)) (fun j => p (4 * k + j))
  let gg1 := fun k => (arr grp1 k).1
  let gp1 := fun k => (arr grp1 k).2
  let grp2 ← (List.range (digit / 16)).mapM fun s =>
    claGroup (fun j => gg1 (4 * s + j)) (fun j => gp1 (4 * s + j))
  let gg2 := fun s => (arr grp2 s).1
  let gp2 := fun s => (arr grp2 s).2
  let bsup ← (List.range (digit / 16)).mapM fun s => claBorrow gg2 gp2 zero s
  -- the loops over `s` and `t` fill `bgrp[4 * s + t]` in order
  let bgrp ← (List.range (4 * (digit / 16))).mapM fun i =>
    claBorrow (fun j => gg1 (4 * (i / 4) + j)) (fun j => gp1 (4 * (i / 4) + j))
      (arr bsup (i / 4)) (i % 4)
  pure (arr bgrp)

/-- `ain[i] = net.input(); bin[i] = net.input();` -/
def laneInput : Build (Nat × Nat) := do
  let a ← input
  let b ← input
  pure (a, b)

/-- `build_lane`, for the width `digit` (`static_assert(digit % 16 == 0 && digit / 16 <= 4)`). -/
def buildLane (digit : Nat) : Build Lane := do
  let ab ← (List.range digit).mapM fun _ => laneInput
  let ain := fun i => (arr ab i).1
  let bin := fun i => (arr ab i).2
  let zero ← andOf [⟨bin 0, false⟩, ⟨bin 0, true⟩]
  let xg ← (List.range digit).mapM fun i => do
    let x ← xorOf ⟨ain i, false⟩ ⟨bin i, false⟩
    let g ← andOf [⟨ain i, false⟩, Sig.not ⟨bin i, false⟩]
    pure (x, g)
  let x := fun i => (arr xg i).1
  let g := fun i => (arr xg i).2
  let p := fun i => (x i).not
  let bgrp ← laneBorrow digit g p zero
  -- the loops over `k` and `u` visit bit `4 * k + u` in order and skip bit 0
  let sum ← (List.range (4 * (digit / 4))).mapM fun i =>
    if i = 0 then pure (x 0)
    else do
      let bor ← claBorrow (fun j => g (4 * (i / 4) + j)) (fun j => p (4 * (i / 4) + j))
        (bgrp (i / 4)) (i % 4)
      xorOf (x i) bor
  let accs ← (List.range (digit / 8)).mapM fun k => do
    let acc ← cell
    (List.range' (8 * k) 8).forM fun i => wire acc (arr sum i) true
    pure (⟨acc, false⟩ : Sig)
  let allZero ← andOf accs
  let neg ← orOf [allZero, arr sum (digit - 1)]
  let isJmp ← buf neg
  pure { ain, bin, sum := arr sum, isJmp }

/-! ## One round -/

/-- An operation before it gets its address: opcode, `dest`, `from`. -/
abbrev Emit := Opcode × Nat × Nat

/-- The moves of step `s`, cell by cell. -/
def stepMoves (cells : List Cell) (s : Int) : List Emit :=
  cells.flatMap fun cl => (cl.ins.filter fun w => w.step = s).map fun w =>
    (if w.src.inv then .invMov else .mov, cl.addr, (cells.getD w.src.cell default).addr)

/-- Steps `2..steps`, each closed by a `PRG_NAND`. -/
def emitSteps (cells : List Cell) (pageBase : Nat) (steps : Int) : List Emit :=
  (List.range' 2 (steps.toNat - 1)).flatMap fun s : Nat =>
    stepMoves cells (s : Int) ++ [(.prgNand, pageBase, 0)]

/-- The `GET_IN`s: lane by lane, low bits first. -/
def emitInputs (cells : List Cell) (lanes : List Lane) : List Emit :=
  lanes.flatMap fun ln => (List.range DIGIT).map fun i =>
    (.getIn, (cells.getD (ln.bin i) default).addr, (cells.getD (ln.ain i) default).addr)

/-- `PUSH_OUT` and `RAISE` carry the lane number in `dest`. -/
def emitOutputs (net : Netlist) (lanes : List Lane) : Option (List Emit) := do
  let outs ← lanes.zipIdx.mapM fun p => (List.range DIGIT).mapM fun i => do
    let a ← net.addrOf (p.1.sum i)
    pure (Opcode.pushOut, p.2, a)
  let raises ← lanes.zipIdx.mapM fun p => do
    let a ← net.addrOf p.1.isJmp
    pure (Opcode.raise, p.2, a)
  pure (outs.flatten ++ raises)

/-- The `LANES` subtractors of a round, from an empty netlist at address `pageBase`. -/
def buildLanes (pageBase : Nat) : Option (List Lane × Netlist) :=
  ((List.range LANES).mapM fun _ => buildLane DIGIT).run ⟨[], pageBase⟩

/-- `build_round`: the emitted operations and the global `calcAddr` afterwards. -/
def buildRound (calcAddr : Nat) : Option (List Emit × Nat) := do
  let pageBase := u32 (u32 (calcAddr + PAGE_SIZ - 1) / PAGE_SIZ * PAGE_SIZ)
  let (lanes, net) ← buildLanes pageBase
  let (net, steps) ← net.schedule
  if usub net.calcAddr pageBase ≤ PAGE_SIZ then do
    let outs ← emitOutputs net lanes
    pure ([(.capIn, 0, 0)] ++ emitInputs net.cells lanes ++ [(.prgNand, pageBase, 0)] ++
      emitSteps net.cells pageBase steps ++ outs, net.calcAddr)
  else none

/-- `rom_init`: resets the globals, emits one round and sends the last operation back to 0. -/
def romInit (_g : Globals) : Option (List RomT × Globals) := do
  let (ops, calcAddr) ← buildRound RAM
  let b := ops.foldl (fun b o => pushOp b o.1 o.2.1 o.2.2) ⟨[], 0⟩
  if b.rom.length * 8 ≤ ROM_SIZE then
    pure (b.rom.modify (b.rom.length - 1) fun o => { o with next := 0 }, ⟨b.romAddr, calcAddr⟩)
  else none

end NandServer
