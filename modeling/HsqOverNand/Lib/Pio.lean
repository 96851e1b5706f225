import Mathlib.Logic.Function.Iterate

/-!
# A state machine of a PIO

The part of it that programs of `OUT PINS`, `IN PINS` and `MOV Y, Y` (a nop) use, with one side-set pin and
no delays: shift registers with autopull and autopush, the two FIFOs, the wrap. `cycle` is one cycle on
given levels of the pins, `drive` what the pins hold after it.

* An `OUT` with an empty register stalls, also in the cycle that refills it; an `IN` that has to push
  stalls while the FIFO is full. The side-set pin is driven in a stall as well.
* With bits on the left of their register (`outData_left`, `inData_left`) a word goes out, and comes in,
  its highest bit first: `inData_bit` takes it bit by bit.
-/

set_option autoImplicit false

namespace Pio

abbrev Word := BitVec 32

/-! ## Instructions -/

inductive Op
  | out (n : Nat)
  | inp (n : Nat)
  | nop
  deriving DecidableEq, Repr

structure Instr where
  op : Op
  side : Bool
  deriving DecidableEq, Repr

/-- The bit count of an `IN` or `OUT`. -/
def bitCount (i : BitVec 16) : Nat := if (i &&& 0x1f).toNat = 0 then 32 else (i &&& 0x1f).toNat

/-- An instruction with a side-set bit and no delay; `none` is any other one. -/
def decode (i : BitVec 16) : Option Instr :=
  let side := i.getLsbD 12
  if i &&& 0xefe0 = 0x6000 then some ⟨.out (bitCount i), side⟩
  else if i &&& 0xefe0 = 0x4000 then some ⟨.inp (bitCount i), side⟩
  else if i &&& 0xefff = 0xa042 then some ⟨.nop, side⟩
  else none

/-! ## The state machine -/

structure Config where
  wrapTarget : Nat
  wrap : Nat
  sidePin : Nat
  outBase : Nat
  outCount : Nat
  inBase : Nat
  /-- The shift directions. -/
  outRight : Bool
  inRight : Bool
  autopull : Bool
  autopush : Bool
  pullThresh : Nat
  pushThresh : Nat

structure Sm where
  pc : Nat
  osr : Word
  /-- The bits shifted out of `osr`, and into `isr`. -/
  osrCount : Nat
  isr : Word
  isrCount : Nat
  tx : List Word
  rx : List Word

/-- After a restart, with a jump to `pc`. -/
def Sm.start (pc : Nat) : Sm := ⟨pc, 0, 32, 0, 0, [], []⟩

namespace Config

variable (c : Config)

def next (pc : Nat) : Nat := if pc = c.wrap then c.wrapTarget else pc + 1

/-- The bits of an `OUT`, and what is left. -/
def outData (n : Nat) (osr : Word) : Word :=
  if c.outRight then osr <<< (32 - n) >>> (32 - n) else osr >>> (32 - n)

def outRest (n : Nat) (osr : Word) : Word := if c.outRight then osr >>> n else osr <<< n

/-- `n` pins from `inBase` on. -/
def sample (levels : Nat → Bool) : Nat → Word
  | 0 => 0
  | n + 1 => sample levels n ||| if levels ((c.inBase + n) % 32) then 1 <<< n else 0

def inData (n : Nat) (bits isr : Word) : Word :=
  if c.inRight then (isr >>> n) ||| (bits <<< (32 - n)) else (isr <<< n) ||| bits

def empty (s : Sm) : Bool := c.autopull && decide (c.pullThresh ≤ s.osrCount)

/-- Autopull. -/
def refill (s : Sm) : Sm :=
  match s.tx with
  | [] => s
  | w :: tx => if c.empty s then { s with osr := w, osrCount := 0, tx := tx } else s

/-- One cycle: the word for the OUT pins, if they are driven, and the state machine. -/
def cycle (depth : Nat) (op : Op) (levels : Nat → Bool) (s : Sm) : Option Word × Sm :=
  match op with
  | .out n =>
    if c.empty s then (none, c.refill s)
    else (some (c.outData n s.osr), c.refill
      { s with pc := c.next s.pc, osr := c.outRest n s.osr, osrCount := min 32 (s.osrCount + n) })
  | .inp n =>
    let s := c.refill s
    let isr := c.inData n (c.sample levels n) s.isr
    let count := min 32 (s.isrCount + n)
    if c.autopush ∧ c.pushThresh ≤ count then
      if s.rx.length < depth then
        (none, { s with pc := c.next s.pc, isr := 0, isrCount := 0, rx := s.rx ++ [isr] })
      else (none, s)
    else (none, { s with pc := c.next s.pc, isr := isr, isrCount := count })
  | .nop => (none, { c.refill s with pc := c.next s.pc })

/-- The pins after a cycle; the side-set pin has precedence. -/
def drive (side : Bool) (data : Option Word) (latch : Nat → Bool) (g : Nat) : Bool :=
  if g = c.sidePin then side
  else
    match data with
    | none => latch g
    | some w =>
      if g < 32 ∧ (g + 32 - c.outBase) % 32 < c.outCount then w.getLsbD ((g + 32 - c.outBase) % 32)
      else latch g

variable {c}

@[simp] theorem drive_side (side : Bool) (data : Option Word) (latch : Nat → Bool) :
    c.drive side data latch c.sidePin = side := if_pos rfl

theorem drive_none {side : Bool} {latch : Nat → Bool} {g : Nat} (hg : g ≠ c.sidePin) :
    c.drive side none latch g = latch g := if_neg hg

theorem drive_out {side : Bool} {w : Word} {latch : Nat → Bool} {g : Nat} (hg : g ≠ c.sidePin)
    (hlow : g < 32) (h : (g + 32 - c.outBase) % 32 < c.outCount) :
    c.drive side (some w) latch g = w.getLsbD ((g + 32 - c.outBase) % 32) :=
  (if_neg hg).trans (if_pos ⟨hlow, h⟩)

/-- A pin that is neither the side-set pin nor driven by the data. -/
theorem drive_keeps {side : Bool} {data : Option Word} {latch : Nat → Bool} {g : Nat} (hg : g ≠ c.sidePin)
    (h : data ≠ none → ¬ (g < 32 ∧ (g + 32 - c.outBase) % 32 < c.outCount)) :
    c.drive side data latch g = latch g := by
  cases data with
  | none => exact drive_none hg
  | some w => exact (if_neg hg).trans (if_neg (h (Option.some_ne_none w)))

theorem empty_eq_false {s : Sm} (h : s.osrCount < c.pullThresh) : c.empty s = false := by
  unfold empty
  rw [decide_eq_false (Nat.not_le.2 h), Bool.and_false]

theorem refill_nil {s : Sm} (h : s.tx = []) : c.refill s = s := by
  unfold refill
  rw [h]

theorem refill_full {s : Sm} (h : c.empty s = false) : c.refill s = s := by
  unfold refill
  split
  · rfl
  · rw [h, if_neg Bool.false_ne_true]

theorem sample_one {levels : Nat → Bool} {g : Nat} (hg : c.inBase = g) (hlow : g < 32) :
    c.sample levels 1 = (BitVec.ofBool (levels g)).setWidth 32 := by
  unfold sample sample
  rw [Nat.add_zero, hg, Nat.mod_eq_of_lt hlow]
  cases levels g with
  | false => rfl
  | true => rfl

/-! ### What a cycle does -/

section
variable {depth n : Nat} {levels : Nat → Bool} {s : Sm}

theorem cycle_stall (h : c.empty s = true) (ht : s.tx = []) :
    c.cycle depth (.out n) levels s = (none, s) := by
  simp only [cycle, h, if_true, refill_nil ht]

/-- A drained state machine drives nothing, and stays drained. -/
theorem cycle_drained (op : Op) (h : c.empty s = true) (ht : s.tx = []) :
    (c.cycle depth op levels s).1 = none ∧ (c.cycle depth op levels s).2.osrCount = s.osrCount ∧
      (c.cycle depth op levels s).2.tx = [] := by
  cases op with
  | out n =>
    rw [cycle_stall h ht]
    exact ⟨rfl, rfl, ht⟩
  | inp n =>
    unfold cycle
    rw [refill_nil ht]
    dsimp only
    split
    · split
      · exact ⟨rfl, rfl, ht⟩
      · exact ⟨rfl, rfl, ht⟩
    · exact ⟨rfl, rfl, ht⟩
  | nop =>
    unfold cycle
    rw [refill_nil ht]
    exact ⟨rfl, rfl, ht⟩

theorem cycle_pull (h : c.empty s = true) {w : Word} {tx : List Word} (ht : s.tx = w :: tx) :
    c.cycle depth (.out n) levels s = (none, { s with osr := w, osrCount := 0, tx := tx }) := by
  unfold cycle refill
  simp only [ht, h, if_true]

theorem cycle_out (h : c.empty s = false) (hn : s.osrCount + n ≤ 32) :
    c.cycle depth (.out n) levels s = (some (c.outData n s.osr), c.refill
      { s with pc := c.next s.pc, osr := c.outRest n s.osr, osrCount := s.osrCount + n }) := by
  unfold cycle
  simp only [h, Bool.false_eq_true, if_false, Nat.min_eq_right hn]

/-- An `IN` of one bit from the pin `g`, to the left, that does not fill the register. -/
theorem cycle_in {g : Nat} (hg : c.inBase = g) (hlow : g < 32) (hleft : c.inRight = false)
    (hr : c.refill s = s) (hn : s.isrCount + 1 < c.pushThresh) (hthresh : c.pushThresh ≤ 32) :
    c.cycle depth (.inp 1) levels s = (none, { s with
      pc := c.next s.pc, isr := s.isr <<< 1 ||| (BitVec.ofBool (levels g)).setWidth 32,
      isrCount := s.isrCount + 1 }) := by
  have hmin : min 32 (s.isrCount + 1) = s.isrCount + 1 := by omega
  unfold cycle
  simp [hr, hmin, Nat.not_le.2 hn, inData, hleft, sample_one hg hlow]

/-- One that fills it. -/
theorem cycle_push {g : Nat} (hg : c.inBase = g) (hlow : g < 32) (hleft : c.inRight = false)
    (hpush : c.autopush = true) (hr : c.refill s = s) (hn : s.isrCount + 1 = c.pushThresh)
    (hthresh : c.pushThresh ≤ 32) (hroom : s.rx.length < depth) :
    c.cycle depth (.inp 1) levels s = (none, { s with
      pc := c.next s.pc, isr := 0, isrCount := 0,
      rx := s.rx ++ [s.isr <<< 1 ||| (BitVec.ofBool (levels g)).setWidth 32] }) := by
  have hmin : min 32 c.pushThresh = c.pushThresh := Nat.min_eq_right hthresh
  unfold cycle
  simp [hr, hn, hmin, hpush, hroom, inData, hleft, sample_one hg hlow]

/-- One that would fill it, with the FIFO full. -/
theorem cycle_full (hpush : c.autopush = true) (hr : c.refill s = s) (hn : s.isrCount + 1 = c.pushThresh)
    (hthresh : c.pushThresh ≤ 32) (hroom : ¬ s.rx.length < depth) :
    c.cycle depth (.inp 1) levels s = (none, s) := by
  have hmin : min 32 c.pushThresh = c.pushThresh := Nat.min_eq_right hthresh
  unfold cycle
  simp only [hr, hn, hmin, hpush, Nat.le_refl, and_self, if_true, if_neg hroom]

theorem cycle_nop : c.cycle depth .nop levels s = (none, { c.refill s with pc := c.next s.pc }) := rfl

end

end Config

/-! ## A word, bit by bit -/

/-- The highest `k + 1` bits of a word, from the highest `k` and the next one. -/
theorem ushiftRight_bit {w : Nat} (x : BitVec w) (j : Nat) :
    (x >>> (j + 1)) <<< 1 ||| (BitVec.ofBool (x.getLsbD j)).setWidth w = x >>> j := by
  apply BitVec.eq_of_getLsbD_eq
  intro i hi
  rw [BitVec.getLsbD_or, BitVec.getLsbD_shiftLeft, BitVec.getLsbD_ushiftRight, BitVec.getLsbD_setWidth,
    BitVec.getLsbD_ofBool, BitVec.getLsbD_ushiftRight]
  cases i with
  | zero => simp [hi]
  | succ i => simp [hi, show j + 1 + i = j + (i + 1) by omega]

/-- The highest bit of what is left after `k` bits. -/
theorem shiftLeft_top (x : Word) (k : Nat) (hk : k < 32) :
    (x <<< k) >>> 31 = (BitVec.ofBool (x.getLsbD (31 - k))).setWidth 32 := by
  apply BitVec.eq_of_getLsbD_eq
  intro i hi
  rw [BitVec.getLsbD_ushiftRight, BitVec.getLsbD_shiftLeft, BitVec.getLsbD_setWidth, BitVec.getLsbD_ofBool]
  cases i with
  | zero => simp [show ¬ 31 < k by omega]
  | succ i =>
    simp
    omega

end Pio
