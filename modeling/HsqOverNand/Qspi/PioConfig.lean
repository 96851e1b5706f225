import HsqOverNand.Lib.BitField
import HsqOverNand.Qspi.Rig

/-!
# The configuration of a state machine (`vendor/piolib/pio_rp1.c`, `rp1_smc_set_out_pins` to `rp1_smc_set_mov_status`)

A configuration is four registers with packed fields (`proc_pio.h`). `last_call_read`: after any calls each field
has the value of the last call that sets it. `buildConfigs_config`: the calls of `build_configs` leave, for each
program, the configuration that the cycles of `Rig.lean` use.

* `float div` is left out: a call has the `div_int` and `div_frac` computed from it.
-/

set_option autoImplicit false

namespace NandServer

open BitField (Field)

/-! ## The registers -/

abbrev RP1_PIO_GPIO_COUNT : Nat := 28
abbrev RP1_PIO_INSTRUCTION_COUNT : Nat := 32

/-- The members of `rp1_pio_sm_config`. -/
inductive Reg
  | clkdiv | execctrl | shiftctrl | pinctrl
  deriving DecidableEq

/-- `PROC_PIO_SM0_..` -/
inductive RegField
  | clkdivInt | clkdivFrac
  | sideEn | sidePindir | jmpPin | outEnSel | inlineOutEn | outSticky | wrapTop | wrapBottom | statusSel | statusN
  | fjoin | pullThresh | pushThresh | outShiftdir | inShiftdir | autopull | autopush
  | sidesetCount | setCount | outCount | inBase | sidesetBase | setBase | outBase
  deriving DecidableEq

namespace RegField

def reg : RegField → Reg
  | clkdivInt | clkdivFrac => .clkdiv
  | sideEn | sidePindir | jmpPin | outEnSel | inlineOutEn | outSticky | wrapTop | wrapBottom | statusSel
  | statusN => .execctrl
  | fjoin | pullThresh | pushThresh | outShiftdir | inShiftdir | autopull | autopush => .shiftctrl
  | sidesetCount | setCount | outCount | inBase | sidesetBase | setBase | outBase => .pinctrl

/-- `.._BITS` and `.._LSB`; `FJOIN_TX` and `FJOIN_RX` are one field. -/
def field : RegField → Field 32
  | clkdivInt => ⟨0xffff0000, 16, 16, by decide, by decide⟩
  | clkdivFrac => ⟨0x0000ff00, 8, 8, by decide, by decide⟩
  | sideEn => ⟨0x40000000, 30, 1, by decide, by decide⟩
  | sidePindir => ⟨0x20000000, 29, 1, by decide, by decide⟩
  | jmpPin => ⟨0x1f000000, 24, 5, by decide, by decide⟩
  | outEnSel => ⟨0x00f80000, 19, 5, by decide, by decide⟩
  | inlineOutEn => ⟨0x00040000, 18, 1, by decide, by decide⟩
  | outSticky => ⟨0x00020000, 17, 1, by decide, by decide⟩
  | wrapTop => ⟨0x0001f000, 12, 5, by decide, by decide⟩
  | wrapBottom => ⟨0x00000f80, 7, 5, by decide, by decide⟩
  | statusSel => ⟨0x00000020, 5, 1, by decide, by decide⟩
  | statusN => ⟨0x0000001f, 0, 5, by decide, by decide⟩
  | fjoin => ⟨0xc0000000, 30, 2, by decide, by decide⟩
  | pullThresh => ⟨0x3e000000, 25, 5, by decide, by decide⟩
  | pushThresh => ⟨0x01f00000, 20, 5, by decide, by decide⟩
  | outShiftdir => ⟨0x00080000, 19, 1, by decide, by decide⟩
  | inShiftdir => ⟨0x00040000, 18, 1, by decide, by decide⟩
  | autopull => ⟨0x00020000, 17, 1, by decide, by decide⟩
  | autopush => ⟨0x00010000, 16, 1, by decide, by decide⟩
  | sidesetCount => ⟨0xe0000000, 29, 3, by decide, by decide⟩
  | setCount => ⟨0x1c000000, 26, 3, by decide, by decide⟩
  | outCount => ⟨0x03f00000, 20, 6, by decide, by decide⟩
  | inBase => ⟨0x000f8000, 15, 5, by decide, by decide⟩
  | sidesetBase => ⟨0x00007c00, 10, 5, by decide, by decide⟩
  | setBase => ⟨0x000003e0, 5, 5, by decide, by decide⟩
  | outBase => ⟨0x0000001f, 0, 5, by decide, by decide⟩

def all : List RegField :=
  [clkdivInt, clkdivFrac, sideEn, sidePindir, jmpPin, outEnSel, inlineOutEn, outSticky, wrapTop, wrapBottom,
    statusSel, statusN, fjoin, pullThresh, pushThresh, outShiftdir, inShiftdir, autopull, autopush, sidesetCount,
    setCount, outCount, inBase, sidesetBase, setBase, outBase]

theorem mem_all (f : RegField) : f ∈ all := by
  cases f <;> decide

/-- No two fields of a register overlap. -/
theorem apart {f g : RegField} (hne : f ≠ g) (hreg : f.reg = g.reg) : f.field.Apart g.field := by
  have hall : ∀ f ∈ all, ∀ g ∈ all, f ≠ g → f.reg = g.reg → f.field.Apart g.field := by decide +kernel
  exact hall f (mem_all f) g (mem_all g) hne hreg

end RegField

/-- `rp1_pio_sm_config` -/
abbrev SmRegs := Reg → Word

namespace SmRegs

def read (c : SmRegs) (f : RegField) : Nat := f.field.read (c f.reg)

/-- `c->reg = (c->reg & ~(A_BITS | B_BITS | ..)) | (a << A_LSB) | (b << B_LSB) | ..` -/
def assign (as : List (RegField × Nat)) (c : SmRegs) : SmRegs := fun r =>
  Field.put ((as.filter fun a => a.1.reg = r).map fun a => (a.1.field, a.2)) (c r)

/-- Each field has the value that is assigned to it, and the others keep their own. -/
theorem read_assign {as : List (RegField × Nat)} (hfit : ∀ a ∈ as, a.2 < 2 ^ a.1.field.width)
    (hnodup : (as.map (·.1)).Nodup) (c : SmRegs) (f : RegField) :
    (assign as c).read f = ((as.find? fun a => a.1 = f).map (·.2)).getD (c.read f) := by
  have hfits : ∀ g ∈ (as.filter fun a => a.1.reg = f.reg).map fun a => (a.1.field, a.2), g.2 < 2 ^ g.1.width := by
    intro g hg
    obtain ⟨a, ha, rfl⟩ := List.mem_map.1 hg
    exact hfit a (List.mem_of_mem_filter ha)
  unfold read assign
  cases hfind : as.find? fun a => a.1 = f with
  | none =>
    apply Field.read_put_apart hfits
    intro g hg
    obtain ⟨a, ha, rfl⟩ := List.mem_map.1 hg
    obtain ⟨ha, hreg⟩ := List.mem_filter.1 ha
    have hne : a.1 ≠ f := by simpa using List.find?_eq_none.1 hfind a ha
    exact RegField.apart (Ne.symm hne) (of_decide_eq_true hreg).symm
  | some a =>
    have hmem := List.mem_of_find?_eq_some hfind
    obtain rfl : a.1 = f := by simpa using List.find?_some hfind
    refine Field.read_put hfits ?_ (List.mem_map.2 ⟨a, List.mem_filter.2 ⟨hmem, decide_eq_true rfl⟩, rfl⟩) _
    refine List.pairwise_map.2 (((List.pairwise_map.1 hnodup).filter _).imp_of_mem ?_)
    intro x y hx hy hne
    have hregx := of_decide_eq_true (List.mem_filter.1 hx).2
    have hregy := of_decide_eq_true (List.mem_filter.1 hy).2
    exact RegField.apart hne (hregx.trans hregy.symm)

end SmRegs

/-! ## The calls -/

/-- `enum pio_fifo_join` -/
inductive FifoJoin
  | none | tx | rx

def FifoJoin.value : FifoJoin → Nat
  | none => 0
  | tx => 1
  | rx => 2

/-- `sm_config_set_..` -/
inductive SmcCall
  | outPins (outBase outCount : Nat)
  | setPins (setBase setCount : Nat)
  | inPins (inBase : Nat)
  | sidesetPins (sidesetBase : Nat)
  | sideset (bitCount : Nat) (opt pindirs : Bool)
  | clkdivIntFrac (divInt divFrac : Nat)
  | wrap (bottom top : Nat)
  | jmpPin (pin : Nat)
  | inShift (shiftRight autopush : Bool) (pushThreshold : Nat)
  | outShift (shiftRight autopull : Bool) (pullThreshold : Nat)
  | fifoJoin (join : FifoJoin)
  | outSpecial (sticky hasEnablePin : Bool) (enablePinIndex : Nat)
  /-- `rxLessthan`: `STATUS_RX_LESSTHAN` -/
  | movStatus (rxLessthan : Bool) (statusN : Nat)

namespace SmcCall

def assigns : SmcCall → List (RegField × Nat)
  | outPins base count => [(.outBase, base), (.outCount, count)]
  | setPins base count => [(.setBase, base), (.setCount, count)]
  | inPins base => [(.inBase, base)]
  | sidesetPins base => [(.sidesetBase, base)]
  | sideset bitCount opt pindirs => [(.sidesetCount, bitCount), (.sideEn, opt.toNat), (.sidePindir, pindirs.toNat)]
  | clkdivIntFrac divInt divFrac => [(.clkdivFrac, divFrac), (.clkdivInt, divInt)]
  | wrap bottom top => [(.wrapBottom, bottom), (.wrapTop, top)]
  | jmpPin pin => [(.jmpPin, pin)]
  | inShift shiftRight autopush pushThreshold =>
    [(.inShiftdir, shiftRight.toNat), (.autopush, autopush.toNat), (.pushThresh, pushThreshold &&& 0x1f)]
  | outShift shiftRight autopull pullThreshold =>
    [(.outShiftdir, shiftRight.toNat), (.autopull, autopull.toNat), (.pullThresh, pullThreshold &&& 0x1f)]
  | fifoJoin join => [(.fjoin, join.value)]
  -- here and in `movStatus` the source masks after the shift
  | outSpecial sticky hasEnablePin enablePinIndex =>
    [(.outSticky, sticky.toNat), (.inlineOutEn, hasEnablePin.toNat), (.outEnSel, enablePinIndex &&& 0x1f)]
  | movStatus rxLessthan statusN => [(.statusSel, rxLessthan.toNat), (.statusN, statusN &&& 0x1f)]

def run (s : SmcCall) (c : SmRegs) : SmRegs :=
  match s with
  -- not `c->clkdiv & ..`: the whole register is new
  | clkdivIntFrac .. => SmRegs.assign s.assigns (Function.update c .clkdiv 0)
  | _ => SmRegs.assign s.assigns c

/-- `valid_params_if`, and the types of `clkdivIntFrac`. -/
def Valid : SmcCall → Prop
  | outPins base count => base < RP1_PIO_GPIO_COUNT ∧ count ≤ RP1_PIO_GPIO_COUNT
  | setPins base count => base < RP1_PIO_GPIO_COUNT ∧ count ≤ 5
  | inPins base | sidesetPins base => base < RP1_PIO_GPIO_COUNT
  | sideset bitCount opt _ => bitCount ≤ 5 ∧ (opt = true → 1 ≤ bitCount)
  | clkdivIntFrac divInt divFrac => divInt < 2 ^ 16 ∧ divFrac < 2 ^ 8 ∧ ¬ (divInt = 0 ∧ divFrac ≠ 0)
  | wrap bottom top => top < RP1_PIO_INSTRUCTION_COUNT ∧ bottom < RP1_PIO_INSTRUCTION_COUNT
  | jmpPin pin => pin < RP1_PIO_GPIO_COUNT
  | inShift _ _ threshold | outShift _ _ threshold => threshold ≤ 32
  | fifoJoin _ | outSpecial .. | movStatus .. => True

/-- What the call sets a field to. -/
def value (s : SmcCall) (f : RegField) : Option Nat := (s.assigns.find? fun a => a.1 = f).map (·.2)

/-! ### What is read after a call -/

theorem low_bits (n : Nat) : n &&& 0x1f < 2 ^ 5 := Nat.and_lt_two_pow n (by decide)

theorem join_lt (j : FifoJoin) : j.value < 2 ^ 2 := by
  cases j <;> decide

theorem assigns_fit {s : SmcCall} (h : s.Valid) : ∀ a ∈ s.assigns, a.2 < 2 ^ a.1.field.width := by
  have hfit : ∀ b : Bool, b.toNat < 2 ^ 1 := Bool.toNat_lt
  have hpin : RP1_PIO_GPIO_COUNT < 2 ^ 5 := by decide
  suffices hall : s.assigns.Forall fun a => a.2 < 2 ^ a.1.field.width from List.forall_iff_forall_mem.1 hall
  cases s with
  | outPins base count => exact ⟨Nat.lt_trans h.1 hpin, Nat.lt_of_le_of_lt h.2 (show 28 < 2 ^ 6 by decide)⟩
  | setPins base count => exact ⟨Nat.lt_trans h.1 hpin, Nat.lt_of_le_of_lt h.2 (show 5 < 2 ^ 3 by decide)⟩
  | inPins base | sidesetPins base | jmpPin base => exact Nat.lt_trans h hpin
  | sideset bitCount opt pindirs =>
    exact ⟨Nat.lt_of_le_of_lt h.1 (show 5 < 2 ^ 3 by decide), hfit opt, hfit pindirs⟩
  | clkdivIntFrac divInt divFrac => exact ⟨h.2.1, h.1⟩
  | wrap target top => exact ⟨h.2, h.1⟩
  | inShift shiftRight auto threshold | outShift shiftRight auto threshold =>
    exact ⟨hfit shiftRight, hfit auto, low_bits threshold⟩
  | fifoJoin join => exact join_lt join
  | outSpecial sticky hasEnablePin index => exact ⟨hfit sticky, hfit hasEnablePin, low_bits index⟩
  | movStatus rxLessthan n => exact ⟨hfit rxLessthan, low_bits n⟩

theorem assigns_nodup (s : SmcCall) : (s.assigns.map (·.1)).Nodup := by
  cases s <;> simp [assigns]

theorem run_read {s : SmcCall} (h : s.Valid) (c : SmRegs) (f : RegField) :
    (s.run c).read f = (s.value f).getD (c.read f) := by
  have hassign := SmRegs.read_assign (assigns_fit h) s.assigns_nodup
  cases s with
  | clkdivIntFrac divInt divFrac =>
    refine (hassign _ f).trans ?_
    by_cases hreg : f.reg = .clkdiv
    · cases f with
      | clkdivInt | clkdivFrac => rfl
      | _ => cases hreg
    · show Option.getD _ (f.field.read (Function.update c .clkdiv 0 f.reg)) = _
      rw [Function.update_of_ne hreg]
      rfl
  | _ => exact hassign c f

theorem calls_read {cs : List SmcCall} (h : ∀ s ∈ cs, s.Valid) (c : SmRegs) (f : RegField) :
    (cs.foldl (fun c s => s.run c) c).read f = cs.foldl (fun v s => (s.value f).getD v) (c.read f) := by
  induction cs generalizing c with
  | nil => rfl
  | cons s cs ih => rw [List.foldl_cons, List.foldl_cons, ih (fun s hs => h s (.tail _ hs)), run_read (h s (.head _))]

/-- **After any calls each field has the value of the last call that sets it**, or its own if none does. -/
theorem last_call_read {cs : List SmcCall} (h : ∀ s ∈ cs, s.Valid) (c : SmRegs) (f : RegField) :
    (cs.foldl (fun c s => s.run c) c).read f = (cs.reverse.findSome? (value · f)).getD (c.read f) := by
  rw [calls_read h]
  generalize c.read f = v
  induction cs generalizing v with
  | nil => rfl
  | cons s cs ih =>
    rw [List.foldl_cons, ih (fun s hs => h s (.tail _ hs)), List.reverse_cons, List.findSome?_append]
    cases cs.reverse.findSome? (value · f) with
    | some x => rfl
    | none =>
      cases hs : s.value f with
      | some x => simp [hs]
      | none => simp [hs]

theorem last_call_read_pins :
    let c : SmRegs := [outPins 5 1, wrap 18 27, outPins 4 22].foldl (fun c s => s.run c) fun _ => 0xffffffff
    c.read .outBase = 4 ∧ c.read .outCount = 22 ∧ c.read .wrapTop = 27 ∧ c.read .inBase = 31 := by
  intro c
  have hvalid : ∀ s ∈ [outPins 5 1, wrap 18 27, outPins 4 22], s.Valid := by
    simp only [List.forall_mem_cons, List.not_mem_nil, false_imp_iff, implies_true, and_true, Valid]
    decide
  have hread := last_call_read hvalid fun _ => 0xffffffff
  exact ⟨hread .outBase, hread .outCount, hread .wrapTop, hread .inBase⟩

end SmcCall

/-! ## The configurations of the driver -/

namespace Program

open SmcCall

/-- `rp1_pio_get_default_sm_config` -/
def defaultCalls : List SmcCall :=
  [clkdivIntFrac 1 0, wrap 0 31, inShift true false 32, outShift true false 32]

section
variable (p : Pins) (divInt divFrac : Nat)

/-- The calls of `build_configs`. -/
def buildCalls (pr : Program) : List SmcCall :=
  let c := [sideset 1 false false, sidesetPins p.clk, outPins p.io0 1, inPins p.io1, clkdivIntFrac divInt divFrac]
  match pr with
  | fdx => c ++ [wrap OFF_FDX (OFF_FDX + 1), outShift false true 8, inShift false true 8]
  | rx => c ++ [wrap OFF_RX (OFF_RX + RX_LEN - 1), outShift false false 32, inShift false true 32]
  | qtx => c ++ [wrap OFF_QTX (OFF_QTX + QTX_LEN - 1), outPins p.io3 QTX_SPAN, outShift true true QTX_SPAN,
      inShift false true 32]
  | qrx => c ++ [wrap OFF_QRX (OFF_QRX + 1), inPins 0, outShift false false 32, inShift false true 32]

def buildConfigs (pr : Program) : SmRegs :=
  (defaultCalls ++ buildCalls p divInt divFrac pr).foldl (fun c s => s.run c) fun _ => 0

end

/-- The settings that the registers hold; a threshold of 32 is 0 there. -/
def settings (c : SmRegs) : Pio.Config where
  wrapTarget := c.read .wrapBottom
  wrap := c.read .wrapTop
  sidePin := c.read .sidesetBase
  outBase := c.read .outBase
  outCount := c.read .outCount
  inBase := c.read .inBase
  outRight := c.read .outShiftdir == 1
  inRight := c.read .inShiftdir == 1
  autopull := c.read .autopull == 1
  autopush := c.read .autopush == 1
  pullThresh := if c.read .pullThresh = 0 then 32 else c.read .pullThresh
  pushThresh := if c.read .pushThresh = 0 then 32 else c.read .pushThresh

/-- The cycles of `Rig.lean` are those of the configurations that the driver builds: one side-set pin that is
always driven, and two FIFOs. -/
theorem buildConfigs_config {p : Pins} {divInt divFrac : Nat}
    (hp : ∀ g ∈ [p.clk, p.io0, p.io1, p.io3], g < RP1_PIO_GPIO_COUNT)
    (hdiv : (clkdivIntFrac divInt divFrac).Valid) (pr : Program) :
    settings (buildConfigs p divInt divFrac pr) = config p pr ∧
    ∀ f v, (f, v) ∈ [(RegField.sidesetCount, 1), (.sideEn, 0), (.sidePindir, 0), (.fjoin, 0), (.outSticky, 0),
      (.inlineOutEn, 0)] → (buildConfigs p divInt divFrac pr).read f = v := by
  have hvalid : ∀ s ∈ defaultCalls ++ buildCalls p divInt divFrac pr, s.Valid := by
    simp only [List.forall_mem_cons, List.not_mem_nil, false_imp_iff, implies_true, and_true] at hp
    have hslots : OFF_RX + 15 < 32 ∧ OFF_RX < 32 ∧ OFF_QTX + 9 < 32 ∧ OFF_QTX < 32 ∧ OFF_QRX + 1 < 32 ∧
      OFF_QRX < 32 ∧ QTX_SPAN ≤ 28 ∧ QTX_SPAN ≤ 32 := by decide
    cases pr with
    | fdx | rx | qtx | qrx => simpa [defaultCalls, buildCalls, Valid, hp, hslots] using hdiv
  have hread : ∀ f, (buildConfigs p divInt divFrac pr).read f =
      (defaultCalls ++ buildCalls p divInt divFrac pr).foldl (fun v s => (s.value f).getD v) 0 := by
    intro f
    have hzero : SmRegs.read (fun _ => 0) f = 0 := by
      simp [SmRegs.read, Field.read]
    rw [← hzero]
    exact calls_read hvalid _ f
  constructor
  · unfold settings
    simp only [hread]
    cases pr with
    | fdx => rfl
    | rx => rfl
    | qtx => rfl
    | qrx => rfl
  · intro f v hf
    rw [hread]
    simp only [List.mem_cons, Prod.mk.injEq, List.not_mem_nil, or_false] at hf
    rcases hf with ⟨rfl, rfl⟩ | ⟨rfl, rfl⟩ | ⟨rfl, rfl⟩ | ⟨rfl, rfl⟩ | ⟨rfl, rfl⟩ | ⟨rfl, rfl⟩ <;> cases pr <;> rfl

end Program

end NandServer
