import HsqOverNand.Qspi.Proof.Threads
import HsqOverNand.Qspi.Rig

/-!
# The byte program, cycle by cycle

A byte that is put goes out bit by bit while eight bits come in (`Sending`), and what has come in can be got
after 17 cycles (`Ready.sent`). Then the program stalls (`Ready`), with CLK low after the first cycle.
-/

set_option autoImplicit false

namespace NandServer

namespace Program

theorem memory_fdx0 : memory[0]?.bind Pio.decode = some ⟨.out 1, false⟩ := rfl

theorem memory_fdx1 : memory[1]?.bind Pio.decode = some ⟨.inp 1, true⟩ := rfl

theorem memory_rx (j : Nat) (hj : j < 8) : memory[2 + 2 * j]?.bind Pio.decode = some ⟨.inp 1, true⟩ ∧
    memory[2 + 2 * j + 1]?.bind Pio.decode = some ⟨.nop, false⟩ := by
  revert j
  decide

theorem memory_qtx (j : Nat) (hj : j < 5) : memory[18 + 2 * j]?.bind Pio.decode = some ⟨.out 22, false⟩ ∧
    memory[18 + 2 * j + 1]?.bind Pio.decode = some ⟨.nop, true⟩ := by
  revert j
  decide

variable {p : Pins} {pr : Program} {side : Bool} {data : Option Word} {latch : Nat → Bool}

theorem config_sidePin : (pr.config p).sidePin = p.clk := by
  cases pr <;> rfl

@[simp] theorem drive_clk : (pr.config p).drive side data latch p.clk = side := by
  rw [← (config_sidePin : (pr.config p).sidePin = p.clk), Pio.Config.drive_side]

theorem drive_kept {g : Nat} (hg : g ≠ p.clk) : (pr.config p).drive side none latch g = latch g :=
  Pio.Config.drive_none (by rwa [config_sidePin])

end Program

namespace Port

variable {p : Pins} {latch : Nat → Bool} {x : Port}

theorem see_low (h : latch p.clk = false) :
    x.see p latch = { x with dout := if x.clk then x.next else x.dout, clk := false } := by
  unfold see
  rw [h]
  cases hc : x.clk with
  | false =>
    cases x
    cases hc
    rfl
  | true => rfl

theorem see_rise (hx : x.clk = false) (h : latch p.clk = true) :
    x.see p latch = { x.rise p latch with clk := true } := by
  unfold see
  rw [hx, h]

theorem see_high (hx : x.clk = true) (h : latch p.clk = true) : x.see p latch = x := by
  unfold see
  rw [hx, h]

theorem rise_chip : (x.rise p latch).chip = x.chip := by
  unfold rise
  split
  · rfl
  · split
    · rfl
    · dsimp only
      split
      · rfl
      · rfl

theorem see_chip : (x.see p latch).chip = x.chip := by
  unfold see
  split
  · exact rise_chip
  · rfl
  · rfl

theorem see_clk : (x.see p latch).clk = latch p.clk := by
  unfold see
  cases hc : x.clk with
  | false =>
    cases hl : latch p.clk with
    | false => exact hc
    | true => rfl
  | true =>
    cases hl : latch p.clk with
    | false => rfl
    | true => exact hc

/-- A chip whose CS line is high. -/
theorem see_unselected (h : x.taken = none) : (x.see p latch).taken = none := by
  unfold see rise
  rw [h]
  split
  · exact h
  · rfl
  · exact h

/-- A bit of a byte under way. -/
theorem rise_bit {bs : List Byte} {ns : List Word} (ht : x.taken = some (bs, ns)) (hq : isQuad bs = false)
    (hc : x.count < 7) : x.rise p latch =
      { x with bits := x.bits <<< 1 ||| (BitVec.ofBool (latch p.io0)).setWidth 8, count := x.count + 1 } := by
  unfold rise
  rw [ht]
  dsimp only
  rw [if_neg (by rw [hq]; exact Bool.false_ne_true), if_neg (by omega)]

/-- The last one. -/
theorem rise_byte {bs : List Byte} {ns : List Word} (ht : x.taken = some (bs, ns)) (hq : isQuad bs = false)
    (hc : x.count = 7) : x.rise p latch =
      { x with
        taken := some (bs ++ [x.bits <<< 1 ||| (BitVec.ofBool (latch p.io0)).setWidth 8], ns)
        bits := 0
        count := 0 } := by
  unfold rise
  rw [ht]
  dsimp only
  rw [if_neg (by rw [hq]; exact Bool.false_ne_true), if_pos hc]

/-- A nibble. -/
theorem rise_nibble {bs : List Byte} {ns : List Word} (ht : x.taken = some (bs, ns)) (hq : isQuad bs = true) :
    x.rise p latch = { x with taken := some (bs, ns ++ [lines p latch]) } := by
  unfold rise
  rw [ht]
  exact if_pos hq

end Port

namespace Rig

variable {p : Pins}

theorem tick_of {pr : Program} {s : Rig} {op : Pio.Op} {side : Bool} {data : Option Word} {sm : Pio.Sm}
    (hm : s.mode = some pr) (hi : Program.memory[s.sm.pc]?.bind Pio.decode = some ⟨op, side⟩)
    (hc : (pr.config p).cycle FIFO_DEPTH op (s.levels p) s.sm = (data, sm)) :
    s.tick p = ⟨some pr, sm, (pr.config p).drive side data s.latch,
      s.port.see p ((pr.config p).drive side data s.latch)⟩ := by
  unfold tick
  simp only [hm, hi, hc]

theorem ticks_add (n m : Nat) (s : Rig) : s.ticks p (n + m) = (s.ticks p m).ticks p n :=
  Function.iterate_add_apply _ n m s

theorem put_some (w : Word) {s : Rig} (h : s.sm.tx = []) : ∃ t, s.put w = some t := by
  unfold put
  rw [h]
  exact ⟨_, if_pos (Nat.zero_lt_succ 7)⟩

theorem get_some {s : Rig} (h : s.sm.rx ≠ []) : ∃ w t, s.get = some (w, t) := by
  obtain ⟨w, rx, hrx⟩ := List.exists_cons_of_ne_nil h
  unfold get
  rw [hrx]
  exact ⟨w, _, rfl⟩

/-- What every tick keeps. -/
theorem ticks_inv {P : Rig → Prop} (h : ∀ s, P s → P (s.tick p)) : ∀ (n : Nat) {s : Rig}, P s → P (s.ticks p n)
  | 0, _, hs => hs
  | n + 1, s, hs => ticks_inv h n (h s hs)

end Rig

/-! ## Pins -/

section
variable {p : Pins} (hv : p.Valid)
include hv

theorem Pins.Valid.io_ne_clk {j : Nat} (hj : j < 4) : p.io j ≠ p.clk := by
  have h := hv.nodup
  simp only [Pins.gpios, List.nodup_cons, List.mem_cons, not_or] at h
  obtain rfl | rfl | rfl | rfl : j = 0 ∨ j = 1 ∨ j = 2 ∨ j = 3 := by omega
  · show p.io0 ≠ p.clk
    omega
  · show p.io1 ≠ p.clk
    omega
  · show p.io2 ≠ p.clk
    omega
  · show p.io3 ≠ p.clk
    omega

theorem Pins.Valid.io0_ne_clk : p.io0 ≠ p.clk := hv.io_ne_clk (by decide : 0 < 4)

theorem Pins.Valid.io0_lt : p.io0 < 32 := hv.low _ (by simp [Pins.gpios])

theorem Pins.Valid.io1_lt : p.io1 < 32 := hv.low _ (by simp [Pins.gpios])

end

namespace Rig

variable {p : Pins} {d : Chip} {bs : List Byte} {b : Byte} {s : Rig}

/-! ## The byte program -/

/-- The word that is put for a byte. -/
def byteWord (b : Byte) : Word := b.setWidth 32 <<< 24

theorem byteWord_top {k : Nat} (hk : k < 8) :
    (byteWord b <<< k) >>> 31 = (BitVec.ofBool (b.getLsbD (7 - k))).setWidth 32 := by
  have hbit : (byteWord b).getLsbD (31 - k) = b.getLsbD (7 - k) := by
    unfold byteWord
    rw [BitVec.getLsbD_shiftLeft, BitVec.getLsbD_setWidth, show 31 - k - 24 = 7 - k by omega]
    simp only [show 31 - k < 32 by omega, show ¬ 31 - k < 24 by omega, show 7 - k < 32 by omega, decide_true,
      decide_false, Bool.true_and, Bool.not_false]
  rw [Pio.shiftLeft_top _ _ (by omega), hbit]

/-- The word that is got for it. -/
def answer (d : Chip) (bs : List Byte) : Word := (d.out bs).setWidth 32

/-- Between two bytes: `bs` have been sent. -/
structure Ready (p : Pins) (d : Chip) (bs : List Byte) (tx rx : List Word) (s : Rig) : Prop where
  mode : s.mode = some .fdx
  sm : s.sm = ⟨0, s.sm.osr, s.sm.osrCount, 0, 0, tx, rx⟩
  empty : 8 ≤ s.sm.osrCount
  port : s.port = ⟨d, some (bs, []), 0, 0, s.latch p.clk, s.port.dout⟩
  dout : s.latch p.clk = false → s.port.dout = (d.out bs).getLsbD 7
  last : ∀ b ∈ bs.getLast?, s.latch p.io0 = b.getLsbD 0

/-- A byte is on its way: `k` bits have gone, and the next one goes out. -/
structure Outgoing (p : Pins) (d : Chip) (bs : List Byte) (b : Byte) (k : Nat) (s : Rig) : Prop where
  mode : s.mode = some .fdx
  sm : s.sm = ⟨0, byteWord b <<< k, k, answer d bs >>> (8 - k), k, [], []⟩
  port : s.port = ⟨d, some (bs, []), b >>> (8 - k), k, s.latch p.clk, s.port.dout⟩
  dout : s.latch p.clk = false → s.port.dout = (d.out bs).getLsbD (7 - k)

/-- It is out, and one comes in. -/
structure Incoming (p : Pins) (d : Chip) (bs : List Byte) (b : Byte) (k : Nat) (s : Rig) : Prop where
  mode : s.mode = some .fdx
  sm : s.sm = ⟨1, byteWord b <<< (k + 1), k + 1, answer d bs >>> (8 - k), k, [], []⟩
  port : s.port = ⟨d, some (bs, []), b >>> (8 - k), k, false, (d.out bs).getLsbD (7 - k)⟩
  clk : s.latch p.clk = false
  io0 : s.latch p.io0 = b.getLsbD (7 - k)

theorem fdx_empty {sm : Pio.Sm} (h : 8 ≤ sm.osrCount) : (Program.fdx.config p).empty sm = true := by
  show (true && decide (8 ≤ sm.osrCount)) = true
  rw [decide_eq_true h]
  rfl

theorem Ready.tick (hv : p.Valid) {rx : List Word} (h : Ready p d bs [] rx s) : Ready p d bs [] rx (s.tick p) := by
  have hi : Program.memory[s.sm.pc]?.bind Pio.decode = some ⟨.out 1, false⟩ := by
    rw [h.sm]
    exact Program.memory_fdx0
  have hc : (Program.fdx.config p).cycle FIFO_DEPTH (.out 1) (s.levels p) s.sm = (none, s.sm) :=
    Pio.Config.cycle_stall (fdx_empty h.empty) (by rw [h.sm])
  rw [tick_of h.mode hi hc, Port.see_low Program.drive_clk, h.port]
  refine ⟨rfl, h.sm, h.empty, ?_, ?_, ?_⟩
  · simp only [Program.drive_clk]
  · intro _
    cases hs : s.latch p.clk with
    | false => exact h.dout hs
    | true => rfl
  · intro b hb
    exact (Program.drive_kept hv.io0_ne_clk).trans (h.last b hb)

theorem Ready.pull (h : Ready p d bs [byteWord b] [] s) : Outgoing p d bs b 0 (s.tick p) := by
  have hi : Program.memory[s.sm.pc]?.bind Pio.decode = some ⟨.out 1, false⟩ := by
    rw [h.sm]
    exact Program.memory_fdx0
  have hanswer : answer d bs >>> 8 = 0 := by
    unfold answer
    apply BitVec.eq_of_getLsbD_eq
    intro i hi
    simp
  have hc : (Program.fdx.config p).cycle FIFO_DEPTH (.out 1) (s.levels p) s.sm =
      (none, ⟨0, byteWord b, 0, answer d bs >>> 8, 0, [], []⟩) := by
    rw [Pio.Config.cycle_pull (fdx_empty h.empty) (by rw [h.sm]), h.sm, hanswer]
  have hbits : b >>> 8 = 0 := BitVec.ushiftRight_eq_zero (Nat.le_refl 8)
  rw [tick_of h.mode hi hc, Port.see_low Program.drive_clk, h.port]
  refine ⟨rfl, ?_, ?_, ?_⟩
  · simp only [BitVec.shiftLeft_zero, Nat.sub_zero]
  · simp only [Program.drive_clk, Nat.sub_zero, hbits]
  · intro _
    cases hs : s.latch p.clk with
    | false => exact h.dout hs
    | true => rfl

theorem Outgoing.tick (hv : p.Valid) {k : Nat} (hk : k < 8) (h : Outgoing p d bs b k s) :
    Incoming p d bs b k (s.tick p) := by
  have hi : Program.memory[s.sm.pc]?.bind Pio.decode = some ⟨.out 1, false⟩ := by
    rw [h.sm]
    exact Program.memory_fdx0
  have hc : (Program.fdx.config p).cycle FIFO_DEPTH (.out 1) (s.levels p) s.sm =
      (some ((BitVec.ofBool (b.getLsbD (7 - k))).setWidth 32),
        ⟨1, byteWord b <<< (k + 1), k + 1, answer d bs >>> (8 - k), k, [], []⟩) := by
    have hempty : (Program.fdx.config p).empty s.sm = false :=
      Pio.Config.empty_eq_false (by rw [h.sm]; exact hk)
    rw [Pio.Config.cycle_out hempty (by rw [h.sm]; show k + 1 ≤ 32; omega),
      Pio.Config.refill_nil (by rw [h.sm]), ← byteWord_top hk, BitVec.shiftLeft_add, h.sm]
    rfl
  rw [tick_of h.mode hi hc, Port.see_low Program.drive_clk, h.port]
  refine ⟨rfl, rfl, ?_, ?_, ?_⟩
  · cases hs : s.latch p.clk with
    | false => simp only [h.dout hs, Bool.false_eq_true, if_false]
    | true => rfl
  · simp only [Program.drive_clk]
  · have hbase : (p.io0 + 32 - (Program.fdx.config p).outBase) % 32 = 0 := by
      show (p.io0 + 32 - p.io0) % 32 = 0
      omega
    dsimp only
    rw [Pio.Config.drive_out hv.io0_ne_clk hv.io0_lt (by rw [hbase]; exact Nat.one_pos), hbase]
    simp

/-- What the state machine and the chip have after one more bit. -/
theorem Incoming.shifted {k : Nat} (hk : k < 8) (h : Incoming p d bs b k s) :
    s.sm.isr <<< 1 ||| (BitVec.ofBool (s.levels p p.io1)).setWidth 32 = answer d bs >>> (7 - k) ∧
    s.port.bits <<< 1 ||| (BitVec.ofBool (s.latch p.io0)).setWidth 8 = b >>> (7 - k) := by
  have hlevel : s.levels p p.io1 = (answer d bs).getLsbD (7 - k) := by
    unfold levels answer
    rw [if_pos rfl, h.port, BitVec.getLsbD_setWidth]
    simp only [show 7 - k < 32 by omega, decide_true, Bool.true_and]
  rw [hlevel, h.io0, h.sm, h.port]
  show answer d bs >>> (8 - k) <<< 1 ||| _ = _ ∧ b >>> (8 - k) <<< 1 ||| _ = _
  rw [show 8 - k = 7 - k + 1 by omega]
  exact ⟨Pio.ushiftRight_bit _ _, Pio.ushiftRight_bit _ _⟩

theorem Incoming.tick (hv : p.Valid) (hq : Port.isQuad bs = false) {k : Nat} (hk : k < 7)
    (h : Incoming p d bs b k s) : Outgoing p d bs b (k + 1) (s.tick p) := by
  obtain ⟨hisr, hbits⟩ := h.shifted (by omega)
  have hi : Program.memory[s.sm.pc]?.bind Pio.decode = some ⟨.inp 1, true⟩ := by
    rw [h.sm]
    exact Program.memory_fdx1
  have hc : (Program.fdx.config p).cycle FIFO_DEPTH (.inp 1) (s.levels p) s.sm =
      (none, ⟨0, byteWord b <<< (k + 1), k + 1, answer d bs >>> (7 - k), k + 1, [], []⟩) := by
    rw [Pio.Config.cycle_in (g := p.io1) rfl hv.io1_lt rfl (Pio.Config.refill_nil (by rw [h.sm]))
      (by rw [h.sm]; show k + 1 < 8; omega) (show 8 ≤ 32 by decide), hisr, h.sm]
    rfl
  rw [tick_of h.mode hi hc, Port.see_rise (by rw [h.port]) Program.drive_clk,
    Port.rise_bit (by rw [h.port]) hq (by rw [h.port]; exact hk), Program.drive_kept hv.io0_ne_clk, hbits, h.port]
  refine ⟨rfl, ?_, ?_, ?_⟩
  · rw [show 8 - (k + 1) = 7 - k by omega]
  · simp only [Program.drive_clk, show 8 - (k + 1) = 7 - k by omega]
  · intro hlow
    simp at hlow

theorem Incoming.done (hv : p.Valid) (hq : Port.isQuad bs = false) (h : Incoming p d bs b 7 s) :
    Ready p d (bs ++ [b]) [] [answer d bs] (s.tick p) := by
  obtain ⟨hisr, hbits⟩ := h.shifted (by omega)
  have hi : Program.memory[s.sm.pc]?.bind Pio.decode = some ⟨.inp 1, true⟩ := by
    rw [h.sm]
    exact Program.memory_fdx1
  have hc : (Program.fdx.config p).cycle FIFO_DEPTH (.inp 1) (s.levels p) s.sm =
      (none, ⟨0, byteWord b <<< 8, 8, 0, 0, [], [answer d bs]⟩) := by
    rw [Pio.Config.cycle_push (g := p.io1) rfl hv.io1_lt rfl rfl (Pio.Config.refill_nil (by rw [h.sm]))
      (by rw [h.sm]; rfl) (show 8 ≤ 32 by decide) (by rw [h.sm]; exact Nat.zero_lt_succ 7), hisr, h.sm]
    rfl
  rw [tick_of h.mode hi hc, Port.see_rise (by rw [h.port]) Program.drive_clk,
    Port.rise_byte (by rw [h.port]) hq (by rw [h.port]), Program.drive_kept hv.io0_ne_clk, hbits, h.port]
  refine ⟨rfl, rfl, Nat.le_refl 8, ?_, ?_, ?_⟩
  · simp only [Program.drive_clk, Nat.sub_self, BitVec.ushiftRight_zero]
  · intro hlow
    simp at hlow
  · intro b' hb
    rw [List.getLast?_concat] at hb
    cases hb
    exact (Program.drive_kept hv.io0_ne_clk).trans h.io0

/-- A byte on its way. -/
inductive Sending (p : Pins) (d : Chip) (bs : List Byte) (b : Byte) (s : Rig) : Prop
  | queued (h : Ready p d bs [byteWord b] [] s)
  | out (k : Nat) (hk : k < 8) (h : Outgoing p d bs b k s)
  | inp (k : Nat) (hk : k < 8) (h : Incoming p d bs b k s)
  | done (h : Ready p d (bs ++ [b]) [] [answer d bs] s)

theorem Sending.tick (hv : p.Valid) (hq : Port.isQuad bs = false) (h : Sending p d bs b s) :
    Sending p d bs b (s.tick p) := by
  cases h with
  | queued h => exact .out 0 (by omega) h.pull
  | out k hk h => exact .inp k hk (h.tick hv hk)
  | inp k hk h =>
    rcases Nat.lt_or_ge k 7 with hlt | hge
    · exact .out (k + 1) (by omega) (h.tick hv hq hlt)
    · obtain rfl : k = 7 := by omega
      exact .done (h.done hv hq)
  | done h => exact .done (h.tick hv)

theorem Ready.put (h : Ready p d bs [] [] s) {t : Rig} (ht : s.put (byteWord b) = some t) :
    Ready p d bs [byteWord b] [] t := by
  unfold Rig.put at ht
  rw [if_pos (by rw [h.sm]; exact Nat.zero_lt_succ 7)] at ht
  cases ht
  refine ⟨h.mode, ?_, h.empty, h.port, h.dout, h.last⟩
  rw [h.sm]
  rfl

/-- Only the answer can be got. -/
theorem Sending.get (h : Sending p d bs b s) {x : Word} {t : Rig} (ht : s.get = some (x, t)) :
    x = answer d bs ∧ Ready p d (bs ++ [b]) [] [] t := by
  unfold Rig.get at ht
  cases h with
  | queued h =>
    rw [h.sm] at ht
    cases ht
  | out k hk h =>
    rw [h.sm] at ht
    cases ht
  | inp k hk h =>
    rw [h.sm] at ht
    cases ht
  | done h =>
    rw [show s.sm.rx = [answer d bs] by rw [h.sm]] at ht
    cases ht
    refine ⟨rfl, h.mode, ?_, h.empty, h.port, h.dout, h.last⟩
    rw [h.sm]

/-- The answer is there after 17 cycles. -/
theorem Ready.sent (hv : p.Valid) (hq : Port.isQuad bs = false) (h : Ready p d bs [byteWord b] [] s) :
    Ready p d (bs ++ [b]) [] [answer d bs] (s.ticks p 17) := by
  have hbits : ∀ k, k < 8 → Outgoing p d bs b k (s.ticks p (2 * k + 1)) := by
    intro k
    induction k with
    | zero => exact fun _ => h.pull
    | succ k ih =>
      intro hk
      rw [show 2 * (k + 1) + 1 = 2 + (2 * k + 1) by omega, ticks_add]
      exact ((ih (by omega)).tick hv (by omega)).tick hv hq (by omega)
  rw [show 17 = 2 + (2 * 7 + 1) by rfl, ticks_add]
  exact ((hbits 7 (by decide)).tick hv (by decide)).done hv hq

end Rig

end NandServer
