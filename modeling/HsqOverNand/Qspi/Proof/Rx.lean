import HsqOverNand.Qspi.Proof.Fdx

/-!
# The receive program, cycle by cycle

It starts after the last byte of a command (`Ready.receive`) and packs what the chip sends on zeros, 32 bits a
word (`streamWord`). While the FIFO has no room it stalls in the `in` of the last bit, with CLK high (`Full`),
and neither loses a bit nor takes one twice.
-/

set_option autoImplicit false

namespace NandServer

namespace Rig

variable {p : Pins} {d : Chip} {bs : List Byte} {s : Rig}

section
variable (d bs)

/-- Byte `i` that comes after `bs`. -/
def streamByte (i : Nat) : Byte := d.out (bs ++ List.replicate i 0)

/-- Bit `n`; the highest one of a byte is the first. -/
def streamBit (n : Nat) : Bool := (streamByte d bs (n / 8)).getLsbD (7 - n % 8)

/-- Word `i`. -/
def streamWord (i : Nat) : Word :=
  (streamByte d bs (4 * i) ++ streamByte d bs (4 * i + 1) ++ streamByte d bs (4 * i + 2) ++
    streamByte d bs (4 * i + 3) : BitVec (8 + 8 + 8 + 8))

/-- The chip after `n` bits, all of them zero. -/
def clocked (n : Nat) (clk dout : Bool) : Port :=
  ⟨d, some (bs ++ List.replicate (n / 8) 0, []), 0, n % 8, clk, dout⟩

end

theorem streamWord_bit (i : Nat) {r : Nat} (hr : r < 32) :
    (streamWord d bs i).getLsbD (31 - r) = streamBit d bs (32 * i + r) := by
  have hbyte : streamBit d bs (32 * i + r) = (streamByte d bs (4 * i + r / 8)).getLsbD (7 - r % 8) := by
    unfold streamBit
    rw [show (32 * i + r) / 8 = 4 * i + r / 8 by omega, show (32 * i + r) % 8 = r % 8 by omega]
  rw [hbyte]
  unfold streamWord
  simp only [BitVec.getLsbD_append]
  obtain h | h | h | h : r / 8 = 0 ∨ r / 8 = 1 ∨ r / 8 = 2 ∨ r / 8 = 3 := by omega
  · rw [h, if_neg (by omega), if_neg (by omega), if_neg (by omega)]
    congr 1
    omega
  · rw [h, if_neg (by omega), if_neg (by omega), if_pos (by omega)]
    congr 1
    omega
  · rw [h, if_neg (by omega), if_pos (by omega)]
    congr 1
    omega
  · rw [h, if_pos (by omega)]
    congr 1
    omega

/-- `m` bits have been shifted in; `got` words have been taken from the FIFO. -/
structure Shifted (p : Pins) (d : Chip) (bs : List Byte) (got m pc : Nat) (s : Rig) : Prop where
  mode : s.mode = some .rx
  sm : s.sm = ⟨pc, s.sm.osr, s.sm.osrCount, streamWord d bs (m / 32) >>> (32 - m % 32), m % 32, s.sm.tx,
    (List.range' got (m / 32 - got)).map (streamWord d bs)⟩
  got : got ≤ m / 32
  io0 : s.latch p.io0 = false

/-- Bit `n` is on the line. -/
structure Low (p : Pins) (d : Chip) (bs : List Byte) (got n : Nat) (s : Rig) : Prop extends
    Shifted p d bs got n (2 + 2 * (n % 8)) s where
  clk : s.latch p.clk = false
  port : s.port = clocked d bs n false (streamBit d bs n)

/-- It is, and CLK is high, but there was no room for its word. -/
structure Full (p : Pins) (d : Chip) (bs : List Byte) (got n : Nat) (s : Rig) : Prop extends
    Shifted p d bs got n (2 + 2 * (n % 8)) s where
  clk : s.latch p.clk = true
  port : s.port = clocked d bs (n + 1) true (streamBit d bs n)

/-- It has been shifted in. -/
structure High (p : Pins) (d : Chip) (bs : List Byte) (got n : Nat) (s : Rig) : Prop extends
    Shifted p d bs got (n + 1) (2 + 2 * (n % 8) + 1) s where
  clk : s.latch p.clk = true
  port : s.port = clocked d bs (n + 1) true (streamBit d bs n)

/-- The receive program runs. -/
inductive Receiving (p : Pins) (d : Chip) (bs : List Byte) (got : Nat) (s : Rig) : Prop
  | low (n : Nat) (h : Low p d bs got n s)
  | full (n : Nat) (h : Full p d bs got n s)
  | high (n : Nat) (h : High p d bs got n s)

/-- CLK rises. -/
theorem clocked_rise {n : Nat} {dout : Bool} {latch : Nat → Bool} (hlen : 4 ≤ bs.length)
    (hclk : latch p.clk = true) (hio : latch p.io0 = false) :
    (clocked d bs n false dout).see p latch = clocked d bs (n + 1) true dout := by
  have hquad : Port.isQuad (bs ++ List.replicate (n / 8) 0) = false := by
    unfold Port.isQuad
    split
    · next h =>
      have hlen' := congrArg List.length h
      simp at hlen'
      omega
    · rfl
  have hzero : (0 : Byte) <<< 1 ||| (BitVec.ofBool (latch p.io0)).setWidth 8 = 0 := by
    rw [hio]
    rfl
  rw [Port.see_rise rfl hclk]
  rcases Nat.lt_or_ge (n % 8) 7 with hlt | hge
  · rw [Port.rise_bit rfl hquad hlt]
    unfold clocked
    simp only [hzero, show (n + 1) / 8 = n / 8 by omega, show (n + 1) % 8 = n % 8 + 1 by omega]
  · rw [Port.rise_byte rfl hquad (show n % 8 = 7 by omega)]
    unfold clocked
    simp only [hzero, show (n + 1) / 8 = n / 8 + 1 by omega, show (n + 1) % 8 = 0 by omega, List.append_assoc,
      ← List.replicate_succ']

theorem clocked_fall {n : Nat} {dout : Bool} {latch : Nat → Bool} (hclk : latch p.clk = false) :
    (clocked d bs n true dout).see p latch = clocked d bs n false (streamBit d bs n) := by
  rw [Port.see_low hclk]
  rfl

theorem rx_refill (sm : Pio.Sm) : (Program.rx.config p).refill sm = sm := Pio.Config.refill_full rfl

section
variable {got n : Nat}

/-- The state machine with one more bit. -/
def Shifted.next (d : Chip) (bs : List Byte) (got n : Nat) (s : Rig) : Pio.Sm :=
  ⟨2 + 2 * (n % 8) + 1, s.sm.osr, s.sm.osrCount, streamWord d bs ((n + 1) / 32) >>> (32 - (n + 1) % 32),
    (n + 1) % 32, s.sm.tx, (List.range' got ((n + 1) / 32 - got)).map (streamWord d bs)⟩

/-- A bit is shifted in, unless the word is complete and there is no room for it. -/
theorem Shifted.sample (hv : p.Valid) (h : Shifted p d bs got n (2 + 2 * (n % 8)) s)
    (hdout : s.port.dout = streamBit d bs n) :
    (Program.rx.config p).cycle FIFO_DEPTH (.inp 1) (s.levels p) s.sm =
      (none, if n % 32 = 31 ∧ ¬ s.sm.rx.length < FIFO_DEPTH then s.sm else Shifted.next d bs got n s) := by
  have hin : (Program.rx.config p).inBase = p.io1 := rfl
  have hcount : s.sm.isrCount = n % 32 := by rw [h.sm]
  have hpc : (Program.rx.config p).next s.sm.pc = 2 + 2 * (n % 8) + 1 := by
    rw [h.sm]
    apply if_neg
    show 2 + 2 * (n % 8) ≠ 17
    omega
  have hisr : s.sm.isr <<< 1 ||| (BitVec.ofBool (s.levels p p.io1)).setWidth 32 =
      streamWord d bs (n / 32) >>> (31 - n % 32) := by
    have hlevel : s.levels p p.io1 = (streamWord d bs (n / 32)).getLsbD (31 - n % 32) := by
      rw [streamWord_bit _ (Nat.mod_lt _ (by decide)), Nat.div_add_mod, ← hdout]
      exact if_pos rfl
    rw [hlevel, h.sm]
    show streamWord d bs (n / 32) >>> (32 - n % 32) <<< 1 ||| _ = _
    rw [show 32 - n % 32 = 31 - n % 32 + 1 by omega]
    exact Pio.ushiftRight_bit _ _
  have hgot := h.got
  rcases Nat.lt_or_ge (n % 32) 31 with hlt | hge
  · rw [Pio.Config.cycle_in hin hv.io1_lt rfl (rx_refill _) (by rw [hcount]; show n % 32 + 1 < 32; omega)
      (show 32 ≤ 32 by decide), hisr, hpc, hcount, if_neg (by omega), h.sm]
    unfold Shifted.next
    simp only [show (n + 1) / 32 = n / 32 by omega, show (n + 1) % 32 = n % 32 + 1 by omega,
      show 32 - (n % 32 + 1) = 31 - n % 32 by omega]
  · have hn : n % 32 = 31 := by omega
    by_cases hroom : s.sm.rx.length < FIFO_DEPTH
    · rw [Pio.Config.cycle_push hin hv.io1_lt rfl rfl (rx_refill _) (by rw [hcount, hn]; rfl)
        (show 32 ≤ 32 by decide) hroom, hisr, hpc, if_neg (by simp [hroom]), h.sm]
      unfold Shifted.next
      simp only [show (n + 1) / 32 = n / 32 + 1 by omega, show (n + 1) % 32 = 0 by omega, hn, Nat.sub_zero,
        Nat.sub_self, BitVec.ushiftRight_zero, show n / 32 + 1 - got = n / 32 - got + 1 by omega,
        List.range'_1_concat, List.map_append, List.map_cons, List.map_nil,
        show got + (n / 32 - got) = n / 32 by omega, BitVec.ushiftRight_eq_zero (Nat.le_refl 32)]
      rfl
    · rw [Pio.Config.cycle_full rfl (rx_refill _) (by rw [hcount, hn]; rfl) (show 32 ≤ 32 by decide) hroom,
        if_pos ⟨hn, hroom⟩]

/-- A cycle of the `in` in which the bit is shifted in, -/
theorem Shifted.advance (hv : p.Valid) (h : Shifted p d bs got n (2 + 2 * (n % 8)) s)
    (hport : s.port.see p ((Program.rx.config p).drive true none s.latch) =
      clocked d bs (n + 1) true (streamBit d bs n)) (hdout : s.port.dout = streamBit d bs n)
    (hroom : ¬ (n % 32 = 31 ∧ ¬ s.sm.rx.length < FIFO_DEPTH)) : High p d bs got n (s.tick p) := by
  have hi : Program.memory[s.sm.pc]?.bind Pio.decode = some ⟨.inp 1, true⟩ := by
    rw [h.sm]
    exact (Program.memory_rx (n % 8) (Nat.mod_lt _ (by decide))).1
  have hgot := h.got
  rw [tick_of h.mode hi (h.sample hv hdout), hport, if_neg hroom]
  exact ⟨⟨rfl, rfl, by omega, (Program.drive_kept hv.io0_ne_clk).trans h.io0⟩, by simp, rfl⟩

/-- and one in which it is not. -/
theorem Shifted.stall (hv : p.Valid) (h : Shifted p d bs got n (2 + 2 * (n % 8)) s)
    (hport : s.port.see p ((Program.rx.config p).drive true none s.latch) =
      clocked d bs (n + 1) true (streamBit d bs n)) (hdout : s.port.dout = streamBit d bs n)
    (hfull : n % 32 = 31 ∧ ¬ s.sm.rx.length < FIFO_DEPTH) : Full p d bs got n (s.tick p) := by
  have hi : Program.memory[s.sm.pc]?.bind Pio.decode = some ⟨.inp 1, true⟩ := by
    rw [h.sm]
    exact (Program.memory_rx (n % 8) (Nat.mod_lt _ (by decide))).1
  rw [tick_of h.mode hi (h.sample hv hdout), hport, if_pos hfull]
  exact ⟨⟨rfl, h.sm, h.got, (Program.drive_kept hv.io0_ne_clk).trans h.io0⟩, by simp, rfl⟩

theorem Low.see (hv : p.Valid) (hlen : 4 ≤ bs.length) (h : Low p d bs got n s) :
    s.port.see p ((Program.rx.config p).drive true none s.latch) = clocked d bs (n + 1) true (streamBit d bs n) := by
  rw [h.port]
  exact clocked_rise hlen Program.drive_clk ((Program.drive_kept hv.io0_ne_clk).trans h.io0)

theorem Full.see (h : Full p d bs got n s) :
    s.port.see p ((Program.rx.config p).drive true none s.latch) = clocked d bs (n + 1) true (streamBit d bs n) := by
  rw [h.port]
  exact Port.see_high rfl Program.drive_clk

theorem High.tick (hv : p.Valid) (h : High p d bs got n s) : Low p d bs got (n + 1) (s.tick p) := by
  have hi : Program.memory[s.sm.pc]?.bind Pio.decode = some ⟨.nop, false⟩ := by
    rw [h.sm]
    exact (Program.memory_rx (n % 8) (Nat.mod_lt _ (by decide))).2
  have hpc : (Program.rx.config p).next s.sm.pc = 2 + 2 * ((n + 1) % 8) := by
    rw [h.sm]
    show (if 2 + 2 * (n % 8) + 1 = 17 then 2 else 2 + 2 * (n % 8) + 1 + 1) = _
    split
    · omega
    · omega
  rw [tick_of h.mode hi Pio.Config.cycle_nop, rx_refill, hpc, h.port, clocked_fall Program.drive_clk]
  refine ⟨⟨rfl, ?_, h.got, (Program.drive_kept hv.io0_ne_clk).trans h.io0⟩, by simp, rfl⟩
  rw [h.sm]

theorem Receiving.tick (hv : p.Valid) (hlen : 4 ≤ bs.length) (h : Receiving p d bs got s) :
    Receiving p d bs got (s.tick p) := by
  cases h with
  | low n h =>
    by_cases hfull : n % 32 = 31 ∧ ¬ s.sm.rx.length < FIFO_DEPTH
    · exact .full n (h.stall hv (h.see hv hlen) (by rw [h.port]; rfl) hfull)
    · exact .high n (h.advance hv (h.see hv hlen) (by rw [h.port]; rfl) hfull)
  | full n h =>
    by_cases hfull : n % 32 = 31 ∧ ¬ s.sm.rx.length < FIFO_DEPTH
    · exact .full n (h.stall hv h.see (by rw [h.port]; rfl) hfull)
    · exact .high n (h.advance hv h.see (by rw [h.port]; rfl) hfull)
  | high n h => exact .low (n + 1) (h.tick hv)

theorem Receiving.mode (h : Receiving p d bs got s) : s.mode = some .rx := by
  cases h with
  | low n h => exact h.mode
  | full n h => exact h.mode
  | high n h => exact h.mode

/-- The chip has taken some zeros. -/
theorem Receiving.port (h : Receiving p d bs got s) :
    ∃ n clk dout, s.port = clocked d bs n clk dout ∧ clk = s.latch p.clk := by
  cases h with
  | low n h => exact ⟨n, _, _, h.port, h.clk.symm⟩
  | full n h => exact ⟨n + 1, _, _, h.port, h.clk.symm⟩
  | high n h => exact ⟨n + 1, _, _, h.port, h.clk.symm⟩

/-- A word comes. -/
theorem Low.comes (hv : p.Valid) (hlen : 4 ≤ bs.length) (j : Nat) {n : Nat} {s : Rig} (h : Low p d bs got n s)
    (hj : 32 * (got + 1) ≤ n + j) : ∃ m, (s.ticks p m).sm.rx ≠ [] := by
  by_cases hrx : s.sm.rx = []
  · have hempty : n / 32 - got = 0 := by
      rw [h.sm] at hrx
      simpa using hrx
    induction j generalizing n s with
    | zero => omega
    | succ j ih =>
      have hroom : s.sm.rx.length < FIFO_DEPTH := by
        rw [hrx]
        decide
      have hnext := (h.advance hv (h.see hv hlen) (by rw [h.port]; rfl) (by simp [hroom])).tick hv
      by_cases hrx' : ((s.tick p).tick p).sm.rx = []
      · have hempty' : (n + 1) / 32 - got = 0 := by
          rw [hnext.sm] at hrx'
          simpa using hrx'
        obtain ⟨m, hm⟩ := ih hnext (by omega) hrx' hempty'
        exact ⟨m + 2, hm⟩
      · exact ⟨2, hrx'⟩
  · exact ⟨0, hrx⟩

theorem Receiving.comes (hv : p.Valid) (hlen : 4 ≤ bs.length) (h : Receiving p d bs got s) :
    ∃ m, (s.ticks p m).sm.rx ≠ [] := by
  by_cases hrx : s.sm.rx = []
  · have hroom : s.sm.rx.length < FIFO_DEPTH := by
      rw [hrx]
      decide
    cases h with
    | low n h => exact h.comes hv hlen (32 * (got + 1)) (by omega)
    | full n h =>
      have hnext := (h.advance hv h.see (by rw [h.port]; rfl) (by simp [hroom])).tick hv
      obtain ⟨m, hm⟩ := hnext.comes hv hlen (32 * (got + 1)) (by omega)
      exact ⟨m + 2, hm⟩
    | high n h =>
      obtain ⟨m, hm⟩ := (h.tick hv).comes hv hlen (32 * (got + 1)) (by omega)
      exact ⟨m + 1, hm⟩
  · exact ⟨0, hrx⟩

theorem Shifted.get {m pc : Nat} (h : Shifted p d bs got m pc s) {a : Word} {t : Rig} (hg : s.get = some (a, t)) :
    a = streamWord d bs got ∧ Shifted p d bs (got + 1) m pc t ∧ t.latch = s.latch ∧ t.port = s.port := by
  unfold Rig.get at hg
  cases hk : m / 32 - got with
  | zero =>
    have hrx : s.sm.rx = [] := by rw [h.sm, hk]; rfl
    rw [hrx] at hg
    cases hg
  | succ k =>
    have hrx : s.sm.rx = streamWord d bs got :: (List.range' (got + 1) k).map (streamWord d bs) := by
      rw [h.sm, hk]
      rfl
    rw [hrx] at hg
    cases hg
    refine ⟨rfl, ⟨h.mode, ?_, by omega, h.io0⟩, rfl, rfl⟩
    rw [h.sm, show m / 32 - (got + 1) = k by omega]

theorem Receiving.get (h : Receiving p d bs got s) {a : Word} {t : Rig} (hg : s.get = some (a, t)) :
    a = streamWord d bs got ∧ Receiving p d bs (got + 1) t := by
  cases h with
  | low n h =>
    obtain ⟨ha, ht, hlatch, hport⟩ := h.toShifted.get hg
    exact ⟨ha, .low n ⟨ht, by rw [hlatch, h.clk], by rw [hport, h.port]⟩⟩
  | full n h =>
    obtain ⟨ha, ht, hlatch, hport⟩ := h.toShifted.get hg
    exact ⟨ha, .full n ⟨ht, by rw [hlatch, h.clk], by rw [hport, h.port]⟩⟩
  | high n h =>
    obtain ⟨ha, ht, hlatch, hport⟩ := h.toShifted.get hg
    exact ⟨ha, .high n ⟨ht, by rw [hlatch, h.clk], by rw [hport, h.port]⟩⟩

/-- The program starts after the last byte. -/
theorem Ready.receive (hv : p.Valid) (h : Ready p d bs [] [] s) (hlast : bs.getLast? = some 0) :
    Receiving p d bs 0 (s.enter p .rx) := by
  have hio0 : s.latch p.io0 = false := h.last 0 hlast
  have hmode : ¬ s.mode = some .rx := by
    rw [h.mode]
    decide
  have hnone : ∀ w : Word, w >>> 32 = 0 := fun w => BitVec.ushiftRight_eq_zero (Nat.le_refl 32)
  unfold enter init
  dsimp only
  rw [if_neg hmode, Port.see_low (by simp), h.port]
  refine .low 0 ⟨⟨rfl, ?_, Nat.zero_le _, ?_⟩, by simp, ?_⟩
  · simp [Pio.Sm.start, Program.offset, hnone]
  · simp [hv.io0_ne_clk, hio0]
  · unfold clocked streamBit streamByte
    cases hs : s.latch p.clk with
    | false => simp [h.dout hs]
    | true => simp [Port.next]

end

end Rig

end NandServer
