import HsqOverNand.Qspi.Proof.Fdx

/-!
# The send program, cycle by cycle

A word of the FIFO is driven on all pins of the span, and the chip takes a nibble of it when CLK rises. What it
has been given is what the chip has taken, what is driven, and what is `pending` (`Fall.words`, `Rise.words`).
`Driving.settles`: three cycles after the FIFO has run empty the chip has taken everything.
-/

set_option autoImplicit false

namespace NandServer

namespace Rig

variable {p : Pins} {d : Chip} {bs : List Byte} {s : Rig}

/-- What the chip takes from a word. -/
def nib (p : Pins) (w : Word) : Word := p.nibble (p.levels w)

/-- The next word is driven next, after `done`. -/
structure Fall (p : Pins) (d : Chip) (bs : List Byte) (ws done : List Word) (s : Rig) : Prop where
  mode : s.mode = some .qtx
  pc : ∃ j < 5, s.sm.pc = 18 + 2 * j
  osr : s.sm.osrCount = 0 ∨ QTX_SPAN ≤ s.sm.osrCount
  words : ws = done ++ pending s.sm
  port : s.port = ⟨d, some (bs, done.map (nib p)), 0, 0, s.latch p.clk, s.port.dout⟩

/-- The word `x` is driven, and CLK rises next. -/
structure Rise (p : Pins) (d : Chip) (bs : List Byte) (ws done : List Word) (s : Rig) : Prop where
  mode : s.mode = some .qtx
  pc : ∃ j < 5, s.sm.pc = 18 + 2 * j + 1
  osr : s.sm.osrCount = 0 ∨ QTX_SPAN ≤ s.sm.osrCount
  words : ∃ x, ws = done ++ x :: pending s.sm ∧ Port.lines p s.latch = nib p x
  port : s.port = ⟨d, some (bs, done.map (nib p)), 0, 0, false, s.port.dout⟩

theorem qtx_refill (sm : Pio.Sm) (h : sm.osrCount = 0 ∨ QTX_SPAN ≤ sm.osrCount) :
    ((Program.qtx.config p).refill sm).pc = sm.pc ∧ pending ((Program.qtx.config p).refill sm) = pending sm ∧
    (((Program.qtx.config p).refill sm).osrCount = 0 ∨
      QTX_SPAN ≤ ((Program.qtx.config p).refill sm).osrCount) ∧
    ((Program.qtx.config p).refill sm).tx.length ≤ sm.tx.length ∧
    (QTX_SPAN ≤ sm.osrCount → ((Program.qtx.config p).refill sm).tx.length = sm.tx.length - 1) := by
  have hempty : (Program.qtx.config p).empty sm = decide (QTX_SPAN ≤ sm.osrCount) := Bool.true_and _
  unfold Pio.Config.refill
  cases htx : sm.tx with
  | nil => exact ⟨rfl, rfl, h, by rw [htx], fun _ => by rw [htx]; rfl⟩
  | cons w tx =>
    dsimp only
    rcases h with h | h
    · have hno : ¬ QTX_SPAN ≤ sm.osrCount := by
        rw [h]
        decide
      rw [hempty, if_neg (by simpa using hno)]
      exact ⟨rfl, rfl, .inl h, by rw [htx], fun hle => absurd hle hno⟩
    · rw [hempty, if_pos (by simpa using h)]
      refine ⟨rfl, ?_, .inl rfl, by simp, fun _ => by simp⟩
      unfold pending
      rw [htx, if_neg (Nat.not_lt.2 h)]
      rfl

theorem lines_eq {latch : Nat → Bool} {c : Word}
    (h : ∀ g, g = p.io0 ∨ g = p.io1 ∨ g = p.io2 ∨ g = p.io3 → latch g = c.getLsbD g) :
    Port.lines p latch = p.nibble c := by
  have hone : ∀ g, (c >>> g) &&& 1#32 = (BitVec.ofBool (c.getLsbD g)).setWidth 32 := by
    intro g
    apply BitVec.eq_of_getLsbD_eq
    intro i hi
    have hbit := getLsbD_bitOf c g (s := 0) hi
    rw [BitVec.shiftLeft_zero] at hbit
    rw [hbit, BitVec.getLsbD_setWidth, BitVec.getLsbD_ofBool]
    simp [hi]
  unfold Port.lines Pins.nibble
  rw [hone, hone, hone, hone, h _ (.inl rfl), h _ (.inr (.inl rfl)), h _ (.inr (.inr (.inl rfl))),
    h _ (.inr (.inr (.inr rfl)))]

section
variable {others : List Pins} {ws done : List Word}

/-- The lines while a word is driven. -/
theorem qtx_lines (hv : p.Valid) (hw : p.Wired others) (x : Word) (latch : Nat → Bool) :
    Port.lines p ((Program.qtx.config p).drive false (some ((Program.qtx.config p).outData QTX_SPAN x)) latch) =
      nib p x := by
  have hpin : ∀ j < 4, (Program.qtx.config p).drive false
      (some ((Program.qtx.config p).outData QTX_SPAN x)) latch (p.io j) = (p.levels x).getLsbD (p.io j) := by
    intro j hj
    have hspan := hw.span j hj
    have hbase : (p.io j + 32 - (Program.qtx.config p).outBase) % 32 = p.io j - p.io3 := by
      show (p.io j + 32 - p.io3) % 32 = _
      have hlow := hw.low j hj
      have hle := hspan.1
      omega
    have hlt : p.io j - p.io3 < 22 := by
      have hle := hspan.1
      have hlt := hspan.2
      unfold QTX_SPAN at hlt
      omega
    rw [Pio.Config.drive_out (hv.io_ne_clk hj) (hw.low j hj) (by rw [hbase]; exact hlt), hbase,
      Pins.getLsbD_levels x hspan (hw.low j hj)]
    show (x <<< (32 - 22) >>> (32 - 22)).getLsbD (p.io j - p.io3) = x.getLsbD (p.io j - p.io3)
    rw [BitVec.getLsbD_ushiftRight, BitVec.getLsbD_shiftLeft]
    simp
    omega
  apply lines_eq
  intro g hg
  rcases hg with rfl | rfl | rfl | rfl
  · exact hpin 0 (by decide)
  · exact hpin 1 (by decide)
  · exact hpin 2 (by decide)
  · exact hpin 3 (by decide)

/-- A word is driven, -/
theorem Fall.drive (hv : p.Valid) (hw : p.Wired others) (h : Fall p d bs ws done s)
    (hosr : s.sm.osrCount < QTX_SPAN) : Rise p d bs ws done (s.tick p) ∧ pending (s.tick p).sm = s.sm.tx ∧
      (s.tick p).sm.tx.length = s.sm.tx.length - 1 := by
  obtain ⟨j, hj, hpc⟩ := h.pc
  have hi : Program.memory[s.sm.pc]?.bind Pio.decode = some ⟨.out 22, false⟩ := by
    rw [hpc]
    exact (Program.memory_qtx j hj).1
  have hempty : (Program.qtx.config p).empty s.sm = false := Pio.Config.empty_eq_false hosr
  have hnext : (Program.qtx.config p).next s.sm.pc = 18 + 2 * j + 1 := by
    rw [hpc]
    apply if_neg
    show 18 + 2 * j ≠ 27
    omega
  have hzero : s.sm.osrCount = 0 := h.osr.resolve_right (Nat.not_le.2 hosr)
  have hspent : QTX_SPAN ≤ s.sm.osrCount + 22 := Nat.le_add_left _ _
  obtain ⟨hpc', hpend, hosr', -, hlen⟩ := qtx_refill (p := p)
    ⟨18 + 2 * j + 1, (Program.qtx.config p).outRest 22 s.sm.osr, s.sm.osrCount + 22, s.sm.isr, s.sm.isrCount,
      s.sm.tx, s.sm.rx⟩ (.inr hspent)
  rw [tick_of h.mode hi (Pio.Config.cycle_out hempty (by rw [hzero]; decide)), Port.see_low Program.drive_clk, hnext,
    h.port]
  have hrest := hpend.trans (congrArg (· ++ s.sm.tx) (if_neg (Nat.not_lt.2 hspent)))
  refine ⟨⟨rfl, ⟨j, hj, hpc'⟩, hosr', ⟨s.sm.osr, ?_, qtx_lines hv hw _ _⟩, rfl⟩, hrest, hlen hspent⟩
  rw [hrest, h.words]
  unfold pending
  rw [if_pos hosr]
  rfl

/-- or the program waits for one. -/
theorem Fall.wait (h : Fall p d bs ws done s) (hosr : QTX_SPAN ≤ s.sm.osrCount) :
    Fall p d bs ws done (s.tick p) ∧ (s.tick p).sm.tx.length = s.sm.tx.length - 1 := by
  obtain ⟨j, hj, hpc⟩ := h.pc
  have hi : Program.memory[s.sm.pc]?.bind Pio.decode = some ⟨.out 22, false⟩ := by
    rw [hpc]
    exact (Program.memory_qtx j hj).1
  have hempty : (Program.qtx.config p).empty s.sm = true := decide_eq_true hosr
  have hc : (Program.qtx.config p).cycle FIFO_DEPTH (.out 22) (s.levels p) s.sm =
      (none, (Program.qtx.config p).refill s.sm) := if_pos hempty
  obtain ⟨hpc', hpend, hosr', -, hlen⟩ := qtx_refill (p := p) s.sm h.osr
  rw [tick_of h.mode hi hc, Port.see_low Program.drive_clk, h.port]
  refine ⟨⟨rfl, ⟨j, hj, hpc'.trans hpc⟩, hosr', ?_, ?_⟩, hlen hosr⟩
  · rw [hpend]
    exact h.words
  · simp only [Program.drive_clk]

/-- The chip takes the word. -/
theorem Rise.tick (hv : p.Valid) (hq : Port.isQuad bs = true) (h : Rise p d bs ws done s) :
    (∃ x, Fall p d bs ws (done ++ [x]) (s.tick p)) ∧ pending (s.tick p).sm = pending s.sm ∧
      (s.tick p).sm.tx.length ≤ s.sm.tx.length := by
  obtain ⟨j, hj, hpc⟩ := h.pc
  obtain ⟨x, hws, hlines⟩ := h.words
  have hi : Program.memory[s.sm.pc]?.bind Pio.decode = some ⟨.nop, true⟩ := by
    rw [hpc]
    exact (Program.memory_qtx j hj).2
  have hnext : (Program.qtx.config p).next s.sm.pc = 18 + 2 * ((j + 1) % 5) := by
    rw [hpc]
    show (if 18 + 2 * j + 1 = 27 then 18 else 18 + 2 * j + 1 + 1) = _
    split
    · omega
    · omega
  have hkept : Port.lines p ((Program.qtx.config p).drive true none s.latch) = nib p x := by
    have hio : ∀ j < 4, (Program.qtx.config p).drive true none s.latch (p.io j) = s.latch (p.io j) :=
      fun j hj => Program.drive_kept (hv.io_ne_clk hj)
    rw [← hlines]
    unfold Port.lines
    rw [show (Program.qtx.config p).drive true none s.latch p.io0 = _ from hio 0 (by decide),
      show (Program.qtx.config p).drive true none s.latch p.io1 = _ from hio 1 (by decide),
      show (Program.qtx.config p).drive true none s.latch p.io2 = _ from hio 2 (by decide),
      show (Program.qtx.config p).drive true none s.latch p.io3 = _ from hio 3 (by decide)]
    rfl
  obtain ⟨-, hpend, hosr', hlen, -⟩ := qtx_refill (p := p) s.sm h.osr
  rw [tick_of h.mode hi Pio.Config.cycle_nop, Port.see_rise (by rw [h.port]) Program.drive_clk,
    Port.rise_nibble (by rw [h.port]) hq, hkept, hnext, h.port]
  refine ⟨⟨x, rfl, ⟨(j + 1) % 5, Nat.mod_lt _ (by decide), rfl⟩, hosr', ?_, ?_⟩, hpend, hlen⟩
  · rw [hws, List.append_assoc, ← hpend]
    rfl
  · simp only [Program.drive_clk, List.map_append, List.map_cons, List.map_nil]

/-- The send program runs; it has been given `ws`. -/
inductive Driving (p : Pins) (d : Chip) (bs : List Byte) (ws : List Word) (s : Rig) : Prop
  | fall (done : List Word) (h : Fall p d bs ws done s)
  | rise (done : List Word) (h : Rise p d bs ws done s)

theorem Driving.mode (h : Driving p d bs ws s) : s.mode = some .qtx := by
  cases h with
  | fall done h => exact h.mode
  | rise done h => exact h.mode

theorem Driving.tick (hv : p.Valid) (hw : p.Wired others) (hq : Port.isQuad bs = true) (h : Driving p d bs ws s) :
    Driving p d bs ws (s.tick p) := by
  cases h with
  | fall done h =>
    rcases Nat.lt_or_ge s.sm.osrCount QTX_SPAN with hlt | hge
    · exact .rise done (h.drive hv hw hlt).1
    · exact .fall done (h.wait hge).1
  | rise done h =>
    obtain ⟨⟨x, hx⟩, -⟩ := h.tick hv hq
    exact .fall _ hx

/-- The FIFO runs empty. -/
theorem Fall.drains (hv : p.Valid) (hw : p.Wired others) (hq : Port.isQuad bs = true) (k : Nat) {done : List Word}
    {s : Rig} (h : Fall p d bs ws done s) (hk : s.sm.tx.length ≤ k) : ∃ m, (s.ticks p m).sm.tx = [] := by
  induction k generalizing s done with
  | zero => exact ⟨0, List.length_eq_zero_iff.1 (Nat.le_zero.1 hk)⟩
  | succ k ih =>
    rcases Nat.lt_or_ge s.sm.osrCount QTX_SPAN with hlt | hge
    · obtain ⟨hrise, -, hlen⟩ := h.drive hv hw hlt
      obtain ⟨⟨x, hfall⟩, -, hle⟩ := hrise.tick hv hq
      obtain ⟨m, hm⟩ := ih hfall (by omega)
      exact ⟨m + 2, hm⟩
    · obtain ⟨hfall, hlen⟩ := h.wait hge
      obtain ⟨m, hm⟩ := ih hfall (by omega)
      exact ⟨m + 1, hm⟩

theorem Driving.drains (hv : p.Valid) (hw : p.Wired others) (hq : Port.isQuad bs = true)
    (h : Driving p d bs ws s) : ∃ m, (s.ticks p m).sm.tx = [] := by
  cases h with
  | fall done h => exact h.drains hv hw hq _ (Nat.le_refl _)
  | rise done h =>
    obtain ⟨⟨x, hfall⟩, -⟩ := h.tick hv hq
    obtain ⟨m, hm⟩ := hfall.drains hv hw hq _ (Nat.le_refl _)
    exact ⟨m + 1, hm⟩

theorem Fall.finished (h : Fall p d bs ws done s) (hpend : pending s.sm = []) : Fall p d bs ws ws s := by
  obtain rfl : ws = done := by rw [h.words, hpend, List.append_nil]
  exact h

theorem pending_empty {sm : Pio.Sm} (hosr : QTX_SPAN ≤ sm.osrCount) : pending sm = sm.tx := by
  unfold pending
  rw [if_neg (Nat.not_lt.2 hosr)]
  rfl

theorem Fall.drained (h : Fall p d bs ws ws s) : QTX_SPAN ≤ s.sm.osrCount ∧ s.sm.tx = [] := by
  have hpend : pending s.sm = [] := List.self_eq_append_right.1 h.words
  have hosr : QTX_SPAN ≤ s.sm.osrCount := by
    by_contra hlt
    unfold pending at hpend
    rw [if_pos (Nat.lt_of_not_le hlt)] at hpend
    cases hpend
  exact ⟨hosr, (pending_empty hosr).symm.trans hpend⟩

/-- All the words have been taken, and nothing more happens. -/
theorem Fall.rest (h : Fall p d bs ws ws s) : Fall p d bs ws ws (s.tick p) := (h.wait h.drained.1).1

theorem Fall.settles (hv : p.Valid) (hw : p.Wired others) (hq : Port.isQuad bs = true) (h : Fall p d bs ws done s)
    (htx : s.sm.tx = []) : Fall p d bs ws ws (s.ticks p 2) := by
  rcases Nat.lt_or_ge s.sm.osrCount QTX_SPAN with hlt | hge
  · obtain ⟨hrise, hpend, -⟩ := h.drive hv hw hlt
    obtain ⟨⟨x, hfall⟩, hpend', -⟩ := hrise.tick hv hq
    exact hfall.finished (hpend'.trans (hpend.trans htx))
  · exact (h.finished ((pending_empty hge).trans htx)).rest.rest

/-- After the FIFO has run empty three cycles are enough. -/
theorem Driving.settles (hv : p.Valid) (hw : p.Wired others) (hq : Port.isQuad bs = true)
    (h : Driving p d bs ws s) (htx : s.sm.tx = []) {n : Nat} (hn : 3 ≤ n) : Fall p d bs ws ws (s.ticks p n) := by
  have hthree : Fall p d bs ws ws (s.ticks p 3) := by
    cases h with
    | fall done h => exact (h.settles hv hw hq htx).rest
    | rise done h =>
      obtain ⟨⟨x, hfall⟩, -, hlen⟩ := h.tick hv hq
      rw [htx] at hlen
      exact hfall.settles hv hw hq (List.length_eq_zero_iff.1 (Nat.le_zero.1 hlen))
  rw [show n = n - 3 + 3 by omega, ticks_add]
  exact ticks_inv (P := Fall p d bs ws ws) (fun _ h => h.rest) _ hthree

/-- A word is put. -/
theorem Driving.put (h : Driving p d bs ws s) {x : Word} {t : Rig} (ht : s.put x = some t) :
    Driving p d bs (ws ++ [x]) t := by
  have hsm : t = { s with sm := { s.sm with tx := s.sm.tx ++ [x] } } := by
    unfold Rig.put at ht
    split at ht
    · cases ht
      rfl
    · cases ht
  have hpend : pending t.sm = pending s.sm ++ [x] := by
    rw [hsm]
    exact (List.append_assoc _ _ _).symm
  cases h with
  | fall done h =>
    refine .fall done ⟨?_, ?_, ?_, ?_, ?_⟩
    · rw [hsm, h.mode]
    · rw [hsm]
      exact h.pc
    · rw [hsm]
      exact h.osr
    · rw [hpend, ← List.append_assoc, ← h.words]
    · rw [hsm]
      exact h.port
  | rise done h =>
    obtain ⟨y, hws, hlines⟩ := h.words
    refine .rise done ⟨?_, ?_, ?_, ⟨y, ?_, ?_⟩, ?_⟩
    · rw [hsm, h.mode]
    · rw [hsm]
      exact h.pc
    · rw [hsm]
      exact h.osr
    · rw [hpend, hws, List.append_assoc, List.cons_append]
    · rw [hsm, hlines]
    · rw [hsm]
      exact h.port

/-- The program starts after the address. -/
theorem Ready.drive (h : Ready p d bs [] [] s) : Driving p d bs [] (s.enter p .qtx) := by
  have hmode : ¬ s.mode = some .qtx := by
    rw [h.mode]
    decide
  unfold enter init
  dsimp only
  rw [if_neg hmode, Port.see_low (by simp), h.port]
  refine .fall [] ⟨rfl, ⟨0, by decide, rfl⟩, .inr (show 22 ≤ 32 by decide), rfl, ?_⟩
  simp

end

end Rig

end NandServer
