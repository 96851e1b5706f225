import HsqOverNand.Lib.Follow
import HsqOverNand.Qspi.Proof.Qtx
import HsqOverNand.Qspi.Proof.Rx

/-!
# The driver on a chip, cycle by cycle

`calls_flat`: an open device whose state machine runs the programs of `load_spi_programs` cycle by cycle gives
the answers of a flat memory, at any pace of the state machine.

* A rig is related to a wire while the CS line is high (`Idle`), between bytes (`Bytes`), and while words come
  in or go out (`Reads`, `Sends`). `*_carries`, `*_rise`: what the driver does for an act leads from one
  relation to the next, with the answer of the wire.
* `*_follows`, `*_whole`: so do the programs of `Threads.lean`.
-/

set_option autoImplicit false

namespace NandServer

open RwLock (Prog)

namespace Port

variable {p : Pins} {d : Chip}

/-- The bytes of the nibbles that the chip takes from words. -/
theorem joined_nib : ∀ ws : List Word, joined (ws.map (Rig.nib p)) = p.sampled ws
  | _ :: _ :: ws => congrArg₂ List.cons rfl (joined_nib ws)
  | [_] => rfl
  | [] => rfl

theorem release_nib (p : Pins) (bs : List Byte) (ws : List Word) :
    release d bs (ws.map (Rig.nib p)) = d.deselect p bs ws := by
  cases bs with
  | nil => rfl
  | cons op args =>
    unfold release
    dsimp only
    rw [joined_nib]
    rfl

/-- A read leaves the chip as it is, whatever else it takes. -/
theorem deselect_read (args : List Byte) (ws : List Word) : d.deselect p (0x03 :: args) ws = d := by
  rw [BusCode.deselect_command (by decide) (by decide)]
  unfold Chip.command
  split
  · rfl
  · rw [if_neg (by decide), if_neg (by decide)]
    split
    · rw [if_neg (by decide), if_neg (by decide), if_neg (by decide)]
    · rfl

end Port

namespace Rig

variable {p : Pins} {others : List Pins} {s : Rig} {w : Wire}

/-! ## Rigs and wires -/

/-- The CS line is high, and the next command finds the byte program at its start. -/
structure Idle (p : Pins) (s : Rig) (w : Wire) : Prop where
  wire : w.taken = none
  chip : s.port.chip = w.chip
  taken : s.port.taken = none
  clk : s.port.clk = s.latch p.clk
  sm : s.mode = some .fdx → s.sm = ⟨0, s.sm.osr, s.sm.osrCount, 0, 0, [], []⟩ ∧ 8 ≤ s.sm.osrCount
  drained : s.mode = some .qtx → (∃ j < 5, s.sm.pc = 18 + 2 * j) ∧ QTX_SPAN ≤ s.sm.osrCount ∧ s.sm.tx = []

/-- Bytes have been sent, and nothing else. -/
def Bytes (p : Pins) (s : Rig) (w : Wire) : Prop :=
  ∃ bs, w.taken = some (bs, []) ∧ Ready p w.chip bs [] [] s

/-- The buffer of the chip is being received. -/
def Reads (p : Pins) (s : Rig) (w : Wire) : Prop :=
  ∃ args got, w.taken = some (0x03 :: args ++ List.replicate (4 * got) 0, []) ∧ 3 ≤ args.length ∧
    (Receiving p w.chip (0x03 :: args) got s ∨
      got = 0 ∧ Ready p w.chip (0x03 :: args) [] [] s ∧ (0x03 :: args).getLast? = some 0)

/-- Words are being sent. -/
def Sends (p : Pins) (s : Rig) (w : Wire) : Prop :=
  ∃ bs ws, w.taken = some (bs, ws) ∧ Port.isQuad bs = true ∧
    (Driving p w.chip bs ws s ∨ ws = [] ∧ Ready p w.chip bs [] [] s)

/-! ### While the CS line is high -/

theorem Idle.tick (h : Idle p s w) : Idle p (s.tick p) w := by
  unfold Rig.tick
  split
  · next pr i hm hi =>
    refine ⟨h.wire, Port.see_chip.trans h.chip, Port.see_unselected h.taken, Port.see_clk, ?_, ?_⟩
    · intro hfdx
      obtain rfl : pr = .fdx := Option.some.inj (hm.symm.trans hfdx)
      obtain ⟨hsm, hempty⟩ := h.sm hm
      rw [hsm] at hi
      obtain rfl : ⟨.out 1, false⟩ = i := Option.some.inj (Program.memory_fdx0.symm.trans hi)
      have hc : (Program.fdx.config p).cycle FIFO_DEPTH (.out 1) (s.levels p) s.sm = (none, s.sm) :=
        Pio.Config.cycle_stall (fdx_empty hempty) (by rw [hsm])
      dsimp only
      rw [hc]
      exact ⟨hsm, hempty⟩
    · intro hqtx
      obtain rfl : pr = .qtx := Option.some.inj (hm.symm.trans hqtx)
      obtain ⟨⟨j, hj, hpc⟩, hosr, htx⟩ := h.drained hm
      rw [hpc] at hi
      obtain rfl : ⟨.out 22, false⟩ = i := Option.some.inj ((Program.memory_qtx j hj).1.symm.trans hi)
      have hempty : (Program.qtx.config p).empty s.sm = true := decide_eq_true hosr
      have hc : (Program.qtx.config p).cycle FIFO_DEPTH (.out 22) (s.levels p) s.sm = (none, s.sm) :=
        Pio.Config.cycle_stall hempty htx
      dsimp only
      rw [hc]
      exact ⟨⟨j, hj, hpc⟩, hosr, htx⟩
  · exact h

theorem Idle.shake (h : Idle p s w) (latch : Nat → Bool) : Idle p (s.shake p latch) w :=
  ⟨h.wire, Port.see_chip.trans h.chip, Port.see_unselected h.taken, Port.see_clk, h.sm, h.drained⟩

theorem Idle.shaken (h : Idle p s w) {t : Rig} (ht : s.Shaken p t) : Idle p t w := by
  induction ht with
  | refl => exact h
  | tail _ hstep ih =>
    rcases hstep with rfl | ⟨latch, rfl⟩
    · exact ih.tick
    · exact ih.shake latch

theorem Idle.init (h : Idle p s w) (pr : Program) : Idle p (s.init p pr) w := by
  refine ⟨h.wire, Port.see_chip.trans h.chip, Port.see_unselected h.taken, Port.see_clk, ?_, ?_⟩
  · intro hfdx
    obtain rfl : pr = .fdx := Option.some.inj hfdx
    exact ⟨rfl, show 8 ≤ 32 by decide⟩
  · intro hqtx
    obtain rfl : pr = .qtx := Option.some.inj hqtx
    exact ⟨⟨0, by decide, rfl⟩, show 22 ≤ 32 by decide, rfl⟩

theorem Idle.setPins (h : Idle p s w) (mask : Word) : Idle p (s.setPins p mask) w := h.shake _

theorem Idle.quiet (h : Idle p s w) (value : Bool) : ¬ Loud (.line value) s := by
  intro hloud
  rcases hloud with hwide | ⟨hmode, hpend | ⟨b, hb⟩⟩
  · cases hwide
  · obtain ⟨-, hosr, htx⟩ := h.drained hmode
    exact hpend ((pending_empty hosr).trans htx)
  · cases hb

theorem tick_mode : (s.tick p).mode = s.mode := by
  unfold Rig.tick
  split
  · rfl
  · rfl

/-- The CS line falls. -/
theorem Idle.select (h : Idle p s w) (hmode : s.mode = some .fdx) : Ready p w.chip [] [] [] s.select := by
  obtain ⟨hsm, hempty⟩ := h.sm hmode
  refine ⟨hmode, hsm, hempty, ?_, fun _ => by simp [Rig.select, Port.select, Chip.out], nofun⟩
  show s.port.select = _
  unfold Port.select
  rw [h.chip, h.clk]
  rfl

theorem opened_idle (d : Chip) (latch : Nat → Bool) : Idle p (opened p d latch) ⟨d, none⟩ := by
  have hclosed : Idle p ⟨none, .start OFF_FDX, latch, ⟨d, none, 0, 0, latch p.clk, false⟩⟩ ⟨d, none⟩ :=
    ⟨rfl, rfl, rfl, rfl, nofun, nofun⟩
  exact (hclosed.init .fdx).setPins _

/-! ### The acts -/

open RwLock.Prog (Follows Carried)

/-- What a program does on the rig is what it does on the wire; `h` is how it holds the lock. -/
abbrev Carries {ρ : Type} (p : Pins) (h : Option RwLock.Mode) (R R' : Rig → Wire → Prop) (x : BusCode ρ) (c : Wire) :
    Prop := Follows (Does p) (Wire.own p) Loud (Idle p) h R R' x c

/-- Only the send program is loud. -/
theorem quiet_of_mode {a : BusAct} (ha : a.wide = false) (hs : s.mode ≠ some .qtx) : ¬ Loud a s := by
  intro hloud
  rcases hloud with hwide | ⟨hmode, -⟩
  · exact Bool.false_ne_true (ha.symm.trans hwide)
  · exact hs hmode

variable {h : Option RwLock.Mode}

theorem low_carries (c : Wire) : Carries p h (Idle p) (Bytes p) (BusCode.act (.line false)) c := by
  apply Follows.act
  · exact fun s hs hloud => absurd hloud (hs.quiet false)
  · intro s a t hs ⟨n, m, ha, ht⟩
    refine ⟨ha, [], rfl, ?_⟩
    have hidle : Idle p ((s.ticks p n).enter p .fdx) c := by
      have hn : Idle p (s.ticks p n) c := ticks_inv (P := (Idle p · c)) (fun _ h => h.tick) n hs
      unfold enter
      split
      · exact hn
      · exact hn.init .fdx
    have hmode : ((s.ticks p n).enter p .fdx).mode = some .fdx := by
      unfold enter
      split
      · assumption
      · rfl
    have hend := ticks_inv (P := fun u => Idle p u c ∧ u.mode = some .fdx)
      (fun _ h => ⟨h.1.tick, tick_mode.trans h.2⟩) m ⟨hidle, hmode⟩
    rw [ht]
    exact hend.1.select hend.2
  · exact fun s _ => ⟨0, _, 0, 0, rfl, rfl⟩

theorem byte_carries (b : Byte) {d : Chip} {bs : List Byte} (hv : p.Valid) (hq : Port.isQuad bs = false) :
    Carries p h (Bytes p) (Bytes p) (BusCode.act (.byte b)) ⟨d, some (bs, [])⟩ := by
  apply Follows.act
  · exact fun s ⟨_, _, hs⟩ hloud => absurd hloud (quiet_of_mode rfl (by rw [hs.mode]; decide))
  · intro s a t ⟨bs', hbs, hs⟩ ⟨n, m, u, x, hu, hx, ha⟩
    cases hbs
    have hn : Ready p d bs [] [] (s.ticks p n) := ticks_inv (fun _ h => h.tick hv) n hs
    have hm : Sending p d bs b (u.ticks p m) :=
      ticks_inv (P := Sending p d bs b) (fun _ h => h.tick hv hq) m (.queued (hn.put hu))
    obtain ⟨hx, ht⟩ := hm.get hx
    have hbyte : (answer d bs).setWidth 8 = d.out bs := by
      unfold answer
      rw [BitVec.setWidth_setWidth_of_le _ (by decide), BitVec.setWidth_eq]
    rw [ha, hx, hbyte]
    exact ⟨rfl, bs ++ [b], rfl, ht⟩
  · intro s ⟨bs', hbs, hs⟩
    cases hbs
    obtain ⟨u, hu⟩ := put_some (byteWord b) (s := s) (by rw [hs.sm])
    have hsent := (hs.put hu).sent hv hq
    obtain ⟨x, t, ht⟩ := get_some (s := u.ticks p 17) (by rw [hsent.sm]; exact List.cons_ne_nil _ _)
    exact ⟨_, t, 0, 17, u, x, hu, ht, rfl⟩

theorem own_rxWord (d : Chip) (bs : List Byte) (got : Nat) :
    Wire.own p .rxWord ⟨d, some (bs ++ List.replicate (4 * got) 0, [])⟩ =
      (streamWord d bs got, ⟨d, some (bs ++ List.replicate (4 * (got + 1)) 0, [])⟩) := by
  have hnext : ∀ k, bs ++ List.replicate k 0 ++ [0] = bs ++ List.replicate (k + 1) (0 : Byte) := fun k => by
    rw [List.append_assoc, ← List.replicate_succ']
  unfold Wire.own Wire.exchange
  simp only [hnext]
  rfl

theorem Reads.quiet (h : Reads p s w) {a : BusAct} (ha : a.wide = false) : ¬ Loud a s := by
  obtain ⟨args, got, -, -, hs⟩ := h
  apply quiet_of_mode ha
  rcases hs with hs | ⟨-, hs, -⟩
  · rw [hs.mode]
    decide
  · rw [hs.mode]
    decide

/-- The receive program runs when the driver waits for a word. -/
theorem Reads.enter (hv : p.Valid) {d : Chip} {args : List Byte} {got : Nat} (hlen : 3 ≤ args.length)
    (h : Receiving p d (0x03 :: args) got s ∨
      got = 0 ∧ Ready p d (0x03 :: args) [] [] s ∧ (0x03 :: args).getLast? = some 0) (n : Nat) :
    Receiving p d (0x03 :: args) got ((s.ticks p n).enter p .rx) := by
  rcases h with h | ⟨rfl, h, hlast⟩
  · have hn : Receiving p d (0x03 :: args) got (s.ticks p n) :=
      ticks_inv (fun _ h => h.tick hv (Nat.succ_le_succ hlen)) n h
    unfold Rig.enter
    rw [if_pos hn.mode]
    exact hn
  · have hn : Ready p d (0x03 :: args) [] [] (s.ticks p n) := ticks_inv (fun _ h => h.tick hv) n h
    exact hn.receive hv hlast

theorem rxWord_carries (hv : p.Valid) (c : Wire) : Carries p h (Reads p) (Reads p) (BusCode.act .rxWord) c := by
  obtain ⟨d, taken⟩ := c
  apply Follows.act
  · exact fun s hs hloud => absurd hloud (hs.quiet rfl)
  · intro s a t ⟨args, got, htaken, hlen, hs⟩ ⟨n, m, ht⟩
    obtain rfl : taken = some (0x03 :: args ++ List.replicate (4 * got) 0, []) := htaken
    have hm : Receiving p d (0x03 :: args) got (((s.ticks p n).enter p .rx).ticks p m) :=
      ticks_inv (fun _ h => h.tick hv (Nat.succ_le_succ hlen)) m (Reads.enter hv hlen hs n)
    obtain ⟨ha, ht⟩ := hm.get ht
    rw [own_rxWord]
    exact ⟨ha, args, got + 1, rfl, hlen, .inl ht⟩
  · intro s ⟨args, got, htaken, hlen, hs⟩
    have hr := Reads.enter hv hlen hs 0
    obtain ⟨m, hm⟩ := hr.comes hv (show 4 ≤ (0x03 :: args).length from Nat.succ_le_succ hlen)
    obtain ⟨a, t, ht⟩ := get_some hm
    exact ⟨a, t, 0, m, ht⟩

/-- The send program runs when the driver puts a word. -/
theorem Sends.enter (hv : p.Valid) (hw : p.Wired others) {d : Chip} {bs : List Byte} {ws : List Word}
    (hq : Port.isQuad bs = true) (h : Driving p d bs ws s ∨ ws = [] ∧ Ready p d bs [] [] s) (n : Nat) :
    Driving p d bs ws ((s.ticks p n).enter p .qtx) := by
  rcases h with h | ⟨rfl, h⟩
  · have hn : Driving p d bs ws (s.ticks p n) := ticks_inv (fun _ h => h.tick hv hw hq) n h
    unfold Rig.enter
    rw [if_pos hn.mode]
    exact hn
  · have hn : Ready p d bs [] [] (s.ticks p n) := ticks_inv (fun _ h => h.tick hv) n h
    exact hn.drive

theorem word_carries (hv : p.Valid) (hw : p.Wired others) (x : Word) (c : Wire) :
    Carries p (some .unique) (Sends p) (Sends p) (BusCode.act (.word x)) c := by
  apply Follows.act
  · exact fun _ _ _ => rfl
  · intro s a t ⟨bs, ws, htaken, hq, hs⟩ ⟨n, m, ha, ht⟩
    have hm : Driving p c.chip bs ws (((s.ticks p n).enter p .qtx).ticks p m) :=
      ticks_inv (fun _ h => h.tick hv hw hq) m (Sends.enter hv hw hq hs n)
    refine ⟨ha, bs, ws ++ [x], ?_, hq, .inl (hm.put ht)⟩
    show c.taken.map _ = _
    rw [htaken]
    rfl
  · intro s ⟨bs, ws, htaken, hq, hs⟩
    obtain ⟨m, hm⟩ := (Sends.enter hv hw hq hs 0).drains hv hw hq
    obtain ⟨t, ht⟩ := put_some x hm
    exact ⟨0, t, 0, m, rfl, ht⟩

theorem restore_carries (mask : Word) (c : Wire) :
    Carries p (some .unique) (Idle p) (Idle p) (BusCode.act (.restore mask)) c := by
  apply Follows.act
  · exact fun _ _ _ => rfl
  · intro s a t hs ⟨n, ha, ht⟩
    have hn : Idle p (s.ticks p n) c := ticks_inv (P := (Idle p · c)) (fun _ h => h.tick) n hs
    exact ⟨ha, ht ▸ hn.setPins mask⟩
  · exact fun s _ => ⟨0, _, 0, rfl, rfl⟩

/-! ### The CS line rises -/

theorem deselect_idle {c : Wire} {bs : List Byte} {ws : List Word} (hw : c.taken = some (bs, ws))
    (bs' : List Byte) (ns : List Word) (hchip : s.port.chip = c.chip) (ht : s.port.taken = some (bs', ns))
    (hclk : s.port.clk = s.latch p.clk) (hrelease : Port.release c.chip bs' ns = c.chip.deselect p bs ws)
    (hsm : s.mode = some .fdx → s.sm = ⟨0, s.sm.osr, s.sm.osrCount, 0, 0, [], []⟩ ∧ 8 ≤ s.sm.osrCount)
    (hqtx : s.mode = some .qtx → (∃ j < 5, s.sm.pc = 18 + 2 * j) ∧ QTX_SPAN ≤ s.sm.osrCount ∧ s.sm.tx = []) :
    Idle p s.deselect (Wire.own p (.line true) c).2 := by
  refine ⟨rfl, ?_, rfl, hclk, hsm, hqtx⟩
  show s.port.taken.elim _ _ = c.taken.elim _ _
  rw [hw, ht, hchip]
  exact hrelease

theorem Ready.rise (hv : p.Valid) {c : Wire} {bs : List Byte} (h : Ready p c.chip bs [] [] s)
    (hw : c.taken = some (bs, [])) {n : Nat} {u : Rig} (hu : (s.ticks p n).Settles p u) :
    Idle p u.deselect (Wire.own p (.line true) c).2 := by
  have hn : Ready p c.chip bs [] [] (s.ticks p n) := ticks_inv (fun _ h => h.tick hv) n h
  unfold Settles at hu
  rw [hn.mode] at hu
  obtain rfl : u = s.ticks p n := hu
  refine deselect_idle hw bs [] ?_ ?_ ?_ (Port.release_nib p bs []) (fun _ => ⟨hn.sm, hn.empty⟩) ?_
  · rw [hn.port]
  · rw [hn.port]
  · rw [hn.port]
  · intro hqtx
    cases hn.mode.symm.trans hqtx

theorem Ready.settles {d : Chip} {bs : List Byte} (h : Ready p d bs [] [] s) : (s.ticks p 0).Settles p s := by
  unfold Settles
  rw [show (s.ticks p 0).mode = some .fdx from h.mode]
  rfl

theorem bytes_rise (hv : p.Valid) (c : Wire) : Carries p h (Bytes p) (Idle p) (BusCode.act (.line true)) c := by
  apply Follows.act
  · exact fun s ⟨_, _, hs⟩ hloud => absurd hloud (quiet_of_mode rfl (by rw [hs.mode]; decide))
  · intro s a t ⟨bs, hw, hs⟩ ⟨n, u, hu, ha, ht⟩
    exact ⟨ha, ht ▸ hs.rise hv hw hu⟩
  · exact fun s ⟨bs, _, hs⟩ => ⟨0, _, 0, s, hs.settles, rfl, rfl⟩

theorem reads_rise (hv : p.Valid) (c : Wire) : Carries p h (Reads p) (Idle p) (BusCode.act (.line true)) c := by
  apply Follows.act
  · exact fun s hs hloud => absurd hloud (hs.quiet rfl)
  · intro s a t ⟨args, got, hw, hlen, hs⟩ ⟨n, u, hu, ha, ht⟩
    refine ⟨ha, ht ▸ ?_⟩
    rcases hs with hs | ⟨rfl, hs, -⟩
    · have hn : Receiving p c.chip (0x03 :: args) got (s.ticks p n) :=
        ticks_inv (fun _ h => h.tick hv (Nat.succ_le_succ hlen)) n hs
      obtain ⟨k, clk, dout, hport, hclk⟩ := hn.port
      unfold Settles at hu
      rw [hn.mode] at hu
      obtain rfl : u = { s.ticks p n with mode := none } := hu
      refine deselect_idle hw (0x03 :: args ++ List.replicate (k / 8) 0) [] ?_ ?_ ?_ ?_ nofun nofun
      · exact congrArg Port.chip hport
      · exact congrArg Port.taken hport
      · exact (congrArg Port.clk hport).trans hclk
      · exact (Port.release_nib p _ []).trans ((Port.deselect_read _ []).trans (Port.deselect_read _ []).symm)
    · exact hs.rise hv (by rw [hw, Nat.mul_zero, List.replicate_zero, List.append_nil]) hu
  · intro s ⟨args, got, hw, hlen, hs⟩
    rcases hs with hs | ⟨-, hs, -⟩
    · refine ⟨0, _, 0, { s with mode := none }, ?_, rfl, rfl⟩
      unfold Settles
      rw [show (s.ticks p 0).mode = some .rx from hs.mode]
      rfl
    · exact ⟨0, _, 0, s, hs.settles, rfl, rfl⟩

theorem sends_rise (hv : p.Valid) (hw : p.Wired others) (c : Wire) :
    Carries p (some .unique) (Sends p) (Idle p) (BusCode.act (.line true)) c := by
  apply Follows.act
  · exact fun _ _ _ => rfl
  · intro s a t ⟨bs, ws, hc, hq, hs⟩ ⟨n, u, hu, ha, ht⟩
    refine ⟨ha, ht ▸ ?_⟩
    rcases hs with hs | ⟨rfl, hs⟩
    · have hn : Driving p c.chip bs ws (s.ticks p n) := ticks_inv (fun _ h => h.tick hv hw hq) n hs
      unfold Settles at hu
      rw [hn.mode] at hu
      obtain ⟨htx, m, hm, rfl⟩ := hu
      have hend := hn.settles hv hw hq htx (Nat.le_trans (show 3 ≤ DRAIN by decide) hm)
      refine deselect_idle hc bs (ws.map (nib p)) ?_ ?_ ?_ (Port.release_nib p bs ws) ?_ ?_
      · exact congrArg Port.chip hend.port
      · exact congrArg Port.taken hend.port
      · exact congrArg Port.clk hend.port
      · intro hfdx
        cases hend.mode.symm.trans hfdx
      · obtain ⟨hosr, htx⟩ := hend.drained
        exact fun _ => ⟨hend.pc, hosr, htx⟩
    · exact hs.rise hv hc hu
  · intro s ⟨bs, ws, hc, hq, hs⟩
    rcases hs with hs | ⟨-, hs⟩
    · obtain ⟨n, hn⟩ := hs.drains hv hw hq
      refine ⟨0, _, n, (s.ticks p n).ticks p DRAIN, ?_, rfl, rfl⟩
      have hmode : (s.ticks p n).mode = some .qtx :=
        Driving.mode (ticks_inv (fun _ h => h.tick hv hw hq) n hs)
      unfold Settles
      rw [hmode]
      exact ⟨hn, DRAIN, Nat.le_refl _, rfl⟩
    · exact ⟨0, _, 0, s, hs.settles, rfl, rfl⟩

end Rig

/-! ## The driver -/

namespace BusCode

open RwLock.Prog (Follows Carried)
open Rig (Carries Bytes Reads Sends)

variable {p : Pins} {others : List Pins} {d : Chip} {h : Option RwLock.Mode}

theorem setLine_follows {R R' : Rig → Wire → Prop} {value : Bool} {c : Wire}
    (hact : Carries p h R R' (act (.line value)) c) : Carries p h R R' (setLine value) c :=
  hact.bind (.pure _ fun _ hs => hs)

theorem xferByte_follows (b : Byte) (hv : p.Valid) {bs : List Byte} (hq : Port.isQuad bs = false) :
    Carries p h (Bytes p) (Bytes p) (xferByte b) ⟨d, some (bs, [])⟩ :=
  (Rig.byte_carries b hv hq).bind (.pure _ fun _ h => h)

/-- No data on four lines is expected before the last byte. -/
def Plain (bs tx : List Byte) : Prop := ∀ k < tx.length, Port.isQuad (bs ++ tx.take k) = false

theorem Plain.tail {bs tx : List Byte} {b : Byte} (h : Plain bs (b :: tx)) : Plain (bs ++ [b]) tx := by
  intro k hk
  have hnext := h (k + 1) (Nat.succ_lt_succ hk)
  rwa [List.take_succ_cons, List.append_cons] at hnext

theorem isQuad_of_head {op : Byte} (hop : op ≠ 0x32) (bs : List Byte) : Port.isQuad (op :: bs) = false := by
  unfold Port.isQuad
  split
  · next h =>
    rw [← (List.cons.inj h).1]
    exact decide_eq_false hop
  · rfl

theorem plain_of_head {op : Byte} (hop : op ≠ 0x32) (bs tx : List Byte) : Plain (op :: bs) tx :=
  fun k _ => isQuad_of_head hop (bs ++ tx.take k)

theorem plain_command {op : Byte} (hop : op ≠ 0x32) (tx : List Byte) : Plain [] (op :: tx)
  | 0, _ => rfl
  | k + 1, _ => isQuad_of_head hop (tx.take k)

/-- The header of a load, whatever comes after it. -/
theorem plain_header (op b1 b0 : Byte) : Plain [] [op, b1, b0]
  | 0, _ | 1, _ | 2, _ => rfl

theorem sendBytes_follows (hv : p.Valid) (tx : List Byte) : ∀ bs : List Byte, Plain bs tx →
    Carries p h (Bytes p) (Bytes p) (sendBytes tx) ⟨d, some (bs, [])⟩ := by
  induction tx with
  | nil => exact fun _ _ => .pure _ fun _ h => h
  | cons b tx ih =>
    intro bs hplain
    have hq : Port.isQuad bs = false := by
      have h0 := hplain 0 (Nat.zero_lt_succ _)
      rwa [List.take_zero, List.append_nil] at h0
    refine (xferByte_follows b hv hq).bind ?_
    rw [xferByte_alone]
    exact ih _ hplain.tail

theorem receiveBytes_follows (hv : p.Valid) (n : Nat) : ∀ bs : List Byte, Plain bs (List.replicate n 0) →
    Carries p h (Bytes p) (Bytes p) (receiveBytes n) ⟨d, some (bs, [])⟩ := by
  induction n with
  | zero => exact fun _ _ => .pure _ fun _ h => h
  | succ n ih =>
    intro bs hplain
    have hq : Port.isQuad bs = false := by
      have h0 := hplain 0 (by simp)
      rwa [List.take_zero, List.append_nil] at h0
    refine (xferByte_follows 0 hv hq).bind ?_
    rw [xferByte_alone]
    exact (ih _ hplain.tail).bind (.pure _ fun _ h => h)

theorem receiveWords_follows (hv : p.Valid) : ∀ (n : Nat) (c : Wire),
    Carries p h (Reads p) (Reads p) (receiveWords n) c
  | 0, _ => .pure _ fun _ h => h
  | n + 1, c => (Rig.rxWord_carries hv c).bind ((receiveWords_follows hv n _).bind (.pure _ fun _ h => h))

theorem sendWords_follows (hv : p.Valid) (hw : p.Wired others) : ∀ (ws : List Word) (c : Wire),
    Carries p (some .unique) (Sends p) (Sends p) (sendWords ws) c
  | [], _ => .pure _ fun _ h => h
  | w :: ws, c => (Rig.word_carries hv hw w c).bind (sendWords_follows hv hw ws _)

/-- From a high CS line to a high CS line. -/
abbrev Whole {ρ : Type} (p : Pins) (h : Option RwLock.Mode) (x : BusCode ρ) : Prop :=
  Carried (Rig.Does p) (Wire.own p) Rig.Loud (Rig.Idle p) h x

/-- It is enough to start with a high CS line. -/
theorem whole_of {ρ : Type} {x : BusCode ρ} (hd : ∀ d, Carries p h (Rig.Idle p) (Rig.Idle p) x ⟨d, none⟩) :
    Whole p h x := by
  intro ⟨d, taken⟩ s hs
  cases hs.wire
  exact hd d s hs

theorem cmd_whole (hv : p.Valid) {op : Byte} (hop : op ≠ 0x32) (tx : List Byte) (n : Nat) :
    Whole p h (cmd (op :: tx) n) := by
  refine whole_of fun d => ?_
  refine (setLine_follows (Rig.low_carries _)).bind ?_
  rw [setLine_low]
  refine (sendBytes_follows hv _ _ (plain_command hop tx)).bind ?_
  rw [sendBytes_alone]
  refine (receiveBytes_follows hv n _ (plain_of_head hop tx _)).bind ?_
  rw [receiveBytes_alone]
  exact (setLine_follows (Rig.bytes_rise hv _)).bind (.pure _ fun _ h => h)

theorem writeEnable_whole (hv : p.Valid) : Whole p h writeEnable :=
  (cmd_whole hv (by decide) _ _).bind fun _ => .pure _

theorem readStatus_whole (hv : p.Valid) : Whole p h readStatus :=
  (cmd_whole hv (by decide) _ _).bind fun _ => .pure _

theorem waitBusy_whole (hv : p.Valid) : ∀ n : Nat, Whole p h (waitBusy n)
  | 0 => (readStatus_whole hv).bind fun _ => .pure _
  | n + 1 => (readStatus_whole hv).bind fun sr3 => by
    split
    · exact .pure _
    · exact waitBusy_whole hv n

theorem blockErase_whole (hv : p.Valid) (page : Nat) : Whole p h (blockErase page) :=
  (writeEnable_whole hv).bind fun _ => (cmd_whole hv (by decide) _ 0).bind fun _ =>
    (waitBusy_whole hv _).bind fun _ => .pure _

theorem programCommit_whole (hv : p.Valid) (page : Nat) : Whole p h (programCommit page) :=
  (cmd_whole hv (by decide) _ 0).bind fun _ => (waitBusy_whole hv _).bind fun _ => .pure _

theorem pageRead_whole (hv : p.Valid) (page : Nat) : Whole p h (pageRead page) :=
  (cmd_whole hv (by decide) _ 0).bind fun _ => (waitBusy_whole hv _).bind fun _ => .pure _

theorem loadData_whole (hv : p.Valid) (hw : p.Wired others) (noQuad : Bool) (col : Nat) (data : List Byte) :
    Whole p (some .unique) (loadData p others noQuad col data) := by
  refine whole_of fun d => ?_
  refine (setLine_follows (Rig.low_carries _)).bind ?_
  rw [setLine_low]
  split
  · refine (sendBytes_follows hv _ _ (plain_header _ _ _)).bind ?_
    rw [sendBytes_alone]
    refine Follows.mono (T := Sends p) ?_ ?_
    · intro s ⟨bs, hbs, hs⟩
      exact ⟨bs, [], hbs, by cases hbs; rfl, .inr ⟨rfl, hs⟩⟩
    refine (sendWords_follows hv hw _ _).bind ?_
    refine (setLine_follows (Rig.sends_rise hv hw _)).bind ?_
    exact (Rig.restore_carries _ _).bind (.pure _ fun _ h => h)
  · refine (sendBytes_follows hv _ _ (plain_header _ _ _)).bind ?_
    rw [sendBytes_alone]
    refine (sendBytes_follows hv _ _ (plain_of_head (by decide) _ _)).bind ?_
    exact setLine_follows (Rig.bytes_rise hv _)

theorem programBegin_whole (hv : p.Valid) (hw : p.Wired others) (noQuad : Bool) (col : Nat) (data : List Byte) :
    Whole p (some .unique) (programBegin p others noQuad col data) :=
  (writeEnable_whole hv).bind fun _ => (loadData_whole hv hw _ _ _).bind fun _ => .pure _

theorem readBuf_whole (hv : p.Valid) (col len : Nat) : Whole p h (readBuf col len) := by
  unfold readBuf
  dsimp only
  split
  · exact cmd_whole hv (by decide) _ len
  · refine whole_of fun d => ?_
    refine (setLine_follows (Rig.low_carries _)).bind ?_
    rw [setLine_low]
    refine (sendBytes_follows hv _ _ (plain_command (by decide) _)).bind ?_
    rw [sendBytes_alone]
    refine Follows.mono (T := Reads p) ?_ ?_
    · intro s ⟨bs, hbs, hs⟩
      cases hbs
      refine ⟨W25nSpi.colBytes col ++ [(0x00 : Byte)], 0, rfl, ?_, .inr ⟨rfl, hs, ?_⟩⟩
      · simp [W25nSpi.colBytes]
      · simp [W25nSpi.colBytes]
    refine (receiveWords_follows hv _ _).bind ?_
    exact (setLine_follows (Rig.reads_rise hv _)).bind (.pure _ fun _ h => h)

/-! ### The device -/

theorem readLoop_whole (hv : p.Valid) {n : Nat} (length : Nat) : ∀ (offset : Nat) (buffer : Vector Byte n)
    (pos : Nat), Whole p h (readLoop offset buffer pos length) := by
  induction length using Nat.strongRecOn with
  | ind length ih =>
    intro offset buffer pos
    unfold readLoop
    split
    · have hcol : offset % W25N_PAGE_SIZE < W25N_PAGE_SIZE := Nat.mod_lt _ (by decide)
      refine (pageRead_whole hv _).bind fun ok => ?_
      cases ok with
      | false => exact .pure _
      | true => exact (readBuf_whole hv _ _).bind fun _ => ih _ (by omega) _ _ _
    · exact .pure _

theorem writeLoop_whole (hv : p.Valid) (hw : p.Wired others) (noQuad : Bool) {n : Nat} (buffer : Vector Byte n)
    (length : Nat) : ∀ offset pos : Nat, Whole p none (writeLoop p others noQuad offset buffer pos length) := by
  induction length using Nat.strongRecOn with
  | ind length ih =>
    intro offset pos
    unfold writeLoop
    split
    · have hcol : offset % W25N_PAGE_SIZE < W25N_PAGE_SIZE := Nat.mod_lt _ (by decide)
      refine (Carried.locked (programBegin_whole hv hw _ _ _)).bind fun ok => ?_
      cases ok with
      | false => exact .pure _
      | true =>
        refine (Carried.locked (programCommit_whole hv _)).bind fun ok => ?_
        cases ok with
        | false => exact .pure _
        | true => exact ih _ (by omega) _ _
    · exact .pure _

theorem eraseBlocks_whole (hv : p.Valid) (stop : Nat) : ∀ fuel off : Nat, Whole p h (eraseBlocks stop fuel off)
  | 0, _ => .pure _
  | fuel + 1, off => by
    unfold eraseBlocks
    split
    · refine (blockErase_whole hv _).bind fun ok => ?_
      cases ok with
      | false => exact .pure _
      | true => exact eraseBlocks_whole hv stop fuel _
    · exact .pure _

theorem call_whole (hv : p.Valid) (hw : p.Wired others) (noQuad : Bool) (c : DeviceCall) :
    Whole p none (call p others noQuad c) := by
  cases c with
  | @read offset n buffer => exact (Carried.locked (readLoop_whole hv n _ _ _)).bind fun _ => .pure _
  | @write offset n buffer => exact (writeLoop_whole hv hw _ _ n _ _).bind fun _ => .pure _
  | erase offset length =>
    refine Carried.bind ?_ fun _ => .pure _
    unfold erase
    split
    · exact .pure _
    · exact .locked (eraseBlocks_whole hv _ _ _)

theorem calls_whole (hv : p.Valid) (hw : p.Wired others) (noQuad : Bool) : ∀ cs : List DeviceCall,
    Whole p none (calls p others noQuad cs)
  | [] => .pure _
  | c :: cs => (call_whole hv hw noQuad c).bind fun _ => (calls_whole hv hw noQuad cs).bind fun _ => .pure _

end BusCode

/-! ## Whole runs -/

namespace Rig

variable {e : W25NFlashDevice} {cs : List DeviceCall}

/-- **Any calls, cycle by cycle.** However often the state machine ticks between what the driver does, the
driver is never stuck, and it ends with the answers, and the chip with the contents, of a flat memory. -/
theorem calls_flat (hok : e.Ok) (hv : e.pins.Valid) (hcs : ∀ c ∈ cs, c.InRange W25N_TOTAL_SIZE)
    (latch : Nat → Bool) :
    (BusCode.calls e.pins e.others e.noQuad cs).Goes (Does e.pins) (opened e.pins e.chip latch) ∧
    ∀ as t, (BusCode.calls e.pins e.others e.noQuad cs).Ends (Does e.pins) (opened e.pins e.chip latch) as t →
      t.port.taken = none ∧ (as, t.port.chip) = ((DeviceCall.runHat e cs).1, (DeviceCall.runHat e cs).2.chip) ∧
      (as, (e.setChip t.port.chip).flat) = DeviceCall.runFlat W25N_BLOCK_SIZE e.flat cs := by
  have hwhole := BusCode.calls_whole hv hok.wired e.noQuad cs ⟨e.chip, none⟩ _ (opened_idle e.chip latch)
  refine ⟨hwhole.goes, fun as t ht => ?_⟩
  obtain ⟨has, -, -, hidle⟩ := hwhole.ends ht
  rw [BusCode.calls_alone] at has hidle
  obtain ⟨hflat, hmem⟩ := DeviceCall.runHat_flat cs hok hcs
  refine ⟨hidle.taken, Prod.ext has hidle.chip, Prod.ext (has.trans hflat) (Eq.trans ?_ hmem)⟩
  rw [hidle.chip]
  rfl

theorem calls_flat_u2 :
    let e := Hat.u2u3 false
    ∃ t, (BusCode.calls e.pins e.others e.noQuad
        [.erase 0 131072, .write 2045 (.replicate 8 0x55), .read 2044 (.replicate 8 0)]).Ends (Does e.pins)
      (opened e.pins e.chip fun _ => false)
      [(true, []), (true, []), (true, [0xff, 0x55, 0x55, 0x55, 0x55, 0x55, 0x55, 0x55])] t := by
  intro e
  have hcs : ∀ c ∈ [DeviceCall.erase 0 131072, .write 2045 (.replicate 8 0x55), .read 2044 (.replicate 8 0)],
      c.InRange W25N_TOTAL_SIZE := by
    intro c hc
    simp only [List.mem_cons, List.not_mem_nil, or_false] at hc
    rcases hc with rfl | rfl | rfl <;> simp only [DeviceCall.InRange] <;> decide
  obtain ⟨hgoes, hend⟩ := calls_flat (e := e) ⟨rfl, Pins.u2_wired⟩ ⟨by decide, by decide⟩ hcs fun _ => false
  obtain ⟨as, t, ht⟩ := hgoes.ends
  obtain ⟨-, -, hflat⟩ := hend as t ht
  have has : as = _ := congrArg Prod.fst hflat
  rw [show (DeviceCall.runFlat W25N_BLOCK_SIZE e.flat _).1 =
    [(true, []), (true, []), (true, [0xff, 0x55, 0x55, 0x55, 0x55, 0x55, 0x55, 0x55])] by decide +kernel] at has
  exact ⟨t, has ▸ ht⟩

end Rig

end NandServer
