import HsqOverNand.Qspi.Driver

/-!
# What a call leaves on the bus

`Live s h d`: the device `h`, with the value `d`, finds the bus at rest. Every call on it leaves it
`Live` again and keeps the rest of the bus (`Kept`): the lines, the directions, the other state
machines and the registry. `call_live` puts the calls together.
-/

set_option autoImplicit false

namespace NandServer

/-! ## Masks -/

theorem getLsbD_bit_low {n g : Nat} (hn : n < 32) : (bit n).getLsbD g = true ↔ g = n := by
  rw [getLsbD_bit hn, decide_eq_true_eq]

theorem Dev.getLsbD_restoreMask {ps : List Pins} (hlow : ∀ p ∈ ps, p.io2 < 32 ∧ p.io3 < 32) (g : Nat) :
    (Dev.restoreMask ps).getLsbD g = true ↔ ∃ p ∈ ps, g = p.io2 ∨ g = p.io3 := by
  induction ps with
  | nil => simp [Dev.restoreMask]
  | cons p ps ih =>
    have hp := hlow p (.head _)
    rw [Dev.restoreMask, BitVec.getLsbD_or, BitVec.getLsbD_or, Bool.or_eq_true, Bool.or_eq_true,
      getLsbD_bit_low hp.1, getLsbD_bit_low hp.2, ih fun q hq => hlow q (.tail _ hq)]
    simp [or_assoc]

/-! ## Devices at rest -/

def Pins.gpios (p : Pins) : List Nat := [p.cs, p.clk, p.io0, p.io1, p.io2, p.io3]

/-- Six distinct GPIO numbers of a 32-bit mask. -/
structure Pins.Valid (p : Pins) : Prop where
  nodup : p.gpios.Nodup
  low : ∀ g ∈ p.gpios, g < 32

def Pins.Apart (p q : Pins) : Prop := ∀ g ∈ p.gpios, g ∉ q.gpios

namespace Bus

/-- The open devices: distinct pins and state machines, each one registered. -/
structure Layout (s : Bus) : Prop where
  valid : ∀ h d, s.devs h = some d → d.pins.Valid
  apart : ∀ h h' d d', h ≠ h' → s.devs h = some d → s.devs h' = some d' → d.pins.Apart d'.pins
  sms : ∀ h h' d d', h ≠ h' → s.devs h = some d → s.devs h' = some d' → d.sm ≠ d'.sm
  registered : ∀ h d, s.devs h = some d → some h ∈ s.gDevs

/-- `/WP` or `/HOLD` of an open device. -/
def Protected (s : Bus) (g : Nat) : Prop :=
  ∃ h d, s.devs h = some d ∧ (g = d.pins.io2 ∨ g = d.pins.io3)

/-- See the module doc. -/
structure Live (s : Bus) (h : Nat) (d : Dev) : Prop where
  layout : s.Layout
  stored : ∃ d0, s.devs h = some d0 ∧ d0.pins = d.pins ∧ d0.sm = d.sm
  cs : s.line d.pins.cs = true
  io0 : s.dir d.pins.io0 = true
  io1 : s.dir d.pins.io1 = false
  io2 : s.dir d.pins.io2 = true
  io3 : s.dir d.pins.io3 = true
  latch : ∀ g, s.Protected g → s.latch g = true
  mode : d.mode = .none ∨ s.Runs d d.mode.program
  fifo : (s.sms d.sm).fifo = []
  fdx : s.fdxOnly = true

/-- What a call on `d` keeps. -/
structure Kept (d : Dev) (s : Bus) (d' : Dev) (s' : Bus) : Prop where
  pins : d'.pins = d.pins
  sm : d'.sm = d.sm
  line : s'.line = s.line
  dir : s'.dir = s.dir
  devs : s'.devs = s.devs
  gDevs : s'.gDevs = s.gDevs
  gPio : s'.gPio = s.gPio
  gPioRefs : s'.gPioRefs = s.gPioRefs
  noQuad : s'.noQuad = s.noQuad
  sms : ∀ n, n ≠ d.sm → s'.sms n = s.sms n
  claimed : (s'.sms d.sm).claimed = (s.sms d.sm).claimed

theorem Kept.refl (d : Dev) (s : Bus) : Kept d s d s :=
  ⟨rfl, rfl, rfl, rfl, rfl, rfl, rfl, rfl, rfl, fun _ _ => rfl, rfl⟩

theorem Kept.trans {d d' d'' : Dev} {s s' s'' : Bus} (h : Kept d s d' s') (h' : Kept d' s' d'' s'') :
    Kept d s d'' s'' where
  pins := h'.pins.trans h.pins
  sm := h'.sm.trans h.sm
  line := h'.line.trans h.line
  dir := h'.dir.trans h.dir
  devs := h'.devs.trans h.devs
  gDevs := h'.gDevs.trans h.gDevs
  gPio := h'.gPio.trans h.gPio
  gPioRefs := h'.gPioRefs.trans h.gPioRefs
  noQuad := h'.noQuad.trans h.noQuad
  sms n hn := (h'.sms n (by rwa [h.sm])).trans (h.sms n hn)
  claimed := by
    rw [← h.claimed, ← h.sm]
    exact h'.claimed

section
variable {s s' : Bus} {h : Nat} {d d' : Dev}

theorem Kept.protected (hk : Kept d s d' s') (g : Nat) : s'.Protected g ↔ s.Protected g := by
  rw [Protected, Protected, hk.devs]

theorem Kept.layout (hk : Kept d s d' s') (hl : s.Layout) : s'.Layout where
  valid := by rw [hk.devs]; exact hl.valid
  apart := by rw [hk.devs]; exact hl.apart
  sms := by rw [hk.devs]; exact hl.sms
  registered := by rw [hk.devs, hk.gDevs]; exact hl.registered

/-- At rest again after a call that keeps the rest of the bus. -/
theorem Live.next (hl : s.Live h d) (hk : Kept d s d' s')
    (hlatch : ∀ g, s.Protected g → s'.latch g = true)
    (hmode : d'.mode = .none ∨ s'.Runs d' d'.mode.program) (hfifo : (s'.sms d.sm).fifo = [])
    (hfdx : s'.fdxOnly = true) : s'.Live h d' where
  layout := hk.layout hl.layout
  stored := by
    obtain ⟨d0, h0, hp, hs⟩ := hl.stored
    exact ⟨d0, by rw [hk.devs, h0], by rw [hk.pins, hp], by rw [hk.sm, hs]⟩
  cs := by rw [hk.line, hk.pins]; exact hl.cs
  io0 := by rw [hk.dir, hk.pins]; exact hl.io0
  io1 := by rw [hk.dir, hk.pins]; exact hl.io1
  io2 := by rw [hk.dir, hk.pins]; exact hl.io2
  io3 := by rw [hk.dir, hk.pins]; exact hl.io3
  latch g hg := hlatch g ((hk.protected g).1 hg)
  mode := hmode
  fifo := by rw [hk.sm]; exact hfifo
  fdx := hfdx

theorem Live.valid (hl : s.Live h d) : d.pins.Valid := by
  obtain ⟨d0, h0, hp, -⟩ := hl.stored
  exact hp ▸ hl.layout.valid h d0 h0

/-- IO0 is no protected pin. -/
theorem Live.io0_free (hl : s.Live h d) {g : Nat} (hg : s.Protected g) : g ≠ d.pins.io0 := by
  obtain ⟨d0, h0, hp, -⟩ := hl.stored
  obtain ⟨h', d', hd', hg⟩ := hg
  rw [← hp]
  rintro rfl
  rcases eq_or_ne h' h with rfl | hne
  · rw [h0] at hd'
    cases hd'
    have hn := (hl.layout.valid _ _ h0).nodup
    simp only [Pins.gpios, List.nodup_cons, List.mem_cons, not_or] at hn
    rcases hg with hg | hg
    · exact hn.2.2.1.2.1 hg
    · exact hn.2.2.1.2.2.1 hg
  · refine hl.layout.apart h' h d' d0 hne hd' h0 d0.pins.io0 ?_ (by simp [Pins.gpios])
    rcases hg with hg | hg
    · simp [Pins.gpios, hg]
    · simp [Pins.gpios, hg]

end

/-! ## The parts of a call -/

section
variable {s : Bus} {d : Dev}

/-- `enter_mode` ends with the state machine running the mode's program. -/
structure Entered (d : Dev) (s : Bus) (m : SmMode) (r : Dev × Bus) : Prop where
  kept : Kept d s r.1 r.2
  runs : r.2.Runs r.1 m.program
  mode : r.1.mode = m
  latch : r.2.latch = s.latch
  fdx : r.2.fdxOnly = s.fdxOnly
  fifo : (s.sms d.sm).fifo = [] → (r.2.sms d.sm).fifo = []

theorem enterMode_entered {m : SmMode} (hm : m ≠ .none)
    (hmode : d.mode = .none ∨ s.Runs d d.mode.program) : Entered d s m (d.enterMode s m) := by
  unfold Dev.enterMode
  split
  · rename_i he
    refine ⟨.refl d s, ?_, he, rfl, rfl, id⟩
    have := hmode.resolve_left (he ▸ hm)
    rwa [he] at this
  · refine ⟨⟨rfl, rfl, rfl, rfl, rfl, rfl, rfl, rfl, rfl, fun n hn => ?_, ?_⟩, ?_, rfl, rfl, rfl, fun _ => ?_⟩
    · simp [smSetEnabled, smInit, setSm, hn]
    · simp [smSetEnabled, smInit, setSm]
    · constructor <;> simp [smSetEnabled, smInit, setSm]
    · simp [smSetEnabled, smInit, setSm]

/-- Bytes transferred in the byte program move IO0 only. -/
theorem xferBytes_eq (hr : s.Runs d .fdx) (bs : List Byte) :
    ∃ b, s.xferBytes d bs = { s with latch := Function.update s.latch d.pins.io0 b } := by
  induction bs generalizing s with
  | nil => exact ⟨s.latch d.pins.io0, by simp [xferBytes]⟩
  | cons x bs ih =>
    have hx : xferByte d s x = { s with latch := Function.update s.latch d.pins.io0 (x.getLsbD 0) } := by
      simp [xferByte, hr]
    obtain ⟨b, hb⟩ := ih (s := xferByte d s x) (by rw [hx]; exact hr)
    refine ⟨b, ?_⟩
    show (xferByte d s x).xferBytes d bs = _
    rw [hb, hx]
    simp

theorem driveWords_eq (p : Pins) (ws : List Word) :
    ∃ latch, ws.foldl (driveWord p) s = { s with latch := latch } := by
  induction ws generalizing s with
  | nil => exact ⟨s.latch, rfl⟩
  | cons w ws ih =>
    obtain ⟨latch, hl⟩ := ih (s := driveWord p s w)
    exact ⟨latch, by rw [List.foldl_cons, hl]; rfl⟩

theorem setLine_restore {g : Nat} {line : Nat → Bool} (h : line g = true) :
    Function.update (Function.update line g false) g true = line := by
  rw [Function.update_idem, Function.update_eq_self_iff]
  exact h.symm

end

/-! ## The calls -/

section
variable {s : Bus} {h : Nat} {d : Dev}

/-- A call leaves the device at rest and keeps the rest of the bus. -/
def Rests (h : Nat) (d : Dev) (s : Bus) (r : Dev × Bus) : Prop := r.2.Live h r.1 ∧ Kept d s r.1 r.2

theorem Rests.trans {r r' : Dev × Bus} (h1 : Rests h d s r) (h2 : Rests h r.1 r.2 r') :
    Rests h d s r' :=
  ⟨h2.1, h1.2.trans h2.2⟩

/-- In a byte transfer: the bus is kept but for the selected line and IO0. -/
structure Selected (d : Dev) (s : Bus) (d' : Dev) (s' : Bus) : Prop where
  kept : Kept d s d' (s'.setLine d'.pins.cs true)
  runs : s'.Runs d' .fdx
  mode : d'.mode = .fdx
  latch : ∀ g, g ≠ d.pins.io0 → s'.latch g = s.latch g
  fdx : s'.fdxOnly = true
  fifo : (s'.sms d.sm).fifo = []

theorem Selected.xfer {d' : Dev} {s' : Bus} (hs : Selected d s d' s') (bs : List Byte) :
    Selected d s d' (s'.xferBytes d' bs) := by
  obtain ⟨b, hb⟩ := xferBytes_eq hs.runs bs
  rw [hb]
  refine ⟨{ hs.kept with }, hs.runs, hs.mode, fun g hg => ?_, hs.fdx, hs.fifo⟩
  show Function.update s'.latch d'.pins.io0 b g = _
  rw [hs.kept.pins, Function.update_of_ne hg, hs.latch g hg]

/-- A call starts by selecting the chip. -/
theorem select (hl : s.Live h d) (bs : List Byte) : Selected d s (d.enterMode s .fdx).1
    (((d.enterMode s .fdx).2.setLine (d.enterMode s .fdx).1.pins.cs false).xferBytes
      (d.enterMode s .fdx).1 bs) := by
  have he := enterMode_entered (m := .fdx) (by decide) hl.mode
  generalize d.enterMode s .fdx = r at he
  suffices hs : Selected d s r.1 (r.2.setLine r.1.pins.cs false) from hs.xfer bs
  refine ⟨{ he.kept with line := ?_ }, he.runs, he.mode, fun g _ => ?_, ?_, ?_⟩
  · show Function.update (Function.update r.2.line r.1.pins.cs false) r.1.pins.cs true = s.line
    rw [he.kept.pins, he.kept.line, setLine_restore hl.cs]
  · exact congrFun he.latch g
  · exact he.fdx.trans hl.fdx
  · exact he.fifo hl.fifo

theorem Selected.deselect {d' : Dev} {s' : Bus} (hs : Selected d s d' s') (hl : s.Live h d) :
    Rests h d s (d', s'.setLine d'.pins.cs true) := by
  refine ⟨hl.next hs.kept (fun g hg => ?_) (.inr ?_) hs.fifo hs.fdx, hs.kept⟩
  · exact (hs.latch g (hl.io0_free hg)).trans (hl.latch g hg)
  · rw [hs.mode]
    exact hs.runs

theorem cmd_rests (hl : s.Live h d) (tx : List Byte) (rxlen : Nat) :
    Rests h d s (d.cmd s tx rxlen) :=
  ((select hl tx).xfer _).deselect hl

theorem setClkdiv_rests (hl : s.Live h d) (c : Nat) : Rests h d s (d.setClkdiv s c) := by
  have hk : Kept d s (d.setClkdiv s c).1 s := { Kept.refl d s with }
  exact ⟨hl.next hk hl.latch (.inl rfl) hl.fifo hl.fdx, hk⟩

theorem waitBusy_rests (n : Nat) : ∀ {s : Bus} {d : Dev}, s.Live h d → Rests h d s (d.waitBusy s n) := by
  induction n with
  | zero => exact fun hl => cmd_rests hl _ _
  | succ n ih =>
    intro s d hl
    have hc := cmd_rests hl [0x0f, 0xc0] 1
    exact hc.trans (ih hc.1)

theorem blockErase_rests (hl : s.Live h d) (n page : Nat) : Rests h d s (d.blockErase s n page) := by
  have hw : Rests h d s (d.writeEnable s) := cmd_rests hl _ _
  have he := hw.trans (cmd_rests hw.1 (0xd8 :: W25nSpi.pageBytes page) 0)
  exact he.trans (waitBusy_rests n he.1)

theorem programCommit_rests (hl : s.Live h d) (n page : Nat) :
    Rests h d s (d.programCommit s n page) := by
  have hc := cmd_rests hl (0x10 :: W25nSpi.pageBytes page) 0
  exact hc.trans (waitBusy_rests n hc.1)

theorem pageRead_rests (hl : s.Live h d) (n page : Nat) : Rests h d s (d.pageRead s n page) := by
  have hc := cmd_rests hl (0x13 :: W25nSpi.pageBytes page) 0
  exact hc.trans (waitBusy_rests n hc.1)

/-- A bulk receive leaves the state machine off and in no mode. -/
structure Received (d : Dev) (s : Bus) (r : Dev × Bus) : Prop where
  kept : Kept d s r.1 r.2
  mode : r.1.mode = .none
  latch : r.2.latch = s.latch
  fdx : r.2.fdxOnly = s.fdxOnly
  fifo : (r.2.sms d.sm).fifo = []

theorem receive_received (d : Dev) (s : Bus) (pr : Program) : Received d s (d.receive s pr) := by
  refine ⟨⟨rfl, rfl, rfl, rfl, rfl, rfl, rfl, rfl, rfl, fun n hn => ?_, ?_⟩, rfl, rfl, rfl, ?_⟩
  · simp [Dev.receive, smSetEnabled, smInit, setSm, hn]
  · simp [Dev.receive, smSetEnabled, smInit, setSm]
  · simp [Dev.receive, smSetEnabled, smInit, setSm]

theorem Kept.setLine {d' : Dev} {s' : Bus} (hk : Kept d s d' s') (g : Nat) (v : Bool) :
    Kept d (s.setLine g v) d' (s'.setLine g v) := by
  refine { hk with line := ?_ }
  show Function.update s'.line g v = Function.update s.line g v
  rw [hk.line]

/-- After the transfer the state machine is off, and the chip is deselected. -/
theorem Selected.receive {d' : Dev} {s' : Bus} (hs : Selected d s d' s') (pr : Program)
    {r : Dev × Bus} (hr : d'.receive s' pr = r) :
    Kept d s r.1 (r.2.setLine r.1.pins.cs true) ∧ r.1.mode = .none ∧
      (∀ g, g ≠ d.pins.io0 → r.2.latch g = s.latch g) ∧ r.2.fdxOnly = true ∧
      (r.2.sms d.sm).fifo = [] := by
  have hrec := receive_received d' s' pr
  rw [hr] at hrec
  refine ⟨?_, hrec.mode, fun g hg => ?_, hrec.fdx.trans hs.fdx, ?_⟩
  · rw [hrec.kept.pins]
    exact hs.kept.trans (hrec.kept.setLine _ _)
  · rw [hrec.latch]
    exact hs.latch g hg
  · have := hs.kept.sm
    exact this ▸ hrec.fifo

theorem readBuf_rests (hl : s.Live h d) (col len : Nat) : Rests h d s (d.readBuf s col len) := by
  unfold Dev.readBuf
  split
  · exact cmd_rests hl _ _
  · obtain ⟨hk, hmode, hlatch, hfdx, hfifo⟩ := (select hl _).receive .rx rfl
    exact ⟨hl.next hk (fun g hg => (hlatch g (hl.io0_free hg)).trans (hl.latch g hg)) (.inl hmode)
      hfifo hfdx, hk⟩

/-! ### Restoring the pins -/

theorem mem_registered {p : Pins} : p ∈ s.registered ↔
    ∃ h d, some h ∈ s.gDevs ∧ s.devs h = some d ∧ d.pins = p := by
  unfold registered
  rw [List.mem_filterMap]
  constructor
  · rintro ⟨o, ho, he⟩
    rw [Option.map_eq_some_iff] at he
    obtain ⟨d, hd, hp⟩ := he
    rw [Option.bind_eq_some_iff] at hd
    obtain ⟨h, rfl, hd⟩ := hd
    exact ⟨h, d, ho, hd, hp⟩
  · rintro ⟨h, d, ho, hd, hp⟩
    exact ⟨some h, ho, by simp [hd, hp]⟩

/-- `restore_wp_hold` lifts every protected pin. -/
theorem restoreWpHold_latch (hl : s.Layout) {g : Nat} (hg : s.Protected g) :
    (Dev.restoreWpHold s).latch g = true := by
  have hlow : ∀ p ∈ s.registered, p.io2 < 32 ∧ p.io3 < 32 := by
    intro p hp
    obtain ⟨h, d, -, hd, rfl⟩ := mem_registered.1 hp
    have hv := (hl.valid h d hd).low
    exact ⟨hv _ (by simp [Pins.gpios]), hv _ (by simp [Pins.gpios])⟩
  have hmask : (Dev.restoreMask s.registered).getLsbD g = true := by
    obtain ⟨h, d, hd, hg⟩ := hg
    exact (Dev.getLsbD_restoreMask hlow g).2
      ⟨d.pins, mem_registered.2 ⟨h, d, hl.registered h d hd, hd, rfl⟩, hg⟩
  show (if _ then _ else _) = true
  rw [if_pos hmask]
  exact hmask

/-- Pins of a mask turned and turned back. -/
theorem setPindirs_restore {m : Word} {v : Bool} (h : ∀ g, m.getLsbD g = true → s.dir g = v)
    {a b : Word} (hb : ∀ g, m.getLsbD g = true → b.getLsbD g = v) :
    ((s.setPindirsWithMask a m).setPindirsWithMask b m).dir = s.dir := by
  funext g
  show (if m.getLsbD g then b.getLsbD g else if m.getLsbD g then a.getLsbD g else s.dir g) = s.dir g
  by_cases hm : m.getLsbD g = true
  · rw [if_pos hm, hb g hm, h g hm]
  · rw [if_neg hm, if_neg hm]

theorem Kept.restoreWpHold {d' : Dev} {s' : Bus} (hk : Kept d s d' s') (hl : s.Live h d)
    (hmode : d'.mode = .none ∨ s'.Runs d' d'.mode.program) (hfifo : (s'.sms d.sm).fifo = [])
    (hfdx : s'.fdxOnly = true) : Rests h d s (d', Dev.restoreWpHold s') := by
  have hk' : Kept d s d' (Dev.restoreWpHold s') := { hk with }
  refine ⟨hl.next hk' (fun g hg => ?_) hmode hfifo hfdx, hk'⟩
  exact restoreWpHold_latch (hk.layout hl.layout) ((hk.protected g).2 hg)

theorem quadReadBuf_rests (hl : s.Live h d) (col len : Nat) :
    Rests h d s (d.quadReadBuf s col len) := by
  unfold Dev.quadReadBuf
  split
  · exact ⟨hl, .refl d s⟩
  have hsel := (select hl (0x6b :: W25nSpi.colBytes col)).xfer [0x00]
  generalize d.enterMode s .fdx = r at hsel
  obtain ⟨hk, hmode, -, hfdx, hfifo⟩ := hsel.receive .qrx rfl
  have hpins : r.1.pins = d.pins := hsel.kept.pins
  have hv := hl.valid.low
  have hmask : ∀ g, (bit r.1.pins.io0 ||| bit r.1.pins.io2 ||| bit r.1.pins.io3).getLsbD g = true →
      s.dir g = true := by
    intro g hg
    rw [hpins, BitVec.getLsbD_or, BitVec.getLsbD_or, Bool.or_eq_true, Bool.or_eq_true,
      getLsbD_bit_low (hv _ (by simp [Pins.gpios])), getLsbD_bit_low (hv _ (by simp [Pins.gpios])),
      getLsbD_bit_low (hv _ (by simp [Pins.gpios]))] at hg
    rcases hg with (rfl | rfl) | rfl
    · exact hl.io0
    · exact hl.io2
    · exact hl.io3
  refine Kept.restoreWpHold { hk with dir := ?_ } hl (.inl hmode) hfifo hfdx
  -- the receive changes no direction, so both changes of the mask meet
  exact (setPindirs_restore (fun g hg => (congrFun hk.dir g).trans (hmask g hg)) fun g hg => hg).trans
    hk.dir

/-! ### The x4 send -/

theorem enterMode_fst (m : SmMode) : (d.enterMode s m).1 = { d with mode := m } := by
  unfold Dev.enterMode
  split
  · rename_i he
    rw [← he]
  · rfl

theorem setupDma_eq (d : Dev) (env : Dev.TxEnv) : ∃ a b, d.setupDma env =
    { d with noQuadDma := a, quadDmaReady := b } := by
  unfold Dev.setupDma
  split
  · exact ⟨d.noQuadDma, d.quadDmaReady, rfl⟩
  split
  · exact ⟨d.noQuadDma, true, rfl⟩
  · exact ⟨true, d.quadDmaReady, rfl⟩

theorem setupDma_mode (d : Dev) (env : Dev.TxEnv) (m : SmMode) :
    Dev.setupDma { d with mode := m } env = { d.setupDma env with mode := m } := by
  unfold Dev.setupDma
  by_cases h1 : d.noQuadDma = true ∨ d.quadDmaReady = true
  · rw [if_pos h1, if_pos h1]
  · rw [if_neg h1, if_neg h1]
    cases env.configXfer <;> rfl

theorem setSm_fifo {n : Nat} (hfifo : (s.sms n).fifo = []) :
    (s.setSm n fun m => { m with fifo := [] }) = s := by
  show { s with sms := Function.update s.sms n ⟨_, _, _, []⟩ } = s
  rw [← hfifo, Function.update_eq_self]

/-- After an x4 send the state machine runs its program, and has no word left. -/
theorem qtxBulk_kept (hmode : d.mode = .none ∨ s.Runs d d.mode.program)
    (hfifo : (s.sms d.sm).fifo = []) {data : List Byte} {env : Dev.TxEnv}
    (hset : d.Settled s h data env) {q : Bool × Dev × Bus} (hq : d.qtxBulk s h data env = q) :
    Kept d s q.2.1 q.2.2 ∧ q.2.2.Runs q.2.1 q.2.1.mode.program ∧ q.2.2.fdxOnly = s.fdxOnly ∧
      (q.2.2.sms d.sm).fifo = [] := by
  have he := enterMode_entered (m := .qtx) (by decide) hmode
  have hd : (d.enterMode s .qtx).1.setupDma env = { d.setupDma env with mode := .qtx } := by
    rw [enterMode_fst, setupDma_mode]
  have hcfg : (d.enterMode s .qtx).1 = { d with mode := .qtx } := enterMode_fst .qtx
  unfold Dev.qtxBulk at hq
  dsimp only at hq
  rw [hd] at hq
  obtain ⟨a, b, hflags⟩ := setupDma_eq d env
  generalize d.enterMode s .qtx = r at he hcfg hq
  obtain ⟨d1, s1⟩ := r
  obtain rfl : d1 = { d with mode := .qtx } := hcfg
  have hkept := he.kept
  have hsm : (d.setupDma env).sm = d.sm := by rw [hflags]
  have hpins : (d.setupDma env).pins = d.pins := by rw [hflags]
  have hcfg : (d.setupDma env).cfg = d.cfg := by rw [hflags]
  have hruns : (s1.sms d.sm).enabled = true ∧ (s1.sms d.sm).config = some (d.cfg .qtx) := he.runs
  have hok : ∀ env, Dev.sendOk { d.setupDma env with mode := .qtx } env = (d.setupDma env).sendOk env :=
    fun _ => rfl
  rw [hok] at hq
  -- in both cases only the latches differ from the state after `enter_mode`
  obtain ⟨l, rfl⟩ : ∃ l, q = ((d.setupDma env).sendOk env, { d.setupDma env with mode := .qtx },
      { s1 with latch := l }) := by
    split at hq
    · rename_i hsend
      obtain ⟨l, hl⟩ := driveWords_eq (s := s1) (d.setupDma env).pins (d.pins.qtxWords (s.others h) data)
      exact ⟨l, by rw [← hq, hl, hsend]⟩
    · rename_i hfail
      obtain ⟨l, hl⟩ := driveWords_eq (s := s1) (d.setupDma env).pins
        ((d.pins.qtxWords (s.others h) data).take env.driven)
      refine ⟨l, ?_⟩
      rw [← hq, hl, hset (by simpa using hfail)]
      simp only [hsm, setSm_fifo (s := { s1 with latch := l }) (he.fifo hfifo)]
      simp [hfail]
  refine ⟨{ hkept with pins := hpins, sm := hsm }, ?_, he.fdx, he.fifo hfifo⟩
  show (s1.sms (d.setupDma env).sm).enabled = true ∧ _ = some ((d.setupDma env).cfg .qtx)
  rw [hsm, hcfg]
  exact hruns

theorem Kept.setPindirs {d' : Dev} {s' : Bus} (hk : Kept d s d' s') (v m : Word) :
    Kept d (s.setPindirsWithMask v m) d' (s'.setPindirsWithMask v m) := by
  refine { hk with dir := ?_ }
  show (fun g => if m.getLsbD g then v.getLsbD g else s'.dir g) = _
  rw [hk.dir]
  rfl

theorem Kept.settled {d' : Dev} {s' : Bus} (hk : Kept d s d' s') {m : SmMode}
    (hd : d' = { d with mode := m }) {data : List Byte} {env : Dev.TxEnv}
    (hset : d.Settled s h data env) : d'.Settled s' h data env := by
  intro hfail
  rw [hd, setupDma_mode] at hfail
  have hothers : s'.others h = s.others h := by
    unfold others
    rw [hk.gDevs, hk.devs]
  rw [hk.pins, hothers]
  exact hset hfail

theorem loadData_rests (hl : s.Live h d) (col : Nat) {data : List Byte} {env : Dev.TxEnv}
    (hset : Dev.isQuad s data.length → d.Settled s h data env) :
    Rests h d s (d.loadData s h col data env).2 := by
  unfold Dev.loadData
  dsimp only
  have hsel := fun bs => select hl bs
  have hfst := enterMode_fst (d := d) (s := s) .fdx
  generalize d.enterMode s .fdx = r at hsel hfst ⊢
  split
  · rename_i hquad
    have hsel := hsel (0x32 :: W25nSpi.colBytes col)
    generalize ((r.2.setLine r.1.pins.cs false).xferBytes r.1 _) = s1 at hsel ⊢
    generalize hm : bit r.1.pins.io1 ||| bit r.1.pins.io2 ||| bit r.1.pins.io3 = m
    have hsm := hsel.kept.sm
    have hset' : r.1.Settled (s1.setPindirsWithMask m m) h data env :=
      hsel.kept.settled hfst (hset hquad)
    obtain ⟨hq, hruns, hfdx, hfifo⟩ := qtxBulk_kept (s := s1.setPindirsWithMask m m)
      (.inr (by rw [hsel.mode]; exact hsel.runs)) (by rw [hsm]; exact hsel.fifo) hset' rfl
    have hu : Kept d s r.1 (((s1.setPindirsWithMask m m).setLine r.1.pins.cs true).setPindirsWithMask 0
        (bit r.1.pins.io1)) := by
      refine { hsel.kept with dir := funext fun g => ?_ }
      have hdir : s1.dir g = s.dir g := congrFun hsel.kept.dir g
      have hv := hl.valid.low
      have hio1 : (bit r.1.pins.io1).getLsbD g = true ↔ g = d.pins.io1 := by
        rw [hsel.kept.pins, getLsbD_bit_low (hv _ (by simp [Pins.gpios]))]
      have hio : m.getLsbD g = true ↔ (g = d.pins.io1 ∨ g = d.pins.io2) ∨ g = d.pins.io3 := by
        rw [← hm, BitVec.getLsbD_or, BitVec.getLsbD_or, Bool.or_eq_true, Bool.or_eq_true, hio1,
          hsel.kept.pins, getLsbD_bit_low (hv _ (by simp [Pins.gpios])),
          getLsbD_bit_low (hv _ (by simp [Pins.gpios]))]
      show (if (bit r.1.pins.io1).getLsbD g then (0 : Word).getLsbD g
        else if m.getLsbD g then m.getLsbD g else s1.dir g) = s.dir g
      by_cases h1 : (bit r.1.pins.io1).getLsbD g = true
      · rw [if_pos h1, hio1.1 h1, hl.io1]
        simp
      rw [if_neg h1]
      by_cases hmg : m.getLsbD g = true
      · rw [if_pos hmg, hmg]
        rcases hio.1 hmg with (he | rfl) | rfl
        · exact absurd (hio1.2 he) h1
        · exact hl.io2.symm
        · exact hl.io3.symm
      · rw [if_neg hmg, hdir]
    have hk := hu.trans ((hq.setLine _ _).setPindirs _ _)
    exact hk.restoreWpHold hl (.inr hruns) (by rw [← hsm]; exact hfifo) (hfdx.trans hsel.fdx)
  · exact ((hsel _).xfer data).deselect hl

theorem cmd_fst (tx : List Byte) (rxlen : Nat) : (d.cmd s tx rxlen).1 = { d with mode := .fdx } :=
  enterMode_fst .fdx

/-- The x4 sends of a call leave no word behind. -/
def CallSettled (d : Dev) (s : Bus) (h : Nat) : DevCall → Prop
  | .programBegin _ data env => Dev.isQuad s data.length → d.Settled s h data env
  | _ => True

/-- **Every call leaves its device at rest.** -/
theorem call_rests (hl : s.Live h d) (c : DevCall) (hset : CallSettled d s h c) :
    Rests h d s (d.call s h c) := by
  cases c with
  | cmd tx rxlen => exact cmd_rests hl tx rxlen
  | programBegin col data env =>
    have hw : Rests h d s (d.writeEnable s) := cmd_rests hl _ _
    refine hw.trans (loadData_rests hw.1 col fun hq => hw.2.settled (cmd_fst _ _) (hset ?_))
    rw [Dev.isQuad, hw.2.noQuad] at hq
    exact hq
  | programCommit n page => exact programCommit_rests hl n page
  | pageRead n page => exact pageRead_rests hl n page
  | readBuf col len => exact readBuf_rests hl col len
  | quadReadBuf col len => exact quadReadBuf_rests hl col len
  | setClkdiv clk => exact setClkdiv_rests hl clk
  | blockErase n page => exact blockErase_rests hl n page

end

end Bus

end NandServer
