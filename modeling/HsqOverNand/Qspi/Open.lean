import HsqOverNand.Qspi.Device
import HsqOverNand.Qspi.Driver
import HsqOverNand.Spi.Board

/-!
# Opening the chips of the HAT (`include/W25NFlashDevice.hpp`, `src/qspi/w25n_pio.c`)

`HatBoard` is the driver with the chips behind its pins, `openHat` is `W25NFlashDevice::open`, and `probe` looks
for a HAT. `openHat_opened`: what an opened chip is left as; `probe_opened`: a probe changes no chip.

* A call on an open device does not fail: `w25n_cmd` returns 0, and a missing chip leaves its input floating.
* `w25n_jedec_id`, `w25n_unprotect` and `w25n_set_ecc` are those of `w25n_spidev.c`, sent through `w25n_cmd`.
-/

set_option autoImplicit false

namespace NandServer

structure HatBoard where
  bus : Bus
  /-- The chips, by their pins. -/
  chips : Pins → Option RegChip
  /-- What happens when a device is opened. -/
  env : Pins → OpenEnv
  /-- `/dev/pio0` is there. -/
  pio0 : Bool
  /-- What a floating input reads. -/
  floating : Byte
  /-- The address of the next device. -/
  next : Nat

namespace HatBoard

abbrev CLKDIV : Nat := 10

def w25nOpen (p : Pins) (b : HatBoard) : Option Nat × HatBoard :=
  let r := b.bus.openDev b.next p CLKDIV (b.env p)
  (if r.1 then some b.next else none, { b with bus := r.2, next := b.next + 1 })

def w25nClose (h : Nat) (b : HatBoard) : HatBoard := { b with bus := b.bus.step (.closeDev h) }

def w25nCmd (h : Nat) (tx : List Byte) (len : Nat) (b : HatBoard) : Vector Byte len × HatBoard :=
  match b.bus.devs h with
  | none => (.replicate len b.floating, b)
  | some d =>
    let s := b.bus.step (.call h (.cmd tx len))
    match b.chips d.pins with
    | none => (.replicate len b.floating, { b with bus := s })
    | some c =>
      let r := c.transfer tx len
      (r.1.getD (.replicate len b.floating),
        { b with bus := s, chips := Function.update b.chips d.pins (some r.2) })

/-- The calls that are sent through `w25n_cmd`. -/
def spi (h : Nat) : SpiBus HatBoard :=
  ⟨fun tx len b => (some (b.w25nCmd h tx len).1, (b.w25nCmd h tx len).2), fun _ => 0⟩

/-- The pins of a chip. -/
def pinsOf (chip : Text) : Pins := if chip = "u3".toList then Pins.U3 else Pins.U2

/-- `W25NFlashDevice::open` -/
def openHat (chip : Text) (b : HatBoard) : Option Nat × HatBoard :=
  let r := b.w25nOpen (pinsOf chip)
  match r.1 with
  | none => (none, r.2)
  | some h =>
    let j := (spi h).jedecOk r.2
    if j.1 then
      let u := (spi h).unlock j.2
      if u.1 then (some h, u.2) else (none, u.2.w25nClose h)
    else (none, j.2.w25nClose h)

def probe (b : HatBoard) : Bool × HatBoard :=
  if b.pio0 then
    let r := b.w25nOpen Pins.U2
    match r.1 with
    | none => (false, r.2)
    | some h =>
      let j := (spi h).jedecOk r.2
      (j.1, j.2.w25nClose h)
  else (false, b)

/-- An open device with its chip. -/
def device (h : Nat) (b : HatBoard) : Option W25NFlashDevice :=
  (b.bus.devs h).bind fun d => (b.chips d.pins).map fun c =>
    ⟨c.chip, d.pins, b.bus.others h, b.bus.noQuad⟩

/-! ## The open devices -/

/-- The devices that are open, oldest first, each one in its byte program. -/
structure Opened (ds : List (Nat × Pins)) (b : HatBoard) : Prop where
  devs : ∀ e ∈ ds, ∃ d, b.bus.devs e.1 = some d ∧ d.pins = e.2 ∧ d.mode = .fdx
  gDevs : b.bus.gDevs = ds.map (fun e => some e.1) ++ List.replicate (4 - ds.length) none
  claimed : ∀ n, (b.bus.sms n).claimed = true → ∃ e ∈ ds, e.2.sm = n
  refs : b.bus.gPioRefs = ds.length
  fresh : ∀ e ∈ ds, e.1 < b.next

/-- What no call changes. -/
structure Kept (b b' : HatBoard) : Prop where
  env : b'.env = b.env
  floating : b'.floating = b.floating
  noQuad : b'.bus.noQuad = b.bus.noQuad

theorem Kept.trans {b b' b'' : HatBoard} (h : Kept b b') (h' : Kept b' b'') : Kept b b'' :=
  ⟨h'.env.trans h.env, h'.floating.trans h.floating, h'.noQuad.trans h.noQuad⟩

theorem xferBytes_wires (d : Dev) (bs : List Byte) : ∀ s : Bus, ∃ latch fdxOnly,
    s.xferBytes d bs = { s with latch := latch, fdxOnly := fdxOnly } := by
  induction bs with
  | nil => exact fun s => ⟨s.latch, s.fdxOnly, rfl⟩
  | cons x bs ih =>
    intro s
    obtain ⟨latch, fdxOnly, h⟩ := ih (s.xferByte d x)
    exact ⟨latch, fdxOnly, h⟩

/-- A command in the byte program moves wires only. -/
theorem step_cmd {s : Bus} {h : Nat} {d : Dev} (hd : s.devs h = some d) (hm : d.mode = .fdx) (tx : List Byte)
    (len : Nat) : ∃ latch line fdxOnly, s.step (.call h (.cmd tx len)) =
      { s with latch := latch, line := line, fdxOnly := fdxOnly } := by
  obtain ⟨latch, fdxOnly, hsend⟩ := xferBytes_wires d tx (s.setLine d.pins.cs false)
  obtain ⟨latch', fdxOnly', hreceive⟩ := xferBytes_wires d (List.replicate len 0)
    ((s.setLine d.pins.cs false).xferBytes d tx)
  have hcmd : ∃ line, d.cmd s tx len =
      (d, { s with latch := latch', line := line, fdxOnly := fdxOnly' }) := by
    unfold Dev.cmd Dev.enterMode
    rw [if_pos hm]
    dsimp only
    rw [hreceive, hsend]
    exact ⟨_, rfl⟩
  obtain ⟨line, hcmd⟩ := hcmd
  refine ⟨latch', line, fdxOnly', ?_⟩
  have hkeep : Function.update s.devs h (some d) = s.devs := by
    rw [← hd]
    exact Function.update_eq_self h s.devs
  have hcall : d.call s h (.cmd tx len) =
      (d, { s with latch := latch', line := line, fdxOnly := fdxOnly' }) := hcmd
  simp only [Bus.step, hd, hcall, hkeep]

/-- One of the open devices and its chip. -/
structure Held (b : HatBoard) (ds : List (Nat × Pins)) (p : Pins) (b' : HatBoard) (c : RegChip) : Prop where
  opened : Opened ds b'
  chips : b'.chips = Function.update b.chips p (some c)
  kept : Kept b b'

theorem Held.refl {b : HatBoard} {ds : List (Nat × Pins)} {p : Pins} {c : RegChip} (ho : Opened ds b)
    (hc : b.chips p = some c) : Held b ds p b c where
  opened := ho
  chips := by rw [← hc, Function.update_eq_self]
  kept := ⟨rfl, rfl, rfl⟩

end HatBoard

/-- A chip on a bus whose transfers do not fail. -/
def RegChip.pioBus (floating : Byte) : SpiBus RegChip :=
  ⟨fun tx len d => (some ((d.transfer tx len).1.getD (.replicate len floating)), (d.transfer tx len).2),
    fun _ => 0⟩

theorem RegChip.pioBus_unlock (floating : Byte) (d : RegChip) : (pioBus floating).unlock d = bus.unlock d := rfl

namespace HatBoard

section
variable {b : HatBoard} {ds : List (Nat × Pins)} {h : Nat} {p : Pins} (hmem : (h, p) ∈ ds)
include hmem

theorem cmd_held (tx : List Byte) (len : Nat) (b' : HatBoard) (c : RegChip) (hh : Held b ds p b' c) :
    ((spi h).transfer tx len b').1 = ((RegChip.pioBus b.floating).transfer tx len c).1 ∧
      Held b ds p ((spi h).transfer tx len b').2 ((RegChip.pioBus b.floating).transfer tx len c).2 := by
  obtain ⟨d, hd, hp, hm⟩ := hh.opened.devs _ hmem
  have hp : d.pins = p := hp
  obtain ⟨latch, line, fdxOnly, hstep⟩ := step_cmd hd hm tx len
  have hchip : b'.chips d.pins = some c := by rw [hp, hh.chips, Function.update_self]
  have hcmd : b'.w25nCmd h tx len = ((c.transfer tx len).1.getD (.replicate len b'.floating),
      { b' with bus := { b'.bus with latch := latch, line := line, fdxOnly := fdxOnly },
                chips := Function.update b'.chips d.pins (some (c.transfer tx len).2) }) := by
    unfold w25nCmd
    simp only [hd, hchip, hstep]
  simp only [spi, RegChip.pioBus, hcmd, hh.kept.floating, true_and]
  obtain ⟨hdevs, hgDevs, hclaimed, hrefs, hfresh⟩ := hh.opened
  refine ⟨⟨hdevs, hgDevs, hclaimed, hrefs, hfresh⟩, ?_, hh.kept.env, rfl, hh.kept.noQuad⟩
  rw [hp, hh.chips, Function.update_idem]

theorem jedecOk_held (ho : Opened ds b) {c : RegChip} (hc : b.chips p = some c) :
    ((spi h).jedecOk b).1 = (RegChip.bus.jedecOk c).1 ∧ Held b ds p ((spi h).jedecOk b).2 c := by
  obtain ⟨hok, hh⟩ := SpiBus.jedecOk_part (cmd_held hmem) (Held.refl ho hc)
  exact ⟨hok, hh⟩

theorem unlock_held (ho : Opened ds b) {c : RegChip} (hc : b.chips p = some c) (hu : c.Unlockable) :
    ((spi h).unlock b).1 = true ∧ Held b ds p ((spi h).unlock b).2 c.unlocked := by
  obtain ⟨hok, hh⟩ := SpiBus.unlock_part (cmd_held hmem) (Held.refl ho hc) fun _ _ _ => rfl
  rw [RegChip.pioBus_unlock, RegChip.unlock_eq, if_pos hu] at hok hh
  exact ⟨hok, hh⟩

end

/-! ## Opening and closing -/

theorem registerDev_slots (h k : Nat) : ∀ ds : List (Nat × Pins),
    registerDev h (ds.map (fun e => some e.1) ++ List.replicate (k + 1) none) =
      ds.map (fun e => some e.1) ++ some h :: List.replicate k none
  | [] => rfl
  | e :: ds => congrArg (some e.1 :: ·) (registerDev_slots h k ds)

theorem initPins_claimed (s : Bus) (p : Pins) (c : SmConfig) (n : Nat) :
    ((s.initPins p c).sms n).claimed = (s.sms n).claimed := by
  rcases eq_or_ne n p.sm with rfl | hne
  · simp [Bus.initPins, Bus.smInit, Bus.setPinsWithMask, Bus.setPindir, Bus.smSetEnabled, Bus.setSm]
  · simp [Bus.initPins, Bus.smInit, Bus.setPinsWithMask, Bus.setPindir, Bus.smSetEnabled, Bus.setSm, hne]

end HatBoard

/-- Nothing fails in `w25n_open`. -/
def OpenEnv.Works (env : OpenEnv) : Prop :=
  env.calloc = true ∧ env.chip = true ∧ env.claimCs = true ∧ env.pioOpen = true ∧ env.smFree = true ∧
    (env.useRxdma = true → env.configXfer = true)

instance (env : OpenEnv) : Decidable env.Works := inferInstanceAs (Decidable (_ ∧ _))

namespace HatBoard

/-- The bus with one more device, at the address `h`. -/
structure Added (s : Bus) (h : Nat) (d : Dev) (s' : Bus) : Prop where
  mode : d.mode = .fdx
  devs : s'.devs = Function.update s.devs h (some d)
  gDevs : s'.gDevs = registerDev h s.gDevs
  refs : s'.gPioRefs = s.gPioRefs + 1
  noQuad : s'.noQuad = s.noQuad
  claimed : ∀ n, (s'.sms n).claimed = if n = d.pins.sm then true else (s.sms n).claimed

theorem openDev_added {s : Bus} {p : Pins} {env : OpenEnv} (hw : env.Works)
    (hsm : (s.sms p.sm).claimed = false) (h clkdiv : Nat) :
    ∃ d s', s.openDev h p clkdiv env = (true, s') ∧ d.pins = p ∧ Added s h d s' := by
  obtain ⟨hcalloc, hchip, hcs, hpio, hfree, hdma⟩ := hw
  have hdma' : ¬ (env.useRxdma = true ∧ ¬ env.configXfer = true) := fun hc => hc.2 (hdma hc.1)
  unfold Bus.openDev
  simp only [hcalloc, hchip, hcs, hpio, hfree, not_true_eq_false, if_false, or_self, and_false,
    Bus.setLine, hsm, Bool.false_eq_true, hdma']
  refine ⟨_, _, rfl, ?_, ?_, rfl, rfl, rfl, rfl, fun n => ?_⟩
  · rfl
  · rfl
  · rw [initPins_claimed]
    rcases eq_or_ne n p.sm with rfl | hne
    · simp [Bus.setSm, Dev.buildConfigs]
    · simp [Bus.setSm, Dev.buildConfigs, hne]

section
variable {b : HatBoard} {ds : List (Nat × Pins)} {p : Pins}

/-- A device opens next to others with other state machines. -/
theorem w25nOpen_opened (ho : Opened ds b) (hlen : ds.length < 4) (hsm : ∀ e ∈ ds, e.2.sm ≠ p.sm)
    (hw : (b.env p).Works) : (b.w25nOpen p).1 = some b.next ∧
      Opened (ds ++ [(b.next, p)]) (b.w25nOpen p).2 ∧ (b.w25nOpen p).2.chips = b.chips ∧
      Kept b (b.w25nOpen p).2 := by
  obtain ⟨hdevs, hgDevs, hclaimed, hrefs, hfresh⟩ := ho
  have hsmFree : (b.bus.sms p.sm).claimed = false := by
    by_contra hc
    obtain ⟨e, he, hee⟩ := hclaimed p.sm (Bool.eq_true_of_not_eq_false hc)
    exact hsm e he hee
  obtain ⟨d, s, hopen, rfl, hadd⟩ := openDev_added hw hsmFree b.next CLKDIV
  have hw25n : b.w25nOpen d.pins = (some b.next, { b with bus := s, next := b.next + 1 }) := by
    unfold w25nOpen
    rw [hopen]
    rfl
  rw [hw25n]
  refine ⟨rfl, ⟨?_, ?_, ?_, ?_, ?_⟩, rfl, rfl, rfl, hadd.noQuad⟩
  · intro e he
    rcases List.mem_append.1 he with he | he
    · obtain ⟨d', hd', hrest⟩ := hdevs e he
      refine ⟨d', ?_, hrest⟩
      show s.devs e.1 = some d'
      rw [hadd.devs, Function.update_of_ne (hfresh e he).ne, hd']
    · rw [List.mem_singleton.1 he]
      refine ⟨d, ?_, rfl, hadd.mode⟩
      show s.devs b.next = some d
      rw [hadd.devs, Function.update_self]
  · obtain ⟨k, hk⟩ : ∃ k, 4 - ds.length = k + 1 := ⟨3 - ds.length, by omega⟩
    have hk' : 4 - (ds ++ [(b.next, d.pins)]).length = k := by
      rw [List.length_append, List.length_singleton]
      omega
    show s.gDevs = _
    rw [hadd.gDevs, hgDevs, hk, registerDev_slots, hk', List.map_append, List.append_assoc]
    rfl
  · intro n hn
    have hn : (s.sms n).claimed = true := hn
    rw [hadd.claimed] at hn
    by_cases hnp : n = d.pins.sm
    · exact ⟨_, List.mem_append_right _ (List.mem_singleton_self _), hnp.symm⟩
    · rw [if_neg hnp] at hn
      obtain ⟨e, he, hee⟩ := hclaimed n hn
      exact ⟨e, List.mem_append_left _ he, hee⟩
  · show s.gPioRefs = _
    rw [hadd.refs, hrefs, List.length_append]
    rfl
  · intro e he
    rcases List.mem_append.1 he with he | he
    · exact (hfresh e he).trans (Nat.lt_succ_self _)
    · rw [List.mem_singleton.1 he]
      exact Nat.lt_succ_self _

/-- The last device closes the PIO. -/
theorem w25nClose_opened {h : Nat} (ho : Opened [(h, p)] b) :
    Opened [] (b.w25nClose h) ∧ (b.w25nClose h).chips = b.chips ∧ Kept b (b.w25nClose h) := by
  obtain ⟨hdevs, hgDevs, hclaimed, hrefs, hfresh⟩ := ho
  obtain ⟨d, hd, -⟩ := hdevs _ (.head _)
  have hd : b.bus.devs h = some d := hd
  have hone : b.bus.gPioRefs - 1 = 0 := by rw [hrefs]; rfl
  have hclose : b.bus.step (.closeDev h) = { b.bus.unregister h with
      gPioRefs := b.bus.gPioRefs - 1, sms := fun _ => .idle, gPio := false } := by
    simp only [Bus.step, hd, Bus.closeDev, if_true, Bus.releasePio, Bus.unregister, Bus.setSm, hone]
  unfold w25nClose
  rw [hclose]
  refine ⟨⟨?_, ?_, ?_, hone, ?_⟩, rfl, rfl, rfl, rfl⟩
  · intro e he
    cases he
  · show (b.bus.gDevs.map fun o => if o = some h then none else o) = _
    rw [hgDevs]
    simp
  · intro n hn
    cases hn
  · intro e he
    cases he

theorem others_filter (h : Nat) (devs : Nat → Option Dev) : ∀ ds : List (Nat × Pins),
    (∀ e ∈ ds, ∃ d, devs e.1 = some d ∧ d.pins = e.2 ∧ d.mode = .fdx) →
    (ds.map fun e => some e.1).filterMap (fun o => if o = some h then none else (o.bind devs).map (·.pins)) =
      (ds.filter fun e => e.1 ≠ h).map (·.2)
  | [], _ => rfl
  | e :: ds, hdevs => by
    obtain ⟨d, hd, hp, -⟩ := hdevs e (.head ds)
    have ih := others_filter h devs ds fun e he => hdevs e (.tail _ he)
    rw [List.map_cons, List.filterMap_cons]
    by_cases he : e.1 = h
    · rw [if_pos (congrArg some he), List.filter_cons_of_neg (by simp [he])]
      exact ih
    · rw [if_neg (mt Option.some.inj he), List.filter_cons_of_pos (by simp [he]), Option.bind_some, hd,
        Option.map_some, List.map_cons, ← ih, hp]

theorem Opened.others (ho : Opened ds b) (h : Nat) :
    b.bus.others h = (ds.filter fun e => e.1 ≠ h).map (·.2) := by
  have hnone : ∀ k, (List.replicate k (none : Option Nat)).filterMap
      (fun o => if o = some h then none else (o.bind b.bus.devs).map (·.pins)) = [] := by
    intro k
    induction k with
    | zero => rfl
    | succ k ih =>
      rw [List.replicate_succ, List.filterMap_cons]
      exact ih
  unfold Bus.others
  rw [ho.gDevs, List.filterMap_append, others_filter h b.bus.devs ds ho.devs, hnone, List.append_nil]

/-! ## The HAT -/

theorem Held.trans {b' b'' : HatBoard} {c c' : RegChip} (h : Held b ds p b' c) (h' : Held b' ds p b'' c') :
    Held b ds p b'' c' where
  opened := h'.opened
  chips := by rw [h'.chips, h.chips, Function.update_idem]
  kept := h.kept.trans h'.kept

theorem Held.chip {b' : HatBoard} {c : RegChip} (h : Held b ds p b' c) : b'.chips p = some c := by
  rw [h.chips, Function.update_self]

/-- The device of an open chip. -/
theorem Held.device {b' : HatBoard} {c : RegChip} (h : Held b ds p b' c) {i : Nat} (hmem : (i, p) ∈ ds) :
    b'.device i = some ⟨c.chip, p, (ds.filter fun e => e.1 ≠ i).map (·.2), b.bus.noQuad⟩ := by
  obtain ⟨d, hd, hp, -⟩ := h.opened.devs _ hmem
  have hd : b'.bus.devs i = some d := hd
  have hp : d.pins = p := hp
  unfold HatBoard.device
  rw [hd, Option.bind_some, hp, h.chip, Option.map_some, h.opened.others, h.kept.noQuad]

/-- **`open` unlocks the chip**, next to devices with other state machines. -/
theorem openHat_opened {chip : Text} {c : RegChip} (ho : Opened ds b) (hlen : ds.length < 4)
    (hsm : ∀ e ∈ ds, e.2.sm ≠ (pinsOf chip).sm) (hw : (b.env (pinsOf chip)).Works)
    (hc : b.chips (pinsOf chip) = some c) (hg : c.Good) : (b.openHat chip).1 = some b.next ∧
      Held b (ds ++ [(b.next, pinsOf chip)]) (pinsOf chip) (b.openHat chip).2 c.unlocked := by
  obtain ⟨hfirst, hopened, hchips, hkept⟩ := w25nOpen_opened ho hlen hsm hw
  have hmem : (b.next, pinsOf chip) ∈ ds ++ [(b.next, pinsOf chip)] :=
    List.mem_append_right _ (List.mem_singleton_self _)
  unfold openHat
  dsimp only
  rw [hfirst]
  generalize (b.w25nOpen (pinsOf chip)).2 = b1 at hopened hchips hkept ⊢
  have hstart : Held b (ds ++ [(b.next, pinsOf chip)]) (pinsOf chip) b1 c :=
    ⟨hopened, by rw [hchips, ← hc, Function.update_eq_self], hkept⟩
  obtain ⟨hj, hjedec⟩ := jedecOk_held hmem hopened hstart.chip
  rw [RegChip.jedecOk_eq, decide_eq_true hg.1] at hj
  obtain ⟨hu, hunlock⟩ := unlock_held hmem hjedec.opened hjedec.chip hg.2
  simp only [hj, if_true, hu, true_and]
  exact (hstart.trans hjedec).trans hunlock

/-- A probe answers for the JEDEC ID of U2 and leaves no device open. -/
theorem probe_opened {c : RegChip} (ho : Opened [] b) (hpio : b.pio0 = true) (hw : (b.env Pins.U2).Works)
    (hc : b.chips Pins.U2 = some c) : b.probe.1 = (RegChip.bus.jedecOk c).1 ∧ Opened [] b.probe.2 ∧
      b.probe.2.chips = b.chips ∧ Kept b b.probe.2 := by
  obtain ⟨hfirst, hopened, hchips, hkept⟩ := w25nOpen_opened ho (by decide) (fun e he => nomatch he) hw
  unfold probe
  rw [if_pos hpio]
  dsimp only
  rw [hfirst]
  generalize (b.w25nOpen Pins.U2).2 = b1 at hopened hchips hkept ⊢
  obtain ⟨hj, hjedec⟩ := jedecOk_held (.head []) hopened (hchips ▸ hc)
  obtain ⟨hnone, hsame, hclosed⟩ := w25nClose_opened hjedec.opened
  refine ⟨hj, hnone, ?_, (hkept.trans hjedec.kept).trans hclosed⟩
  rw [hsame, hjedec.chips, hchips, ← hc, Function.update_eq_self]

end

/-- Whatever a probe finds, it changes no chip. -/
theorem probe_chips (b : HatBoard) : b.probe.2.chips = b.chips := by
  have hjedec : ∀ (h : Nat) (b : HatBoard), ((spi h).jedecOk b).2.chips = b.chips := by
    intro h b
    show (b.w25nCmd h [0x9f, 0x00] 3).2.chips = b.chips
    unfold w25nCmd
    cases hd : b.bus.devs h with
    | none => rfl
    | some d =>
      cases hc : b.chips d.pins with
      | none =>
        simp only [hc]
      | some c =>
        simp only [hc]
        show Function.update b.chips d.pins (some c) = b.chips
        rw [← hc, Function.update_eq_self]
  unfold probe
  split
  · dsimp only
    split
    · rfl
    · exact hjedec _ _
  · rfl

/-- A chip of the HAT that works, and can be opened. -/
def CanOpen (b : HatBoard) (p : Pins) : Prop :=
  (b.env p).Works ∧ ∃ c, b.chips p = some c ∧ c.Good ∧ c.chip.busy = false

theorem CanOpen.congr {b b' : HatBoard} {p : Pins} (h : b.CanOpen p) (henv : b'.env = b.env)
    (hchips : b'.chips p = b.chips p) : b'.CanOpen p := by
  unfold CanOpen
  rw [henv, hchips]
  exact h

/-- No device was opened so far. -/
def Fresh (b : HatBoard) : Prop := ∃ latch dir line noQuad, b.bus = Bus.start latch dir line noQuad

theorem Fresh.opened {b : HatBoard} (h : b.Fresh) : Opened [] b := by
  obtain ⟨latch, dir, line, noQuad, h⟩ := h
  refine ⟨fun e he => ?_, ?_, fun n hn => ?_, ?_, fun e he => ?_⟩
  · cases he
  · rw [h]
    rfl
  · rw [h] at hn
    cases hn
  · rw [h]
    rfl
  · cases he

/-- After a probe that found the HAT. -/
theorem Fresh.probed {b : HatBoard} (h : b.Fresh) (hprobe : b.probe.1 = true) (h2 : b.CanOpen Pins.U2) :
    Opened [] b.probe.2 ∧ b.probe.2.env = b.env := by
  obtain ⟨hw, c, hc, -⟩ := h2
  have hpio : b.pio0 = true := by
    by_contra hno
    unfold probe at hprobe
    rw [if_neg hno] at hprobe
    cases hprobe
  obtain ⟨-, hopened, -, hkept⟩ := probe_opened h.opened hpio hw hc
  exact ⟨hopened, hkept.env⟩

end HatBoard

end NandServer
