import HsqOverNand.Qspi.Proof.Calls

/-!
# The bus between the calls

`bus_restored`: in every run of calls on at most four open devices with distinct pins, every state
reached has each device's CS high, its pins in their resting directions, `/WP` and `/HOLD` high and a
truthful mode, as long as no failed x4 send leaves words in the FIFO of its running state machine.
`left_words_drive`: a run in which one does.
-/

set_option autoImplicit false

namespace NandServer.Bus

/-! ## Statement -/

/-- A device between two calls. -/
structure Restored (s : Bus) (d : Dev) : Prop where
  cs : s.line d.pins.cs = true
  io0 : s.dir d.pins.io0 = true
  io1 : s.dir d.pins.io1 = false
  io2 : s.dir d.pins.io2 = true
  io3 : s.dir d.pins.io3 = true
  wp : s.latch d.pins.io2 = true
  hold : s.latch d.pins.io3 = true
  mode : d.mode = .none ∨ s.Runs d d.mode.program

/-- Every open device is restored, and bytes were transferred in the byte program only. -/
def Good (s : Bus) : Prop := s.fdxOnly = true ∧ ∀ h d, s.devs h = some d → s.Restored d

/-- A new device has pins of its own and is at most the fourth; the other calls are on open devices. -/
def Admissible (s : Bus) : BusEvent → Prop
  | .openDev h p _ _ => s.devs h = none ∧ p.Valid ∧ (∀ h' d, s.devs h' = some d → p.Apart d.pins) ∧
      ∃ l : List Nat, l.length < 4 ∧ ∀ h', (s.devs h').isSome → h' ∈ l
  | .closeDev h | .call h _ => (s.devs h).isSome
  | .smStep _ => True

/-- A failed x4 send of the event leaves no word. -/
def Settled (s : Bus) : BusEvent → Prop
  | .call h c => ∀ d, s.devs h = some d → CallSettled d s h c
  | _ => True

/-- Every event meets the condition in the state it finds. -/
def Along (P : Bus → BusEvent → Prop) : Bus → List BusEvent → Prop
  | _, [] => True
  | s, e :: es => P s e ∧ Along P (s.step e) es

/-! ## Invariant -/

/-- The handles in the registry. -/
def slots (s : Bus) : List Nat := s.gDevs.filterMap id

/-- The registry holds the open devices. -/
structure Registry (s : Bus) : Prop where
  four : s.gDevs.length = 4
  nodup : s.slots.Nodup
  mem : ∀ h, h ∈ s.slots ↔ (s.devs h).isSome
  refs : s.gPioRefs = s.slots.length

structure Inv (s : Bus) : Prop where
  restored : ∀ h d, s.devs h = some d → s.Restored d
  claimed : ∀ h d, s.devs h = some d → (s.sms d.sm).claimed = true
  fifo : ∀ n, (s.sms n).fifo = []
  fdx : s.fdxOnly = true
  layout : s.Layout
  registry : s.Registry

theorem mem_slots {s : Bus} {h : Nat} : h ∈ s.slots ↔ some h ∈ s.gDevs := by
  simp [slots, List.mem_filterMap]

theorem Inv.good {s : Bus} (h : s.Inv) : s.Good := ⟨h.fdx, h.restored⟩

theorem Inv.live {s : Bus} (h : s.Inv) {i : Nat} {d : Dev} (hd : s.devs i = some d) : s.Live i d := by
  have hr := h.restored i d hd
  refine ⟨h.layout, ⟨d, hd, rfl, rfl⟩, hr.cs, hr.io0, hr.io1, hr.io2, hr.io3, ?_, hr.mode, h.fifo _, h.fdx⟩
  rintro g ⟨j, e, he, rfl | rfl⟩
  · exact (h.restored j e he).wp
  · exact (h.restored j e he).hold

theorem Live.restored {s : Bus} {i : Nat} {d : Dev} (h : s.Live i d) : s.Restored d := by
  obtain ⟨d0, hd, hp, -⟩ := h.stored
  exact ⟨h.cs, h.io0, h.io1, h.io2, h.io3, h.latch _ ⟨i, d0, hd, .inl (by rw [hp])⟩,
    h.latch _ ⟨i, d0, hd, .inr (by rw [hp])⟩, h.mode⟩

/-- A device whose lines, pins and state machine another call leaves alone. -/
theorem Restored.congr {s s' : Bus} {d : Dev} (h : s.Restored d)
    (hline : s'.line d.pins.cs = s.line d.pins.cs)
    (hdir : ∀ g ∈ d.pins.gpios, s'.dir g = s.dir g)
    (hlatch : ∀ g, g = d.pins.io2 ∨ g = d.pins.io3 → s.latch g = true → s'.latch g = true)
    (hsms : s'.sms d.sm = s.sms d.sm) : s'.Restored d where
  cs := hline.trans h.cs
  io0 := (hdir _ (by simp [Pins.gpios])).trans h.io0
  io1 := (hdir _ (by simp [Pins.gpios])).trans h.io1
  io2 := (hdir _ (by simp [Pins.gpios])).trans h.io2
  io3 := (hdir _ (by simp [Pins.gpios])).trans h.io3
  wp := hlatch _ (.inl rfl) h.wp
  hold := hlatch _ (.inr rfl) h.hold
  mode := by
    rw [Runs, hsms]
    exact h.mode

theorem start_inv (latch dir line : Nat → Bool) (noQuad : Bool) :
    (start latch dir line noQuad).Inv where
  restored h d hd := by cases hd
  claimed h d hd := by cases hd
  fifo n := rfl
  fdx := rfl
  layout := by constructor <;> simp [start]
  registry := by constructor <;> simp [start, slots]

/-- Devices that were open before, on the same pins and state machines. -/
theorem Layout.congr {s s' : Bus} (h : s.Layout) (hreg : s'.Registry)
    (hold : ∀ j e, s'.devs j = some e → ∃ e0, s.devs j = some e0 ∧ e0.pins = e.pins ∧ e0.sm = e.sm) :
    s'.Layout where
  valid j e he := by
    obtain ⟨e0, h0, hp, -⟩ := hold j e he
    exact hp ▸ h.valid j e0 h0
  apart j k e f hne he hf := by
    obtain ⟨e0, h0, hp, -⟩ := hold j e he
    obtain ⟨f0, hf0, hp', -⟩ := hold k f hf
    exact hp ▸ hp' ▸ h.apart j k e0 f0 hne h0 hf0
  sms j k e f hne he hf := by
    obtain ⟨e0, h0, -, hs⟩ := hold j e he
    obtain ⟨f0, hf0, -, hs'⟩ := hold k f hf
    exact hs ▸ hs' ▸ h.sms j k e0 f0 hne h0 hf0
  registered j e he := mem_slots.1 ((hreg.mem j).2 (Option.isSome_iff_exists.2 ⟨e, he⟩))

/-- Fewer devices, and nothing changed for those that stay. -/
theorem Inv.part {s s' : Bus} (h : s.Inv) (hreg : s'.Registry)
    (hdevs : ∀ i d, s'.devs i = some d → s.devs i = some d)
    (hfdx : s'.fdxOnly = s.fdxOnly) (hdir : s'.dir = s.dir) (hlatch : s'.latch = s.latch)
    (hline : ∀ i d, s'.devs i = some d → s'.line d.pins.cs = s.line d.pins.cs)
    (hsms : ∀ i d, s'.devs i = some d → s'.sms d.sm = s.sms d.sm)
    (hfifo : ∀ n, (s'.sms n).fifo = []) : s'.Inv where
  restored i d hd := (h.restored i d (hdevs i d hd)).congr (hline i d hd) (fun g _ => by rw [hdir])
    (fun g _ hg => by rw [hlatch, hg]) (hsms i d hd)
  claimed i d hd := by
    rw [hsms i d hd]
    exact h.claimed i d (hdevs i d hd)
  fifo := hfifo
  fdx := hfdx.trans h.fdx
  layout := h.layout.congr hreg fun i d hd => ⟨d, hdevs i d hd, rfl, rfl⟩
  registry := hreg

/-! ### A call -/

section
variable {s : Bus}

@[simp] theorem smStep_devs (n : Nat) : (s.smStep n).devs = s.devs := by
  unfold smStep
  split
  · split <;> rfl
  · rfl

theorem smStep_inv (h : s.Inv) (n : Nat) : (s.smStep n).Inv := by
  have : s.smStep n = s := by
    unfold smStep
    rw [h.fifo n]
    split
    · rename_i heq
      cases heq
    · rfl
  rw [this]
  exact h

theorem Registry.congr {s s' : Bus} (h : s.Registry) (hgDevs : s'.gDevs = s.gDevs)
    (hrefs : s'.gPioRefs = s.gPioRefs) (hsome : ∀ j, (s'.devs j).isSome = (s.devs j).isSome) :
    s'.Registry where
  four := hgDevs ▸ h.four
  nodup := by
    rw [slots, hgDevs]
    exact h.nodup
  mem j := by
    rw [slots, hgDevs, hsome j]
    exact h.mem j
  refs := by
    rw [slots, hgDevs, hrefs]
    exact h.refs

theorem update_cases {devs : Nat → Option Dev} {i j : Nat} {d e : Dev}
    (he : Function.update devs i (some d) j = some e) : j = i ∧ e = d ∨ j ≠ i ∧ devs j = some e := by
  rcases eq_or_ne j i with rfl | hne
  · rw [Function.update_self] at he
    exact .inl ⟨rfl, (Option.some.inj he).symm⟩
  · rw [Function.update_of_ne hne] at he
    exact .inr ⟨hne, he⟩

/-- A device is stored again. -/
theorem Inv.store (h : s.Inv) {i : Nat} {d : Dev} (hd : s.devs i = some d) {r : Dev × Bus}
    (hr : Rests i d s r) : ({ r.2 with devs := Function.update r.2.devs i (some r.1) } : Bus).Inv := by
  obtain ⟨hlive, hk⟩ := hr
  have hold : ∀ j e, Function.update r.2.devs i (some r.1) j = some e →
      ∃ e0, s.devs j = some e0 ∧ e0.pins = e.pins ∧ e0.sm = e.sm := by
    intro j e he
    rcases update_cases he with ⟨rfl, rfl⟩ | ⟨hne, he⟩
    · exact ⟨d, hd, hk.pins.symm, hk.sm.symm⟩
    · rw [hk.devs] at he
      exact ⟨e, he, rfl, rfl⟩
  have hsome : ∀ j, (Function.update r.2.devs i (some r.1) j).isSome = (s.devs j).isSome := by
    intro j
    rcases eq_or_ne j i with rfl | hne
    · rw [Function.update_self, hd]
      rfl
    · rw [Function.update_of_ne hne, hk.devs]
  have hsms : ∀ j e, j ≠ i → s.devs j = some e → r.2.sms e.sm = s.sms e.sm := fun j e hne he =>
    hk.sms _ (h.layout.sms j i e d hne he hd)
  have hreg : ({ r.2 with devs := Function.update r.2.devs i (some r.1) } : Bus).Registry :=
    h.registry.congr hk.gDevs hk.gPioRefs hsome
  refine ⟨fun j e he => ?_, fun j e he => ?_, fun n => ?_, hlive.fdx, h.layout.congr hreg hold, hreg⟩
  · rcases update_cases he with ⟨rfl, rfl⟩ | ⟨hne, he⟩
    · exact hlive.restored.congr rfl (fun _ _ => rfl) (fun _ _ => id) rfl
    · rw [hk.devs] at he
      refine (h.restored j e he).congr ?_ (fun g _ => ?_) (fun g hg _ => ?_) (hsms j e hne he)
      · exact congrFun hk.line _
      · exact congrFun hk.dir g
      · exact hlive.latch g ⟨j, e, by rw [hk.devs, he], hg⟩
  · show (r.2.sms e.sm).claimed = true
    rcases update_cases he with ⟨rfl, rfl⟩ | ⟨hne, he⟩
    · rw [hk.sm, hk.claimed]
      exact h.claimed j d hd
    · rw [hk.devs] at he
      rw [hsms j e hne he]
      exact h.claimed j e he
  · show (r.2.sms n).fifo = []
    rcases eq_or_ne n d.sm with rfl | hne
    · rw [← hk.sm]
      exact hlive.fifo
    · rw [hk.sms n hne]
      exact h.fifo n

/-! ### Closing -/

theorem filterMap_id_clear (h : Nat) (l : List (Option Nat)) :
    (l.map fun o => if o = some h then none else o).filterMap id = (l.filterMap id).filter (· != h) := by
  induction l with
  | nil => rfl
  | cons o l ih =>
    cases o with
    | none => simpa using ih
    | some j =>
      rcases eq_or_ne j h with rfl | hne
      · simpa using ih
      · simpa [hne] using ih

theorem slots_unregister (s : Bus) (h : Nat) : (s.unregister h).slots = s.slots.filter (· != h) :=
  filterMap_id_clear h s.gDevs

/-- What `releasePio` changes. -/
theorem releasePio_eq (s : Bus) (sm : Option Nat) : ∃ sms gPio,
    s.releasePio sm = { s with gPioRefs := s.gPioRefs - 1, sms := sms, gPio := gPio } ∧
      (s.gPioRefs - 1 ≠ 0 → ∀ n, sm ≠ some n → sms n = s.sms n) ∧
      ((∀ n, (s.sms n).fifo = []) → ∀ n, (sms n).fifo = []) := by
  have hset : ∀ n, (∀ m, ((s.sms m)).fifo = []) →
      ∀ m, ((s.setSm n fun m => { m with enabled := false, claimed := false }).sms m).fifo = [] := by
    intro n hf m
    rcases eq_or_ne m n with rfl | hne
    · simpa [setSm] using hf m
    · simpa [setSm, hne] using hf m
  by_cases hr : s.gPioRefs - 1 = 0
  · refine ⟨fun _ => .idle, false, ?_, fun h => absurd hr h, fun _ _ => rfl⟩
    cases sm with
    | none => simp [releasePio, hr]
    | some n => simp [releasePio, setSm, hr]
  · cases sm with
    | none => exact ⟨s.sms, s.gPio, by simp [releasePio, hr], fun _ _ _ => rfl, id⟩
    | some n =>
      refine ⟨(s.setSm n _).sms, s.gPio, by simp only [releasePio, hr, setSm, if_false],
        fun _ m hm => ?_, hset n⟩
      have hne : m ≠ n := fun he => hm (by rw [he])
      simp [setSm, hne]

theorem closeDev_inv (h : s.Inv) {i : Nat} {d : Dev} (hd : s.devs i = some d) :
    (s.closeDev i true (some d.sm)).Inv := by
  have hmem : i ∈ s.slots := (h.registry.mem i).2 (by rw [hd]; rfl)
  have hlen : (s.slots.filter (· != i)).length = s.slots.length - 1 := by
    rw [← h.registry.nodup.erase_eq_filter, List.length_erase_of_mem hmem]
  obtain ⟨sms, gPio, heq, hsms, hfifo⟩ := releasePio_eq (s.unregister i) (some d.sm)
  have hdevs : ∀ j e, Function.update s.devs i none j = some e → j ≠ i ∧ s.devs j = some e := by
    intro j e he
    rcases eq_or_ne j i with rfl | hne
    · rw [Function.update_self] at he
      cases he
    · rw [Function.update_of_ne hne] at he
      exact ⟨hne, he⟩
  have hslots : ∀ j, j ∈ s.slots.filter (· != i) ↔ (Function.update s.devs i none j).isSome := by
    intro j
    rw [List.mem_filter, h.registry.mem j]
    rcases eq_or_ne j i with rfl | hne
    · simp
    · simp [hne]
  show ((s.unregister i).releasePio (some d.sm)).Inv
  rw [heq]
  refine h.part ⟨?_, ?_, fun j => ?_, ?_⟩ (fun j e he => (hdevs j e he).2) rfl rfl rfl (fun _ _ _ => rfl)
    (fun j e he => ?_) (hfifo h.fifo)
  · exact (List.length_map _).trans h.registry.four
  · rw [slots]
    show ((s.unregister i).slots).Nodup
    rw [slots_unregister]
    exact h.registry.nodup.filter _
  · show j ∈ (s.unregister i).slots ↔ _
    rw [slots_unregister]
    exact hslots j
  · show s.gPioRefs - 1 = (s.unregister i).slots.length
    rw [slots_unregister, hlen, h.registry.refs]
  · obtain ⟨hne, he0⟩ := hdevs j e he
    refine hsms ?_ e.sm fun heq => h.layout.sms j i e d hne he0 hd (Option.some.inj heq).symm
    show s.gPioRefs - 1 ≠ 0
    rw [h.registry.refs, ← hlen]
    exact (List.length_pos_of_mem ((hslots j).2 (Option.isSome_iff_exists.2 ⟨e, he⟩))).ne'

/-! ### Opening -/

theorem length_registerDev (h : Nat) (l : List (Option Nat)) : (registerDev h l).length = l.length := by
  induction l with
  | nil => rfl
  | cons o l ih =>
    cases o with
    | none => rfl
    | some j => exact congrArg (· + 1) ih

/-- A free slot takes the new device. -/
theorem registerDev_perm (h : Nat) {l : List (Option Nat)} (hfree : none ∈ l) :
    ((registerDev h l).filterMap id).Perm (h :: l.filterMap id) := by
  induction l with
  | nil => cases hfree
  | cons o l ih =>
    cases o with
    | none => exact .refl _
    | some j =>
      have hfree : none ∈ l := by
        cases hfree with
        | tail _ hm => exact hm
      exact ((ih hfree).cons j).trans (.swap h j _)

theorem none_mem_of_lt {l : List (Option Nat)} (hlt : (l.filterMap id).length < l.length) : none ∈ l := by
  induction l with
  | nil => cases hlt
  | cons o l ih =>
    cases o with
    | none => exact .head _
    | some j => exact .tail _ (ih (Nat.lt_of_succ_lt_succ hlt))

/-- With less than four devices open, a slot is free. -/
theorem Registry.free (h : s.Registry) {l : List Nat} (hl : l.length < 4)
    (hmem : ∀ i, (s.devs i).isSome → i ∈ l) : none ∈ s.gDevs := by
  have hle : s.slots.length ≤ l.length :=
    (List.subperm_of_subset h.nodup fun i hi => hmem i ((h.mem i).1 hi)).length_le
  have h4 := h.four
  exact none_mem_of_lt (by rw [h4]; exact hle.trans_lt hl)

theorem unregister_absent {i : Nat} (hd : s.devs i = none) (hg : some i ∉ s.gDevs) :
    s.unregister i = s := by
  have hmap : (s.gDevs.map fun o => if o = some i then none else o) = s.gDevs := by
    refine (List.map_congr_left fun o ho => if_neg ?_).trans (List.map_id _)
    rintro rfl
    exact hg ho
  show ({ s with gDevs := _, devs := Function.update s.devs i none } : Bus) = s
  rw [hmap, ← hd, Function.update_eq_self]

/-- A CS line that no open device has. -/
theorem Inv.setLine (h : s.Inv) {g : Nat} (hg : ∀ i d, s.devs i = some d → d.pins.cs ≠ g) (v : Bool) :
    (s.setLine g v).Inv :=
  h.part { h.registry with } (fun _ _ => id) rfl rfl rfl
    (fun i d hd => Function.update_of_ne (hg i d hd) _ _) (fun _ _ _ => rfl) h.fifo

/-- An opening that gives its reference back. -/
theorem Inv.giveBack (h : s.Inv) (gPio : Bool) {sms : Nat → Sm} {sm : Option Nat}
    (hsms : ∀ i d, s.devs i = some d → sms d.sm = s.sms d.sm ∧ sm ≠ some d.sm)
    (hfifo : ∀ n, (sms n).fifo = []) :
    (releasePio { s with gPio := gPio, gPioRefs := s.gPioRefs + 1, sms := sms } sm).Inv := by
  obtain ⟨sms', gPio', heq, hsms', hfifo'⟩ :=
    releasePio_eq { s with gPio := gPio, gPioRefs := s.gPioRefs + 1, sms := sms } sm
  rw [heq]
  refine h.part { h.registry with } (fun _ _ => id) rfl rfl rfl (fun _ _ _ => rfl) (fun i d hd => ?_)
    (hfifo' hfifo)
  have hpos : 0 < s.slots.length :=
    List.length_pos_of_mem ((h.registry.mem i).2 (Option.isSome_iff_exists.2 ⟨d, hd⟩))
  refine (hsms' ?_ d.sm (hsms i d hd).2).trans (hsms i d hd).1
  show s.gPioRefs + 1 - 1 ≠ 0
  rw [h.registry.refs]
  omega

theorem initPins_sms (p : Pins) (c : SmConfig) : (s.initPins p c).sms =
    Function.update s.sms p.sm ⟨(s.sms p.sm).claimed, true, some c, []⟩ := by
  simp [initPins, smInit, setSm, smSetEnabled, setPindir, setPinsWithMask]

theorem initPins_dir (p : Pins) (c : SmConfig) : (s.initPins p c).dir =
    Function.update (Function.update (Function.update (Function.update (Function.update s.dir p.clk true)
      p.io0 true) p.io1 false) p.io2 true) p.io3 true := rfl

theorem initPins_latch (p : Pins) (c : SmConfig) (g : Nat) : (s.initPins p c).latch g =
    if (bit p.io2 ||| bit p.io3).getLsbD g then (bit p.io2 ||| bit p.io3).getLsbD g else s.latch g := rfl

/-- `initPins` brings up the new device. -/
theorem initPins_restored {d : Dev} (hv : d.pins.Valid) (hmode : d.mode = .fdx) (hdsm : d.sm = d.pins.sm)
    (hcs : s.line d.pins.cs = true) : (s.initPins d.pins (d.cfg .fdx)).Restored d := by
  have hn := hv.nodup
  simp only [Pins.gpios, List.nodup_cons, List.mem_cons, List.not_mem_nil, not_or, or_false] at hn
  obtain ⟨-, -, ⟨h01, h02, h03⟩, ⟨h12, h13⟩, h23, -⟩ := hn
  have h2 : (bit d.pins.io2).getLsbD d.pins.io2 = true :=
    (getLsbD_bit_low (hv.low d.pins.io2 (by simp [Pins.gpios]))).2 rfl
  have h3 : (bit d.pins.io3).getLsbD d.pins.io3 = true :=
    (getLsbD_bit_low (hv.low d.pins.io3 (by simp [Pins.gpios]))).2 rfl
  refine ⟨hcs, ?_, ?_, ?_, ?_, ?_, ?_, .inr ?_⟩
  · simp [initPins_dir, h01, h02, h03]
  · simp [initPins_dir, h12, h13]
  · simp [initPins_dir, h23]
  · simp [initPins_dir]
  · simp [initPins_latch, h2]
  · simp [initPins_latch, h3]
  · rw [hmode]
    constructor
    · rw [initPins_sms, hdsm, Function.update_self]
    · rw [initPins_sms, hdsm, Function.update_self]
      rfl

section
variable {s' : Bus} {i : Nat} {d : Dev} (hdevs : s'.devs = Function.update s.devs i (some d))
include hdevs

theorem Registry.register (h : s.Registry) (hi : s.devs i = none) (hfree : none ∈ s.gDevs)
    (hgDevs : s'.gDevs = registerDev i s.gDevs) (hrefs : s'.gPioRefs = s.gPioRefs + 1) : s'.Registry := by
  have hslots : s'.slots.Perm (i :: s.slots) := by
    rw [slots, hgDevs]
    exact registerDev_perm i hfree
  refine ⟨?_, ?_, fun j => ?_, ?_⟩
  · rw [hgDevs]
    exact (length_registerDev i _).trans h.four
  · refine hslots.nodup_iff.2 (List.nodup_cons.2 ⟨fun hm => ?_, h.nodup⟩)
    have := (h.mem i).1 hm
    rw [hi] at this
    cases this
  · rw [hslots.mem_iff, List.mem_cons, h.mem j, hdevs]
    rcases eq_or_ne j i with rfl | hne
    · simp
    · simp [hne]
  · rw [hslots.length_eq, List.length_cons, ← h.refs, hrefs]

theorem Layout.register (h : s.Layout) (hreg : s'.Registry) (hv : d.pins.Valid)
    (hapart : ∀ j e, s.devs j = some e → d.pins.Apart e.pins)
    (hsm : ∀ j e, s.devs j = some e → e.sm ≠ d.sm) : s'.Layout where
  valid j e he := by
    rcases update_cases (hdevs ▸ he) with ⟨rfl, rfl⟩ | ⟨hne, he⟩
    · exact hv
    · exact h.valid j e he
  apart j k e f hne he hf := by
    rcases update_cases (hdevs ▸ he) with ⟨rfl, rfl⟩ | ⟨hnj, he'⟩ <;>
      rcases update_cases (hdevs ▸ hf) with ⟨rfl, rfl⟩ | ⟨hnk, hf⟩
    · exact absurd rfl hne
    · exact hapart k f hf
    · exact fun g hg hg' => hapart j e he' g hg' hg
    · exact h.apart j k e f hne he' hf
  sms j k e f hne he hf := by
    rcases update_cases (hdevs ▸ he) with ⟨rfl, rfl⟩ | ⟨hnj, he'⟩ <;>
      rcases update_cases (hdevs ▸ hf) with ⟨rfl, rfl⟩ | ⟨hnk, hf⟩
    · exact absurd rfl hne
    · exact (hsm k f hf).symm
    · exact hsm j e he'
    · exact h.sms j k e f hne he' hf
  registered j e he := mem_slots.1 ((hreg.mem j).2 (Option.isSome_iff_exists.2 ⟨e, he⟩))

end

/-- A device with pins and a state machine of its own. -/
theorem Inv.register (h : s.Inv) {i : Nat} {d : Dev} (hi : s.devs i = none) (hv : d.pins.Valid)
    (hapart : ∀ j e, s.devs j = some e → d.pins.Apart e.pins)
    (hfree : none ∈ s.gDevs) (hmode : d.mode = .fdx)
    (hsm : ∀ j e, s.devs j = some e → e.sm ≠ d.sm) (hdsm : d.sm = d.pins.sm) {s' : Bus}
    (hs' : s' = ({ s with
      line := Function.update s.line d.pins.cs true
      gPio := true
      gPioRefs := s.gPioRefs + 1
      sms := Function.update s.sms d.sm { s.sms d.sm with claimed := true } } :
      Bus).initPins d.pins (d.cfg .fdx)) :
    ({ s' with devs := Function.update s'.devs i (some d), gDevs := registerDev i s'.gDevs } : Bus).Inv := by
  have hsms : s'.sms = Function.update s.sms d.sm ⟨true, true, some (d.cfg .fdx), []⟩ := by
    rw [hs', initPins_sms, ← hdsm]
    simp
  have hrun : s'.sms d.sm = ⟨true, true, some (d.cfg .fdx), []⟩ := by rw [hsms, Function.update_self]
  have hother : ∀ j e, s.devs j = some e → s'.sms e.sm = s.sms e.sm := fun j e he => by
    rw [hsms, Function.update_of_ne (hsm j e he)]
  have hdir : ∀ g, g ∉ d.pins.gpios → s'.dir g = s.dir g := by
    intro g hg
    simp only [Pins.gpios, List.mem_cons, List.not_mem_nil, not_or, or_false] at hg
    rw [hs', initPins_dir]
    simp [hg]
  have hlatch : ∀ g, s.latch g = true → s'.latch g = true := by
    intro g hg
    rw [hs', initPins_latch]
    split
    · assumption
    · exact hg
  have hnew : s'.Restored d := by
    rw [hs']
    exact initPins_restored hv hmode hdsm (Function.update_self ..)
  have hdevs : Function.update s'.devs i (some d) = Function.update s.devs i (some d) := by
    rw [hs']
    rfl
  have hreg : ({ s' with devs := Function.update s'.devs i (some d), gDevs := registerDev i s'.gDevs } :
      Bus).Registry := Registry.register hdevs h.registry hi hfree (by rw [hs']; rfl) (by rw [hs']; rfl)
  refine ⟨fun j e he => ?_, fun j e he => ?_, fun n => ?_, by rw [hs']; exact h.fdx,
    Layout.register hdevs h.layout hreg hv hapart hsm, hreg⟩
  · rcases update_cases (hdevs ▸ he) with ⟨rfl, rfl⟩ | ⟨hne, he⟩
    · exact hnew.congr rfl (fun _ _ => rfl) (fun _ _ => id) rfl
    · have hap := hapart j e he
      refine (h.restored j e he).congr ?_ (fun g hg => ?_) (fun g _ => hlatch g) (hother j e he)
      · rw [hs']
        refine Function.update_of_ne (fun heq => hap d.pins.cs (by simp [Pins.gpios]) ?_) _ _
        rw [← heq]
        simp [Pins.gpios]
      · exact hdir g fun hg' => hap g hg' hg
  · rcases update_cases (hdevs ▸ he) with ⟨rfl, rfl⟩ | ⟨hne, he⟩
    · exact hrun ▸ rfl
    · exact (hother j e he).symm ▸ h.claimed j e he
  · show (s'.sms n).fifo = []
    rw [hsms]
    rcases eq_or_ne n d.sm with rfl | hne
    · rw [Function.update_self]
    · rw [Function.update_of_ne hne]
      exact h.fifo n

theorem openDev_inv (h : s.Inv) {i clkdiv : Nat} {p : Pins} {env : OpenEnv}
    (hadm : Admissible s (.openDev i p clkdiv env)) : (s.openDev i p clkdiv env).2.Inv := by
  obtain ⟨hi, hv, hapart, l, hl, hmem⟩ := hadm
  have hslot : some i ∉ s.gDevs := fun hg => by
    have := (h.registry.mem i).1 (mem_slots.2 hg)
    rw [hi] at this
    cases this
  have hcs : ∀ j e, s.devs j = some e → e.pins.cs ≠ p.cs := fun j e he heq =>
    hapart j e he p.cs (by simp [Pins.gpios]) (by rw [← heq]; simp [Pins.gpios])
  have hline := h.setLine hcs true
  -- the new handle is in no slot, so a failed opening removes nothing
  have hun : ∀ s' : Bus, s'.devs = s.devs → s'.gDevs = s.gDevs → s'.unregister i = s' :=
    fun s' hd hg => unregister_absent (by rw [hd, hi]) (by rw [hg]; exact hslot)
  unfold openDev
  split
  · exact h
  split
  · show (s.unregister i).Inv
    rw [hun s rfl rfl]
    exact h
  dsimp only
  split
  · show ((s.setLine p.cs true).unregister i).Inv
    rw [hun (s.setLine p.cs true) rfl rfl]
    exact hline
  split
  · show (releasePio (unregister _ i) none).Inv
    rw [hun]
    exacts [hline.giveBack true (fun _ _ _ => ⟨rfl, fun he => by cases he⟩) h.fifo, rfl, rfl]
  rename_i hclaim
  have hsm : ∀ j e, s.devs j = some e → e.sm ≠ p.sm := fun j e he heq => by
    refine hclaim (.inl ?_)
    show (s.sms p.sm).claimed = true
    rw [← heq]
    exact h.claimed j e he
  split
  · show (releasePio (unregister _ i) (some p.sm)).Inv
    rw [hun]
    rotate_left
    · rfl
    · rfl
    refine hline.giveBack true (fun j e he => ⟨?_, fun heq => ?_⟩) fun n => ?_
    · exact Function.update_of_ne (hsm j e he) _ _
    · exact hsm j e he (Option.some.inj heq).symm
    · rcases eq_or_ne n p.sm with rfl | hne
      · simpa [setSm] using hline.fifo p.sm
      · simpa [setSm, hne] using hline.fifo n
  · let d : Dev :=
      { pins := p, sm := p.sm, clkdiv, mode := .fdx, useRxdma := env.useRxdma,
        noQuadDma := env.noQuadDma, quadDmaReady := false, cfg := fun pr => ⟨pr, p, clkdiv⟩ }
    exact h.register (d := d) hi hv hapart (h.registry.free hl hmem) rfl hsm rfl rfl

/-! ## Runs -/

theorem step_inv (h : s.Inv) {e : BusEvent} (hadm : Admissible s e) (hset : Settled s e) :
    (s.step e).Inv := by
  cases e with
  | openDev i p clkdiv env => exact openDev_inv h hadm
  | closeDev i =>
    obtain ⟨d, hd⟩ := Option.isSome_iff_exists.1 hadm
    simp only [step, hd]
    exact closeDev_inv h hd
  | call i c =>
    obtain ⟨d, hd⟩ := Option.isSome_iff_exists.1 hadm
    simp only [step, hd]
    exact h.store hd (call_rests (h.live hd) c (hset d hd))
  | smStep n => exact smStep_inv h n

theorem run_inv (h : s.Inv) {es : List BusEvent} (hadm : Along Admissible s es)
    (hset : Along Settled s es) (k : Nat) : (s.run (es.take k)).Inv := by
  induction es generalizing s k with
  | nil => simpa [run] using h
  | cons e es ih =>
    cases k with
    | zero => exact h
    | succ k => exact ih (step_inv h hadm.1 hset.1) hadm.2 hset.2 k

end

/-- See the module doc. -/
theorem bus_restored (latch dir line : Nat → Bool) (noQuad : Bool) (es : List BusEvent)
    (hadm : Along Admissible (start latch dir line noQuad) es)
    (hset : Along Settled (start latch dir line noQuad) es) (k : Nat) :
    ((start latch dir line noQuad).run (es.take k)).Good :=
  (run_inv (start_inv latch dir line noQuad) hadm hset k).good

/-- Nothing fails, and the TX DMA is used. -/
def openEnv : OpenEnv := ⟨true, true, true, true, true, true, false, false⟩

/-- A drain timeout of a send of eight bytes that leaves this many of the sixteen words. -/
def drainTimeout (queued : Nat) : Dev.TxEnv := ⟨true, true, true, false, 16 - queued, queued⟩

/-- Open, send, a word in between, and a command. -/
def timeoutRun (queued : Nat) : List BusEvent :=
  [.openDev 0 Pins.U3 100 openEnv, .call 0 (.programBegin 0 (List.replicate 8 0) (drainTimeout queued)),
    .smStep 0, .call 0 (.cmd [0x9f] 3)]

theorem timeoutRun_admissible (latch dir line : Nat → Bool) (queued : Nat) :
    Along Admissible (start latch dir line false) (timeoutRun queued) := by
  refine ⟨⟨rfl, ?_, ?_, [], by decide, ?_⟩, rfl, trivial, ?_, trivial⟩
  · constructor <;> decide
  · intro h d hd
    cases hd
  · intro h hd
    cases hd
  · show ((smStep _ 0).devs 0).isSome = true
    rw [smStep_devs]
    rfl

/-- A timeout with no word left. -/
theorem bus_restored_timeout :
    ((start (fun _ => false) (fun _ => false) (fun _ => true) false).run ((timeoutRun 0).take 4)).Good :=
  bus_restored _ _ _ _ (timeoutRun 0) (timeoutRun_admissible _ _ _ 0)
    ⟨trivial, fun _ _ _ _ => List.take_zero, trivial, fun _ _ => trivial, trivial⟩ 4

/-- A word left by the timeout pulls `/WP` of the open device low, and no call lifts it. -/
theorem left_words_drive :
    Along Admissible (start (fun _ => false) (fun _ => false) (fun _ => true) false) (timeoutRun 1) ∧
      ¬ ((start (fun _ => false) (fun _ => false) (fun _ => true) false).run (timeoutRun 1)).Good := by
  refine ⟨timeoutRun_admissible _ _ _ 1, fun hgood => ?_⟩
  have hlow : ((start (fun _ => false) (fun _ => false) (fun _ => true) false).run (timeoutRun 1)).latch
      Pins.U3.io2 = false := by decide
  have hopen : (((start (fun _ => false) (fun _ => false) (fun _ => true) false).run
      (timeoutRun 1)).devs 0).map (·.pins) = some Pins.U3 := by decide
  obtain ⟨d, hd, hp⟩ := Option.map_eq_some_iff.1 hopen
  have hwp := (hgood.2 0 d hd).wp
  rw [hp, hlow] at hwp
  cases hwp

end NandServer.Bus
