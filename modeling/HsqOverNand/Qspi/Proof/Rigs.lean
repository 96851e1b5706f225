import HsqOverNand.Qspi.Proof.Rig

/-!
# Threads, cycle by cycle

`threads_flat`: threads whose devices share `busMu`, each on a state machine of its own that runs cycle by
cycle, get the answers of flat memories, whatever the order and the pace.

* `Does.latch`, `Step.drives`: an act leaves the pins alone that are not in `drives`, so that `disturb` misses none.
* `harmless`: a rig survives what the others do to its pins, while its CS line is high.
-/

set_option autoImplicit false

namespace NandServer

namespace Rig

variable {p : Pins} {s t : Rig} {g : Nat} {v : Bool}

/-! ## The pins that an act drives -/

/-- The pin `g` has kept its level, and no word is pending that would drive it. -/
structure Holds (p : Pins) (g : Nat) (v : Bool) (s : Rig) : Prop where
  latch : s.latch g = v
  quiet : s.mode = some .qtx → pending s.sm ≠ [] → ¬ (g < 32 ∧ (g + 32 - p.io3) % 32 < QTX_SPAN)

theorem not_pending (h : ¬ pending s.sm ≠ []) : QTX_SPAN ≤ s.sm.osrCount ∧ s.sm.tx = [] := by
  have hnil : pending s.sm = [] := Classical.not_not.1 h
  unfold pending at hnil
  obtain ⟨hosr, htx⟩ := List.append_eq_nil_iff.1 hnil
  refine ⟨?_, htx⟩
  by_contra hlt
  rw [if_pos (Nat.not_le.1 hlt)] at hosr
  cases hosr

/-- Only the send program drives more than IO0. -/
theorem config_span (hv : p.Valid) {pr : Program} (hpr : pr ≠ .qtx) (hio : g ≠ p.io0) :
    ¬ (g < 32 ∧ (g + 32 - (pr.config p).outBase) % 32 < (pr.config p).outCount) := by
  have hone : (pr.config p).outBase = p.io0 ∧ (pr.config p).outCount = 1 := by
    cases pr with
    | qtx => exact absurd rfl hpr
    | fdx | rx | qrx => exact ⟨rfl, rfl⟩
  have hlow := hv.io0_lt
  rw [hone.1, hone.2]
  omega

theorem Holds.tick (hv : p.Valid) (hclk : g ≠ p.clk) (hio : g ≠ p.io0) (h : Holds p g v s) :
    Holds p g v (s.tick p) := by
  unfold Rig.tick
  split
  · next pr i hm hi =>
    have hside : g ≠ (pr.config p).sidePin := by
      cases pr with
      | fdx | rx | qtx | qrx => exact hclk
    rcases eq_or_ne pr .qtx with rfl | hpr
    · by_cases hpend : pending s.sm ≠ []
      · have hspan := h.quiet hm hpend
        exact ⟨(Pio.Config.drive_keeps hside fun _ => hspan).trans h.latch, fun _ _ => hspan⟩
      · obtain ⟨hosr, htx⟩ := not_pending hpend
        have hempty : (Program.qtx.config p).empty s.sm = true := decide_eq_true hosr
        obtain ⟨hdata, hosr', htx'⟩ := Pio.Config.cycle_drained i.op hempty htx
        refine ⟨(Pio.Config.drive_keeps hside fun hd => absurd hdata hd).trans h.latch, fun _ hq => absurd ?_ hq⟩
        exact (pending_empty (hosr'.symm ▸ hosr)).trans htx'
    · refine ⟨(Pio.Config.drive_keeps hside fun _ => config_span hv hpr hio).trans h.latch, fun hq => ?_⟩
      exact absurd (Option.some.inj (hm.symm.trans hq)) hpr
  · exact h

theorem Holds.enter (hclk : g ≠ p.clk) (h : Holds p g v s) (pr : Program) : Holds p g v (s.enter p pr) := by
  unfold Rig.enter
  split
  · exact h
  · exact ⟨(Function.update_of_ne hclk _ _).trans h.latch, fun _ hq => absurd rfl hq⟩

theorem put_latch {x : Word} (ht : s.put x = some t) : t.latch = s.latch ∧ t.mode = s.mode := by
  unfold Rig.put at ht
  split at ht
  · cases ht
    exact ⟨rfl, rfl⟩
  · cases ht

theorem get_latch {x : Word} (ht : s.get = some (x, t)) : t.latch = s.latch := by
  unfold Rig.get at ht
  split at ht
  · cases ht
  · cases ht
    rfl

/-- **An act changes no other pins.** -/
theorem Does.latch (hv : p.Valid) {a : BusAct} {b : Word} (hd : Does p a s b t) (hg : ¬ s.drives p a g) :
    t.latch g = s.latch g := by
  obtain ⟨hact, hg⟩ := not_or.1 hg
  obtain ⟨hclk, hg⟩ := not_or.1 hg
  obtain ⟨hio, hspan⟩ := not_or.1 hg
  have hs : Holds p g (s.latch g) s := ⟨rfl, fun hq hpend h => hspan ⟨⟨hq, .inl hpend⟩, h⟩⟩
  have hrun : ∀ {u : Rig} (n : Nat), Holds p g (s.latch g) u → Holds p g (s.latch g) (u.ticks p n) :=
    fun n => ticks_inv (fun _ h => h.tick hv hclk hio) n
  cases a with
  | line value =>
    cases value with
    | false =>
      obtain ⟨n, m, -, rfl⟩ := hd
      exact (hrun m ((hrun n hs).enter hclk .fdx)).latch
    | true =>
      obtain ⟨n, u, hu, -, rfl⟩ := hd
      have hn := hrun n hs
      unfold Settles at hu
      split at hu
      · obtain ⟨-, m, -, rfl⟩ := hu
        exact (hrun m hn).latch
      · exact hu ▸ hn.latch
      · exact hu ▸ hn.latch
      · exact hu.elim
  | byte x =>
    obtain ⟨n, m, u, w, hu, hget, -⟩ := hd
    have hn := hrun n hs
    obtain ⟨hlatch, hmode⟩ := put_latch hu
    have hput : Holds p g (s.latch g) u := by
      refine ⟨(congrFun hlatch g).trans hn.latch, fun hq _ h => hspan ⟨⟨?_, .inr ⟨x, rfl⟩⟩, h⟩⟩
      have hticks : (s.ticks p n).mode = s.mode :=
        ticks_inv (P := (Rig.mode · = s.mode)) (fun _ h => tick_mode.trans h) n rfl
      rw [← hticks, ← hmode]
      exact hq
    rw [get_latch hget]
    exact (hrun m hput).latch
  | rxWord =>
    obtain ⟨n, m, hget⟩ := hd
    rw [get_latch hget]
    exact (hrun m ((hrun n hs).enter hclk .rx)).latch
  | word x =>
    obtain ⟨n, m, -, hput⟩ := hd
    rw [(put_latch hput).1]
    exact (hrun m ((hrun n hs).enter hclk .qtx)).latch
  | restore mask =>
    obtain ⟨n, -, rfl⟩ := hd
    exact (if_neg hact).trans (hrun n hs).latch

/-! ## The others -/

section
variable {ι : Type} {pins : ι → Pins}

/-- An act that drives a pin of another chip is loud. -/
theorem loud_of_drives (hapart : ∀ i j, i ≠ j → (pins i).Apart (pins j)) {i j : ι} (hne : j ≠ i) {a : BusAct}
    (hg : g ∈ (pins j).gpios) (hd : s.drives (pins i) a g) : Loud a s := by
  have hother : g ∉ (pins i).gpios := fun h => hapart i j (Ne.symm hne) g h hg
  rcases hd with hd | rfl | rfl | ⟨hq, -⟩
  · refine .inl ?_
    by_contra ha
    exact hother (BusAct.drives_own (Bool.eq_false_of_not_eq_true ha) hd)
  · exact absurd (by simp [Pins.gpios]) hother
  · exact absurd (by simp [Pins.gpios]) hother
  · exact .inr hq

theorem harmless (hapart : ∀ i j, i ≠ j → (pins i).Apart (pins j)) :
    RwLock.Harmless (disturb pins) (fun _ => Loud) (fun i => Idle (pins i)) where
  quiet i a s j u v hne hq hd := by
    rcases hd with h | ⟨⟨g, hg, hdg⟩, -⟩
    · exact h
    · exact absurd (loud_of_drives hapart hne hg hdg) hq
  idle i a s j u v c _ hd hI := by
    rcases hd with rfl | ⟨-, ht⟩
    · exact hI
    · exact hI.shaken ht
  refl i a s j u := .inl rfl

end

end Rig

/-! ## Threads -/

namespace Rigs

variable {ι : Type} [DecidableEq ι] {devs : ι → W25NFlashDevice} {calls : ι → List DeviceCall}

/-- A step changes only pins that its act drives. -/
theorem Step.drives {s t : Rigs ι} {i : ι} (hv : (devs i).pins.Valid) (h : Step devs s i t) {g : Nat}
    (hg : (t i).part.latch g ≠ (s i).part.latch g) :
    ∃ a k, (s i).prog = .act a k ∧ (s i).part.drives (devs i).pins a g := by
  unfold Step RwLock.Step at h
  cases hp : (s i).prog with
  | ret r =>
    rw [hp] at h
    exact h.elim
  | lock m k =>
    rw [hp] at h
    obtain ⟨-, rfl⟩ := h
    rw [Function.update_self] at hg
    exact absurd rfl hg
  | unlock k =>
    rw [hp] at h
    obtain rfl := h
    rw [Function.update_self] at hg
    exact absurd rfl hg
  | act a k =>
    rw [hp] at h
    obtain ⟨b, u, hd, hti, -⟩ := h
    rw [hti] at hg
    refine ⟨a, k, rfl, ?_⟩
    by_contra hdrives
    exact hg (hd.latch hv hdrives)

variable [Fintype ι]

/-- **Every thread gets the answers of a flat memory**, cycle by cycle. -/
theorem threads_flat (hok : ∀ i, (devs i).Ok) (hv : ∀ i, (devs i).pins.Valid)
    (hapart : ∀ i j, i ≠ j → (devs i).pins.Apart (devs j).pins)
    (hcalls : ∀ i, ∀ c ∈ calls i, c.InRange W25N_TOTAL_SIZE) (latch : ι → Nat → Bool) {is : List ι} {s : Rigs ι}
    (h : Leads devs (start devs latch calls) is s) :
    (∀ i as, (s i).prog = .ret as → (s i).part.port.taken = none ∧
      (as, ((devs i).setChip (s i).part.port.chip).flat) =
        DeviceCall.runFlat W25N_BLOCK_SIZE (devs i).flat (calls i)) ∧
    (∀ i a k, (s i).prog = .act a k → ∀ j, j ≠ i →
      (∃ g ∈ (devs j).pins.gpios, (s i).part.drives (devs i).pins a g) → (s j).part.port.taken = none) ∧
    (∀ i t, Step devs s i t → ∀ j, j ≠ i → (s j).part.port.taken ≠ none →
      ∀ g ∈ (devs j).pins.gpios, (t i).part.latch g = (s i).part.latch g) ∧
    ((∃ i t, Step devs s i t) ∨ ∀ i, ∃ as, (s i).prog = .ret as) ∧
    is.length ≤ (Hat.start devs calls).left devs := by
  obtain ⟨hend, hloud, hgo, hlen⟩ := RwLock.leads_alone (Rig.harmless hapart)
    (fun i => BusCode.calls_orderly (calls i) (devs i))
    (fun i => BusCode.calls_whole (hv i) (hok i).wired (devs i).noQuad (calls i))
    (fun i => Rig.opened_idle (devs i).chip (latch i)) h
  have hfree : ∀ i a k, (s i).prog = .act a k → ∀ j, j ≠ i →
      (∃ g ∈ (devs j).pins.gpios, (s i).part.drives (devs i).pins a g) → (s j).part.port.taken = none := by
    intro i a k hp j hne ⟨g, hg, hd⟩
    obtain ⟨c, hc⟩ := hloud i a k hp (Rig.loud_of_drives hapart hne hg hd) j hne
    exact hc.taken
  refine ⟨fun i as has => ?_, hfree, fun i t ht j hne hsel g hg => ?_, hgo, hlen⟩
  · obtain ⟨hans, hidle⟩ := hend i as has
    rw [BusCode.calls_alone] at hans hidle
    obtain ⟨hflat, hmem⟩ := DeviceCall.runHat_flat (calls i) (hok i) (hcalls i)
    refine ⟨hidle.taken, Prod.ext (hans.trans hflat) (Eq.trans ?_ hmem)⟩
    rw [hidle.chip]
    rfl
  · by_contra hchange
    obtain ⟨a, k, hp, hd⟩ := Step.drives (hv i) ht hchange
    exact hsel (hfree i a k hp j hne ⟨g, hg, hd⟩)

theorem threads_flat_u2u3 :
    let cs : Bool → List DeviceCall := fun u3 =>
      [.write 2045 (.replicate 16 (if u3 then 0x3c else 0x55)), .read 2040 (.replicate 16 0)]
    ∃ is s, Leads Hat.u2u3 (start Hat.u2u3 (fun _ _ => false) cs) is s ∧ ∀ i, ∃ as, (s i).prog = .ret as ∧
      (as, ((Hat.u2u3 i).setChip (s i).part.port.chip).flat) =
        DeviceCall.runFlat W25N_BLOCK_SIZE (Hat.u2u3 i).flat (cs i) := by
  intro cs
  have hcalls : ∀ i, ∀ c ∈ cs i, c.InRange W25N_TOTAL_SIZE := fun _ => Hat.u2u3_inRange _
  have hv : ∀ i, (Hat.u2u3 i).pins.Valid := by
    intro u3
    cases u3 with
    | false => exact ⟨by decide, by decide⟩
    | true => exact ⟨by decide, by decide⟩
  obtain ⟨is, s, hs, hret⟩ := RwLock.leads_complete (Rig.harmless Hat.u2u3_apart)
    (fun i => BusCode.calls_orderly (cs i) (Hat.u2u3 i))
    (fun i => BusCode.calls_whole (hv i) (Hat.u2u3_ok i).wired (Hat.u2u3 i).noQuad (cs i))
    (fun i => Rig.opened_idle (Hat.u2u3 i).chip fun _ => false)
  obtain ⟨hdone, -⟩ := threads_flat Hat.u2u3_ok hv Hat.u2u3_apart hcalls (fun _ _ => false) hs
  refine ⟨is, s, hs, fun i => ?_⟩
  obtain ⟨as, has⟩ := hret i
  exact ⟨as, has, (hdone i as has).2⟩

end Rigs

end NandServer
