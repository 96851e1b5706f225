import HsqOverNand.Server.Proof.RoundExec

/-!
# Running a round

`round_run`: from `pc = 0`, on a page of 1s the buffer does not hold, `getRomSize()` instructions run a
round (`RoundDone`): the results, and the move to the next physical page or the erase at the last one.
-/

set_option autoImplicit false

namespace NandServer

open Netlist NandInterface

namespace CPU

variable {D : Type}

/-! ## The last `RAISE` -/

/-- The state after the last lane's `RAISE`, before the wrap test. -/
def ended (c : CPU D) (src : Nat) : CPU D :=
  { c with
    signal := true
    isJmp := c.isJmp.put 1 (majorityVote (c.page.get (slot src)))
    pageOffset := u32 (c.pageOffset + PAGE_SIZ) }

/-- No page is left after the current one. -/
def LastPage (pageOffset nandSize : Nat) : Prop :=
  nandSize < u32 (u32 (RAM + u32 (pageOffset + PAGE_SIZ)) + PAGE_SIZ)

instance (pageOffset nandSize : Nat) : Decidable (LastPage pageOffset nandSize) :=
  inferInstanceAs (Decidable (_ < _))

section
variable [NandInterface D]

theorem exec_raise_last (c : CPU D) (src : Nat) : c.exec (.raise, 1, src) =
    if LastPage c.pageOffset c.nandSize then (c.ended src).erase else c.ended src := by
  show ({ c with signal := false }).raise (1 % 2 ^ 20) (src % 2 ^ 20) = _
  have hlane : laneOf (1 % 2 ^ 20) = (1 : Fin LANES) := by decide
  have hlast : 1 % 2 ^ 20 % LANES = LANES - 1 := by decide
  unfold raise
  simp only [hlane, read_slot, if_pos hlast]
  rfl

theorem exec_raise_last_signal (c : CPU D) (src : Nat) : (c.exec (.raise, 1, src)).signal = true := by
  rw [exec_raise_last]
  split <;> rfl

end

/-! ## The round -/

theorem maps_aligned {c : CPU D} (h : c.pageOffset % PAGE_SIZ = 0) :
    Maps c (pageStart (c.phys RAM)) := fun _ ha => phys_page h ha

variable [NandInterface D]

/-- The effect of a round that leaves the device at `d` before the wrap. -/
structure RoundDone (c c' : CPU D) (d : D) : Prop where
  pc : c'.pc = 0
  signal : c'.signal = true
  out : ∀ l : Fin LANES, c'.out.get l = c.inB.get l - c.inA.get l
  isJmp : ∀ l : Fin LANES, c'.isJmp.get l = decide ((c.inB.get l - c.inA.get l).toInt ≤ 0)
  preOffset : c'.preOffset = pageStart (c.phys RAM)
  nandSize : c'.nandSize = c.nandSize
  romSize : c'.romSize = c.romSize
  pageOffset : c'.pageOffset =
    if LastPage c.pageOffset c.nandSize then 0 else u32 (c.pageOffset + PAGE_SIZ)
  nand : c'.nand = if LastPage c.pageOffset c.nandSize then
    (NandInterface.erase d RAM (usub c.nandSize RAM)).2 else d

section
variable {mem : D → AndMemory.Mem 8} {Ok : D → Prop} {rom : List RomT} {P : Nat} {G : List Nat}
  {net : Netlist} {cells : List Cell} {last : Int} {l0 l1 : Lane}

theorem runUntilSignal_last {n : Nat} {c : CPU D} (h : c.instr.signal = true) :
    runUntilSignal (n + 1) c = (1, c.instr) := by
  rw [runUntilSignal, h]
  rfl

/-- The last `RAISE` completes the round. -/
theorem roundDone_last {c Y : CPU D} {src : Nat} (hk : Keeps c Y)
    (hpre : Y.preOffset = pageStart (c.phys RAM)) (hout0 : Y.out.get 0 = c.inB.get 0 - c.inA.get 0)
    (hout1 : Y.out.get 1 = c.inB.get 1 - c.inA.get 1)
    (hjmp0 : Y.isJmp.get 0 = decide ((c.inB.get 0 - c.inA.get 0).toInt ≤ 0))
    (hjmp1 : majorityVote (Y.page.get (slot src)) = decide ((c.inB.get 1 - c.inA.get 1).toInt ≤ 0)) :
    RoundDone c ((Y.exec (.raise, 1, src)).setPc 0) Y.nand := by
  have hout : ∀ l : Fin LANES, Y.out.get l = c.inB.get l - c.inA.get l
    | 0 => hout0
    | 1 => hout1
  have hjmp : ∀ l : Fin LANES, (Y.ended src).isJmp.get l = decide ((c.inB.get l - c.inA.get l).toInt ≤ 0)
    | 0 => (Vector.get_put_ne Y.isJmp (by decide) _).trans hjmp0
    | 1 => (Vector.get_put_self _ _ _).trans hjmp1
  rw [exec_raise_last, hk.pageOffset, hk.nandSize]
  by_cases hlast : LastPage c.pageOffset c.nandSize
  · rw [if_pos hlast]
    exact ⟨rfl, rfl, hout, hjmp, hpre, hk.nandSize, hk.romSize, (if_pos hlast).symm, by
      rw [if_pos hlast, ← hk.nandSize]
      rfl⟩
  · rw [if_neg hlast]
    exact ⟨rfl, rfl, hout, hjmp, hpre, hk.nandSize, hk.romSize, by
      rw [if_neg hlast, ← hk.pageOffset]
      rfl, (if_neg hlast).symm⟩

/-- The operations of a round are fetched one by one; the last `RAISE` ends it. -/
theorem round_replay (hc : RoundCode rom net cells last l0 l1) {c : CPU D}
    (hd : RoundDevice mem Ok rom (pageStart (c.phys RAM)) G) (hpc : c.pc = 0)
    (hal : c.pageOffset % PAGE_SIZ = 0) (ho : Ok c.nand) {fuel : Nat} (hfuel : rom.length ≤ fuel) :
    ∃ X Y, Exec (Calm mem Ok (pageStart (c.phys RAM)) G) c (roundInit cells last l0 l1) X ∧
      Calm mem Ok (pageStart (c.phys RAM)) G X Y ∧ Ok Y.nand ∧
      runUntilSignal fuel c = (rom.length, (Y.exec (raises cells 1 l1)).setPc 0) := by
  have hlink := hc.linked
  have hm := maps_aligned hal
  have hc0 : c.setPc (8 * 0) = c := by
    show c.setPc 0 = c
    rw [← hpc]
    rfl
  have hat : RomAt rom (c.setPc (8 * 0)) 0 := ⟨rfl, fun h => absurd rfl h⟩
  obtain ⟨X, hex, hatX, hoX, -, hrun⟩ := replay hd.rom hlink.size hd.page
    (roundInit cells last l0 l1) 0 hat ho hm (quiet_roundInit cells last l0 l1)
    (fun i hi => by
      rw [Nat.zero_add]
      exact hlink.link i hi)
  rw [Nat.zero_add] at hatX hrun
  have hlen := hlink.len
  have hsize := hlink.size
  -- the last instruction: a refill and the `RAISE` that ends the round
  have hinstr := instr_eq hd.rom hsize hatX hlink.last hoX
  have hcalm := refill_calm hd (c := X.setPc (8 * (roundInit cells last l0 l1).length)) (by
    show 8 * (roundInit cells last l0 l1).length < ROM_SIZE
    omega)
  generalize hY : (X.setPc (8 * (roundInit cells last l0 l1).length)).refill = Y at hinstr hcalm
  have hf := hcalm.frame
  have hcalmX : Calm mem Ok (pageStart (c.phys RAM)) G X Y :=
    ⟨⟨hf.out, hf.inA, hf.inB, hf.isJmp, hf.romSize, hf.getinCnt, hf.pageOffset, hf.preOffset,
      hf.nandSize⟩, hcalm.page, hcalm.kept⟩
  have hsig : (X.setPc (8 * (roundInit cells last l0 l1).length)).instr.signal = true := by
    have hraise : (Y.exec (raises cells 1 l1)).signal = true := exec_raise_last_signal Y _
    rw [hinstr, setPc_signal, hraise]
  obtain ⟨k, rfl⟩ : ∃ k, fuel = k + 1 + (roundInit cells last l0 l1).length :=
    ⟨fuel - rom.length, by omega⟩
  have hz : BitVec.toNat (0 : BitVec 20) = 0 := BitVec.toNat_zero
  have hres := hrun (k + 1)
  rw [hc0, runUntilSignal_last hsig, hinstr, hz] at hres
  refine ⟨X, Y, hex.imp fun _ _ h => refilled_calm hd h, hcalmX, hcalm.kept.ok hoX, hres.trans ?_⟩
  rw [hlen]
  exact Prod.ext (Nat.add_comm 1 _) rfl

/-- **A round.** -/
theorem round_run (hc : RoundCode rom net cells last l0 l1) {c : CPU D}
    (hd : RoundDevice mem Ok rom (pageStart (c.phys RAM)) G) (hG : Majority G) (hpc : c.pc = 0)
    (hal : c.pageOffset % PAGE_SIZ = 0) (hp : c.preOffset ≠ pageStart (c.phys RAM)) (ho : Ok c.nand)
    (hblank : ∀ j ∈ G, ∀ i < PAGE_SIZ, (mem c.nand (pageStart (c.phys RAM) + i)).getLsbD j = true)
    {fuel : Nat} (hfuel : rom.length ≤ fuel) :
    ∃ c' d, runUntilSignal fuel c = (rom.length, c') ∧ Ok d ∧ RoundDone c c' d := by
  obtain ⟨X, Y, hex, hcalm, hoY, hrun⟩ := round_replay hc hd hpc hal ho hfuel
  obtain ⟨hk, -, hpre, hout0, hout1, hjmp0, hjmp1⟩ :=
    round_exec hc hd hG (maps_aligned hal) hp ho hblank hex
  have hf := hcalm.frame
  refine ⟨(Y.exec (raises cells 1 l1)).setPc 0, Y.nand, hrun, hoY,
    roundDone_last (hk.trans hf.keeps) (hf.preOffset.trans hpre) ?_ ?_ ?_ ?_⟩
  · rw [hf.out]
    exact hout0
  · rw [hf.out]
    exact hout1
  · rw [hf.isJmp]
    exact hjmp0
  · rw [hcalm.page]
    exact hjmp1

end

end CPU

end NandServer
