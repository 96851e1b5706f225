import HsqOverNand.Server.Proof.Round
import HsqOverNand.Server.Proof.Value

/-!
# A round computes `b - a`

`round_exec`: on a device whose bit columns `G` of the round's page are AND flash, at least five of
them, all operations but the last `RAISE` leave `b - a` in `out` and its sign in the jump cells, also
when the other columns return anything. `round_run` adds the fetching: `getRomSize()` instructions,
the last of which raises the signal.
-/

set_option autoImplicit false

namespace NandServer

open Netlist NandInterface

/-! ## Majority -/

/-- Enough columns to outvote the others. -/
structure Majority (G : List Nat) : Prop where
  nodup : G.Nodup
  lt : ∀ j ∈ G, j < 8
  five : 5 ≤ G.length

theorem majorityVote_eq {G : List Nat} (hG : Majority G) {x : Byte} {b : Bool}
    (h : ∀ j ∈ G, x.getLsbD j = b) : majorityVote x = b := by
  have hbit : ∀ i, (x >>> i).getLsbD 0 = x.getLsbD i := fun i => by
    rw [BitVec.getLsbD_ushiftRight, Nat.add_zero]
  have hcount : ∀ p : Nat → Bool, (∀ j ∈ G, p j = true) → 5 ≤ (List.range 8).countP p := by
    intro p hp
    rw [List.countP_eq_length_filter]
    refine hG.five.trans (List.subperm_of_subset hG.nodup fun j hj => ?_).length_le
    exact List.mem_filter.2 ⟨List.mem_range.2 (hG.lt j hj), hp j hj⟩
  simp only [majorityVote, hbit]
  cases b
  · have hnot := hcount (fun i => !x.getLsbD i) fun j hj => by rw [h j hj]; rfl
    have hsplit := List.length_eq_countP_add_countP (fun i => x.getLsbD i) (l := List.range 8)
    simp only [List.length_range, Bool.not_eq_true, Bool.decide_eq_false] at hsplit
    rw [decide_eq_false_iff_not]
    omega
  · have hones := hcount (fun i => x.getLsbD i) h
    rw [decide_eq_true_eq]
    omega

namespace CPU

variable {D : Type}

theorem Calm.idle {mem : D → AndMemory.Mem 8} {Ok : D → Prop} {P : Nat} {G : List Nat} {c c' : CPU D}
    (h : Calm mem Ok P G c c') {j : Nat} (hj : j ∈ G) : Idle mem Ok P j c c' :=
  ⟨h.frame, h.page, h.kept.ok, fun i hi ho => h.kept.mem ho j hj i hi⟩

variable [NandInterface D]

/-! ## The device of a round -/

/-- The bit columns `G` of the page at `P` are AND flash, and the ROM area holds `rom`. -/
structure RoundDevice (mem : D → AndMemory.Mem 8) (Ok : D → Prop) (rom : List RomT) (P : Nat)
    (G : List Nat) : Prop where
  page : PageOk Ok P
  column : ∀ j ∈ G, PageColumn mem Ok P j
  rom : RomDevice Ok rom
  romMem : ∀ d (buf : Vector Byte PAGE_SIZ) p, p < ROM_SIZE → p % PAGE_SIZ = 0 → Ok d →
    ∀ j ∈ G, ∀ i < PAGE_SIZ,
      (mem (NandInterface.read d p buf).2.2 (P + i)).getLsbD j = (mem d (P + i)).getLsbD j

section
variable {mem : D → AndMemory.Mem 8} {Ok : D → Prop} {rom : List RomT} {P : Nat} {G : List Nat}

/-- More that the calls of a round keep. -/
theorem RoundDevice.and (h : RoundDevice mem Ok rom P G) {Q : D → Prop}
    (hw : ∀ d (buf : Vector Byte PAGE_SIZ), Ok d → Q d → Q (NandInterface.write d P buf).2)
    (hr : ∀ d (buf : Vector Byte PAGE_SIZ), Ok d → Q d → Q (NandInterface.read d P buf).2.2)
    (hf : ∀ d (buf : Vector Byte PAGE_SIZ) p, p < ROM_SIZE → p % PAGE_SIZ = 0 → Ok d → Q d →
      Q (NandInterface.read d p buf).2.2) : RoundDevice mem (fun d => Ok d ∧ Q d) rom P G where
  page := ⟨fun d buf ho => ⟨h.page.write d buf ho.1, hw d buf ho.1 ho.2⟩,
    fun d buf ho => ⟨h.page.read d buf ho.1, hr d buf ho.1 ho.2⟩⟩
  column j hj := ⟨fun d buf ho => (h.column j hj).write d buf ho.1,
    fun d buf ho => (h.column j hj).read d buf ho.1,
    fun d buf ho => (h.column j hj).read_mem d buf ho.1⟩
  rom := ⟨fun d buf p hp hal ho => ⟨h.rom.ok d buf p hp hal ho.1, hf d buf p hp hal ho.1 ho.2⟩,
    fun d buf p hp hal ho => h.rom.rom d buf p hp hal ho.1⟩
  romMem d buf p hp hal ho := h.romMem d buf p hp hal ho.1

theorem refill_calm (hd : RoundDevice mem Ok rom P G) {c : CPU D} (hpc : c.pc < ROM_SIZE) :
    Calm mem Ok P G c c.refill where
  frame := refill_frame c
  page := refill_page c
  kept := by
    unfold refill
    by_cases hp : c.pc % PAGE_SIZ = 0
    · rw [if_pos hp]
      exact ⟨hd.rom.ok _ _ _ hpc hp, hd.romMem _ _ _ hpc hp⟩
    · rw [if_neg hp]
      exact .refl _

theorem refilled_calm (hd : RoundDevice mem Ok rom P G) {c c' : CPU D} (h : Refilled c c') :
    Calm mem Ok P G c c' := by
  obtain ⟨pc, hpc, rfl⟩ := h
  obtain ⟨hf, hp, hk⟩ := refill_calm hd (c := c.setPc pc) hpc
  exact ⟨⟨hf.out, hf.inA, hf.inB, hf.isJmp, hf.romSize, hf.getinCnt, hf.pageOffset, hf.preOffset,
    hf.nandSize⟩, hp, hk⟩

end

end CPU

/-! ## The inputs in the buffer -/

open CPU

theorem laneBits_eq (f : Nat → Nat) (start : Nat) (a b : BitVec 64) : ∀ (k s : Nat),
    laneBits (fun i => f (start + 2 * i)) (fun i => f (start + 2 * i + 1)) a b s k =
      (List.range' (start + 2 * s) (2 * k)).map fun i => (f i, laneInit start a b i)
  | 0, _ => rfl
  | k + 1, s => by
    have ih := laneBits_eq f start a b k (s + 1)
    simp only [laneBits, List.range'_succ, List.flatMap_cons] at ih ⊢
    rw [ih, show 2 * (k + 1) = 2 * k + 1 + 1 by omega, List.range'_succ, List.range'_succ,
      List.map_cons, List.map_cons, laneInit_a, laneInit_b]
    rfl

theorem laneBits_lane {start : Nat} {net : Netlist} {ln : Lane} (h : LaneOk start net ln)
    (cells : List Cell) (a b : BitVec 64) :
    laneBits (fun i => (cellOf cells (ln.ain i)).addr) (fun i => (cellOf cells (ln.bin i)).addr) a b
      0 DIGIT = (List.range' start 128).map fun i => ((cellOf cells i).addr, laneInit start a b i) := by
  refine Eq.trans (List.flatMap_congr fun i hi => ?_)
    (laneBits_eq (fun i => (cellOf cells i).addr) start a b DIGIT 0)
  have hlt : i < DIGIT := by simpa using hi
  simp only [(h.cells i hlt).1, (h.cells i hlt).2]

section
variable {rom : List RomT} {net : Netlist} {cells : List Cell} {last : Int} {l0 l1 : Lane}
  (hc : RoundCode rom net cells last l0 l1)

/-- The addresses and bits of all input cells. -/
def roundEdits (cells : List Cell) (l0 l1 : Lane) (a0 b0 a1 b1 : BitVec 64) : List (Nat × Bool) :=
  laneBits (fun i => (cellOf cells (l0.ain i)).addr) (fun i => (cellOf cells (l0.bin i)).addr) a0 b0
      0 DIGIT ++
    laneBits (fun i => (cellOf cells (l1.ain i)).addr) (fun i => (cellOf cells (l1.bin i)).addr) a1 b1
      0 DIGIT

include hc

theorem RoundCode.placed : Placed cells RAM :=
  placed_scheduled hc.sched (hc.good.placed (by decide) (by decide) (by rw [hc.len]; decide))

theorem RoundCode.edits_eq (a0 b0 a1 b1 : BitVec 64) : roundEdits cells l0 l1 a0 b0 a1 b1 =
    (List.range' 0 128 ++ List.range' 874 128).map fun i =>
      ((cellOf cells i).addr, roundBits a0 b0 a1 b1 i) := by
  rw [roundEdits, laneBits_lane hc.lane0, laneBits_lane hc.lane1, List.map_append]
  refine congrArg₂ _ (List.map_congr_left fun i hi => ?_) (List.map_congr_left fun i hi => ?_)
  · rw [roundBits_lane0 (by simpa using hi)]
  · have := List.mem_range'_1.1 hi
    rw [roundBits_lane1 this]

/-- After the `GET_IN`s every cell's byte in the buffer holds its start value. -/
theorem RoundCode.page_edits (a0 b0 a1 b1 : BitVec 64) {i : Nat} (hi : i < cells.length) :
    (putBits (.replicate PAGE_SIZ 0xff) (roundEdits cells l0 l1 a0 b0 a1 b1)).get (cellSlot cells i) =
      fill (roundBits a0 b0 a1 b1 i) := by
  have hlen : cells.length = 1748 := hc.sched.len.trans hc.len
  have hpl := hc.placed
  rw [hc.edits_eq]
  have hidx : ∀ k ∈ List.range' 0 128 ++ List.range' 874 128, k < cells.length := by
    intro k hk
    rw [List.mem_append, List.mem_range'_1, List.mem_range'_1] at hk
    omega
  by_cases hin : i ∈ List.range' 0 128 ++ List.range' 874 128
  · refine putBits_mem ?_ ((cellOf cells i).addr, roundBits a0 b0 a1 b1 i)
      (List.mem_map_of_mem (f := fun i => ((cellOf cells i).addr, roundBits a0 b0 a1 b1 i)) hin)
    rw [List.map_map]
    refine List.Nodup.map_on (fun k hk k' hk' he => hpl.slot_inj (hidx k hk) (hidx k' hk') he) ?_
    refine List.nodup_append.2 ⟨List.nodup_range', List.nodup_range', fun k hk k' hk' he => ?_⟩
    rw [List.mem_range'_1] at hk hk'
    omega
  · have hone : roundBits a0 b0 a1 b1 i = true := by
      rw [List.mem_append, List.mem_range'_1, List.mem_range'_1] at hin
      rw [roundBits, if_neg (by omega), if_neg (by omega)]
    have hother := putBits_other (p := .replicate PAGE_SIZ 0xff) (k := cellSlot cells i)
      (l := (List.range' 0 128 ++ List.range' 874 128).map fun i =>
        ((cellOf cells i).addr, roundBits a0 b0 a1 b1 i)) (by
      intro e he hs
      obtain ⟨k, hk, rfl⟩ := List.mem_map.1 he
      rw [hpl.slot_inj (hidx k hk) hi hs] at hk
      exact hin hk)
    rw [hother, hone]
    exact Vector.getElem_replicate (cellSlot cells i).isLt

end

/-! ## The phases -/

section
variable {D : Type} [NandInterface D] {mem : D → AndMemory.Mem 8} {Ok : D → Prop} {rom : List RomT}
  {P : Nat} {G : List Nat} {net : Netlist} {cells : List Cell} {last : Int} {l0 l1 : Lane}
  (hc : RoundCode rom net cells last l0 l1)
include hc

theorem lane_page {start : Nat} {ln : Lane} (h : LaneOk start net ln) : ∀ i < DIGIT,
    pageStart (cellOf cells (ln.ain i)).addr = RAM ∧ pageStart (cellOf cells (ln.bin i)).addr = RAM := by
  intro i hi
  obtain ⟨⟨cl, ha, -⟩, ⟨cl', hb, -⟩⟩ := h.input i hi
  have hlt : ∀ {k : Nat} {cl : Cell}, net.cells[k]? = some cl → k < cells.length := fun hk =>
    hc.sched.len ▸ (List.getElem?_eq_some_iff.1 hk).1
  exact ⟨hc.placed.page _ (hlt ha), hc.placed.page _ (hlt hb)⟩

/-- `CAP_IN` and the `GET_IN`s: the buffer of the round's page holds the input bits over 1s. -/
theorem inputs_run {c c' : CPU D} (hm : Maps c P) (hp : c.preOffset ≠ P)
    (he : Exec (Calm mem Ok P G) c ((.capIn, 0, 0) :: (gets cells l0 ++ gets cells l1)) c') :
    Keeps c c' ∧ Kept mem Ok P G c.nand c'.nand ∧ c'.preOffset = P ∧ ∀ i < cells.length,
      c'.page.get (cellSlot cells i) =
        fill (roundBits (c.inA.get 0) (c.inB.get 0) (c.inA.get 1) (c.inB.get 1) i) := by
  have hgets : ∀ ln, gets cells ln = (List.range' 0 DIGIT).map fun i =>
      ((.getIn, (cellOf cells (ln.bin i)).addr, (cellOf cells (ln.ain i)).addr) : Emit) := by
    intro ln
    rw [gets, List.range_eq_range']
  cases he with
  | @cons _ c1 _ _ _ hcalm he =>
    have hf := hcalm.frame
    rw [exec_capIn] at he
    obtain ⟨c2, he0, he1⟩ := he.append
    rw [hgets] at he0 he1
    have hk1 : Keeps c c1.capped := hf.keeps.trans ⟨rfl, rfl, rfl⟩
    have hm1 := hm.keeps hk1
    have hz : ∀ x : BitVec 64, x = x >>> 0 := fun x => (BitVec.ushiftRight_zero x).symm
    have h0 := gets_run (l := 0) (fun i hi => (lane_page hc hc.lane0 i hi).1)
      (fun i hi => (lane_page hc hc.lane0 i hi).2) DIGIT 0 (Nat.le_refl _) hm1 rfl (hz _) (hz _) he0
    have h1 := gets_run (l := 1) (fun i hi => (lane_page hc hc.lane1 i hi).1)
      (fun i hi => (lane_page hc hc.lane1 i hi).2) DIGIT 0 (Nat.le_refl _) (hm1.keeps h0.keeps) h0.cnt
      (hz _) (hz _) he1
    have hpre := h1.pre (by decide)
    refine ⟨hk1.trans (h0.keeps.trans h1.keeps),
      hcalm.kept.trans (h0.kept.trans h1.kept), hpre, fun i hi => ?_⟩
    have hpage : c'.page = putBits (.replicate PAGE_SIZ 0xff)
        (roundEdits cells l0 l1 (c.inA.get 0) (c.inB.get 0) (c.inA.get 1) (c.inB.get 1)) := by
      have hnew : c1.capped.view P = .replicate PAGE_SIZ 0xff :=
        view_new fun h => hp (hf.preOffset.symm.trans h)
      have hA : c2.inA.get 1 = c.inA.get 1 :=
        (h0.inA 1 (by decide)).trans (congrArg (Vector.get · 1) hf.inA)
      have hB : c2.inB.get 1 = c.inB.get 1 :=
        (h0.inB 1 (by decide)).trans (congrArg (Vector.get · 1) hf.inB)
      rw [← view_eq hpre, h1.view, h0.view, ← putBits_append, hnew, hA, hB]
      simp only [capped, hf.inA, hf.inB]
      rfl
    rw [hpage]
    exact hc.page_edits _ _ _ _ hi

/-- The programs: every column of `G` ends in the valuation of the network. -/
theorem programs_run (hd : RoundDevice mem Ok rom P G) (hG : Majority G) {init v : Nat → Bool}
    (hv : AndNet.Models (toNet net.cells) init v) {c c' : CPU D} (hm : Maps c P)
    (hp : c.preOffset = P) (ho : Ok c.nand)
    (hblank : ∀ j ∈ G, ∀ i < PAGE_SIZ, (mem c.nand (P + i)).getLsbD j = true)
    (hpage : ∀ i < cells.length, c.page.get (cellSlot cells i) = fill (init i))
    (he : Exec (Calm mem Ok P G) c ((.prgNand, RAM, 0) :: emitSteps cells RAM last) c') :
    Keeps c c' ∧ Ok c'.nand ∧ c'.preOffset = P ∧
      ∀ j ∈ G, ∀ i < cells.length, (c'.page.get (cellSlot cells i)).getLsbD j = v i := by
  have hram : RAM % 2 ^ 20 = RAM := by decide
  have hbase : pageStart RAM = RAM := by decide
  have hin : InPage c (RAM % 2 ^ 20) P := ⟨fun a ha => hm a (ha.trans hram), hp⟩
  have col : ∀ j ∈ G, Frame c c' ∧ Ok c'.nand ∧
      ∀ i < cells.length, (c'.page.get (cellSlot cells i)).getLsbD j = v i := by
    intro j hj
    have hj8 := hG.lt j hj
    cases he.imp (s := Idle mem Ok P j) fun _ _ hcalm => hcalm.idle hj with
    | @cons _ c1 _ _ _ hidle he1 =>
      obtain ⟨hf1, ho1, hprog⟩ := exec_prg hd.page (hd.column j hj) (hin.frame hidle.frame) hbase
        (hidle.ok ho)
      have hstart : ∀ i < cells.length, ((mem c1.nand (P + cellSlot cells i)).getLsbD j &&
          (c1.page.get (cellSlot cells i)).getLsbD j) = init i := by
        intro i hi
        rw [hidle.mem _ (cellSlot cells i).isLt ho, hblank j hj _ (cellSlot cells i).isLt,
          Bool.true_and, hidle.page, hpage i hi, getLsbD_fill _ hj8]
      obtain ⟨hf2, ho2, hend⟩ := emitSteps_column hc.sched hc.good.shapeOk hc.good.closed hc.placed hv
        hj8 hd.page (hd.column j hj) hbase ((hin.frame hidle.frame).frame hf1) ho1
        (fun i hi => (hprog _).2.trans (hstart i hi)) (fun i hi => (hprog _).1.trans (hstart i hi)) he1
      exact ⟨hidle.frame.trans (hf1.trans hf2), ho2, fun i hi => (hend i hi).1⟩
  obtain ⟨j, hj⟩ : ∃ j, j ∈ G := List.exists_mem_of_length_pos (by have := hG.five; omega)
  obtain ⟨hf, ho', -⟩ := col j hj
  exact ⟨hf.keeps, ho', hf.preOffset.trans hp, fun j hj => (col j hj).2.2⟩

/-- The outputs: `b - a` in every lane, its sign in lane 0. -/
theorem outputs_run (hG : Majority G) {a0 b0 a1 b1 : BitVec 64} {v : Nat → Bool}
    (hv : AndNet.Models (toNet net.cells) (roundBits a0 b0 a1 b1) v) {c c' : CPU D}
    (hpage : ∀ j ∈ G, ∀ i < cells.length, (c.page.get (cellSlot cells i)).getLsbD j = v i)
    (he : Exec (Calm mem Ok P G) c (pushes cells 0 l0 ++ pushes cells 1 l1 ++ [raises cells 0 l0]) c') :
    Keeps c c' ∧ Kept mem Ok P G c.nand c'.nand ∧ c'.preOffset = c.preOffset ∧
      c'.out.get 0 = b0 - a0 ∧ c'.out.get 1 = b1 - a1 ∧
      c'.isJmp.get 0 = decide ((b0 - a0).toInt ≤ 0) ∧
      majorityVote (c'.page.get (cellSlot cells l1.isJmp.cell)) = decide ((b1 - a1).toInt ≤ 0) := by
  obtain ⟨⟨hsum0, hjmp0⟩, hsum1, hjmp1⟩ := hc.value hv
  have hvote : ∀ i < cells.length, majorityVote (c.page.get (cellSlot cells i)) = v i := fun i hi =>
    majorityVote_eq hG fun j hj => hpage j hj i hi
  have hlt : ∀ {s : Sig} {f : (Nat → Bool) → Bool}, Den net s f → s.cell < cells.length := fun h =>
    hc.sched.len ▸ h.1
  have hpush : ∀ (l : Nat) ln, pushes cells l ln = (List.range' 0 DIGIT).map fun i =>
      ((.pushOut, l, (cellOf cells (ln.sum i).cell).addr) : Emit) := by
    intro l ln
    rw [pushes, List.range_eq_range']
  have hd : DIGIT = 64 := rfl
  have hbits : ∀ {x : BitVec 64} {o : BitVec 64}, ShiftedIn o x.getLsbD (0 + DIGIT) → o = x := by
    intro x o h
    refine BitVec.eq_of_getLsbD_eq fun i hi => ?_
    rw [h i hi (by omega), show i + (0 + DIGIT) - 64 = i by omega]
  obtain ⟨c2, he01, hr⟩ := he.append
  obtain ⟨c1, he0, he1⟩ := he01.append
  rw [hpush] at he0 he1
  obtain ⟨h0, ho0⟩ := pushes_run (l := 0) (b := (b0 - a0).getLsbD) DIGIT 0
    (fun i hi => (hvote _ (hlt (hc.lane0.sum i (by omega)).2)).trans (hsum0 i (by omega)))
    (fun i hi h => absurd h (by omega)) he0
  obtain ⟨h1, ho1⟩ := pushes_run (l := 1) (b := (b1 - a1).getLsbD) DIGIT 0
    (fun i hi => (congrArg (fun p : Vector Byte PAGE_SIZ => majorityVote (p.get _)) h0.page).trans
      ((hvote _ (hlt (hc.lane1.sum i (by omega)).2)).trans (hsum1 i (by omega))))
    (fun i hi h => absurd h (by omega)) he1
  cases hr with
  | @cons _ c3 _ _ _ hcalm hend =>
    have hraise : c3.exec (raises cells 0 l0) = c3.raised 0 (cellOf cells l0.isJmp.cell).addr :=
      exec_raise c3 (l := 0) (by decide) _
    rw [hraise] at hend
    cases hend
    have hf := hcalm.frame
    have hpage3 : c3.page = c.page := hcalm.page.trans (h1.page.trans h0.page)
    refine ⟨h0.keeps.trans (h1.keeps.trans (hf.keeps.trans ⟨rfl, rfl, rfl⟩)),
      h0.kept.trans (h1.kept.trans hcalm.kept), hf.preOffset.trans (h1.pre.trans h0.pre), ?_, ?_, ?_, ?_⟩
    · show c3.out.get 0 = _
      rw [hf.out, h1.out 0 (by decide), hbits ho0]
    · show c3.out.get 1 = _
      rw [hf.out, hbits ho1]
    · show (c3.isJmp.put 0 (majorityVote (c3.page.get (cellSlot cells l0.isJmp.cell)))).get 0 = _
      rw [Vector.get_put_self, hpage3, hvote _ (hlt hc.lane0.isJmp.2), hjmp0]
    · show majorityVote (c3.page.get (cellSlot cells l1.isJmp.cell)) = _
      rw [hpage3, hvote _ (hlt hc.lane1.isJmp.2), hjmp1]

omit hc in
theorem roundInit_eq (cells : List Cell) (last : Int) (l0 l1 : Lane) : roundInit cells last l0 l1 =
    ((.capIn, 0, 0) :: (gets cells l0 ++ gets cells l1)) ++
      (((.prgNand, RAM, 0) :: emitSteps cells RAM last) ++
        (pushes cells 0 l0 ++ pushes cells 1 l1 ++ [raises cells 0 l0])) := by
  simp only [roundInit, List.append_assoc, List.cons_append, List.nil_append]

/-- **All operations of a round but the last `RAISE`.** -/
theorem round_exec (hd : RoundDevice mem Ok rom P G) (hG : Majority G) {c c' : CPU D} (hm : Maps c P)
    (hp : c.preOffset ≠ P) (ho : Ok c.nand)
    (hblank : ∀ j ∈ G, ∀ i < PAGE_SIZ, (mem c.nand (P + i)).getLsbD j = true)
    (he : Exec (Calm mem Ok P G) c (roundInit cells last l0 l1) c') :
    Keeps c c' ∧ Ok c'.nand ∧ c'.preOffset = P ∧
      c'.out.get 0 = c.inB.get 0 - c.inA.get 0 ∧ c'.out.get 1 = c.inB.get 1 - c.inA.get 1 ∧
      c'.isJmp.get 0 = decide ((c.inB.get 0 - c.inA.get 0).toInt ≤ 0) ∧
      majorityVote (c'.page.get (cellSlot cells l1.isJmp.cell)) =
        decide ((c.inB.get 1 - c.inA.get 1).toInt ≤ 0) := by
  rw [roundInit_eq] at he
  obtain ⟨c1, he1, he⟩ := he.append
  obtain ⟨c2, he2, he3⟩ := he.append
  obtain ⟨v, hv⟩ := AndNet.exists_models hc.good.wellFounded
    (roundBits (c.inA.get 0) (c.inB.get 0) (c.inA.get 1) (c.inB.get 1))
  obtain ⟨hk1, hkept1, hp1, hpage1⟩ := inputs_run hc hm hp he1
  have hblank1 : ∀ j ∈ G, ∀ i < PAGE_SIZ, (mem c1.nand (P + i)).getLsbD j = true :=
    fun j hj i hi => (hkept1.mem ho j hj i hi).trans (hblank j hj i hi)
  obtain ⟨hk2, ho2, hp2, hpage2⟩ :=
    programs_run hc hd hG hv (hm.keeps hk1) hp1 (hkept1.ok ho) hblank1 hpage1 he2
  obtain ⟨hk3, hkept3, hp3, hout⟩ := outputs_run hc hG hv hpage2 he3
  exact ⟨hk1.trans (hk2.trans hk3), hkept3.ok ho2, hp3.trans hp2, hout⟩

end

/-! ## The whole round -/

theorem quiet_move (dest src : Nat) (inv : Bool) : Quiet (moveEmit dest src inv) := by
  cases inv <;> exact ⟨by simp [moveEmit], by simp [moveEmit], by simp [moveEmit]⟩

theorem quiet_prg : Quiet ((.prgNand, RAM, 0) : Emit) :=
  ⟨by simp, fun _ => by decide, by simp⟩

theorem quiet_roundInit (cells : List Cell) (last : Int) (l0 l1 : Lane) :
    ∀ e ∈ roundInit cells last l0 l1, Quiet e := by
  intro e he
  rw [roundInit_eq] at he
  simp only [List.mem_append, List.mem_cons, gets, pushes, List.mem_map, emitSteps, List.mem_flatMap,
    List.not_mem_nil, or_false] at he
  rcases he with (rfl | ⟨i, -, rfl⟩ | ⟨i, -, rfl⟩) | (rfl | ⟨s, -, hs | rfl⟩) |
    (⟨i, -, rfl⟩ | ⟨i, -, rfl⟩) | rfl
  · exact ⟨by simp, by simp, by simp⟩
  · exact ⟨by simp, by simp, by simp⟩
  · exact ⟨by simp, by simp, by simp⟩
  · exact quiet_prg
  · rw [stepMoves_eq] at hs
    obtain ⟨p, -, rfl⟩ := List.mem_map.1 hs
    exact quiet_move _ _ _
  · exact quiet_prg
  · exact ⟨by simp, by simp, by simp⟩
  · exact ⟨by simp, by simp, by simp⟩
  · exact ⟨by simp [raises], by simp [raises], fun _ => by simp only [raises]; decide⟩

end NandServer
