import HsqOverNand.Server.Proof.Exec
import HsqOverNand.Server.Proof.Schedule

/-!
# The emitted steps compute the network, column by column

`moves_page`: the moves of one step read what the buffer held before the step and write distinct
bytes. `step_column`: after the `PRG_NAND` of step `t` every cell's byte has accumulated the writes up
to `t` (`AndNet.accum`), in the buffer and on the flash. `emitSteps_column`: after the last step every
cell has its value in the network. All statements are about one bit column `j` of the page at `P`, on
any device whose column `j` is AND flash (`PageColumn`).
-/

set_option autoImplicit false

namespace NandServer

open Netlist

/-! ## The writes of a step -/

theorem flatMap_cells {α : Type} (cells : List Cell) (f : Cell → List α) :
    cells.flatMap f = (List.range cells.length).flatMap fun i => f (cellOf cells i) := by
  have h : (List.range cells.length).map (cellOf cells) = cells := by
    refine List.ext_getElem (by simp) fun i h1 h2 => ?_
    simp only [List.getElem_map, List.getElem_range]
    exact cellOf_eq (List.getElem?_eq_getElem h2)
  have hm := List.flatMap_map (cellOf cells) f (List.range cells.length)
  rwa [h] at hm

theorem lt_of_mem_ins {cells : List Cell} {i : Nat} {w : Write} (h : w ∈ (cellOf cells i).ins) :
    i < cells.length := by
  by_contra hn
  rw [cellOf_default (by omega)] at h
  simp [default, instInhabitedCell.default] at h

/-- All writes, with the cell they go to. -/
def allWrites (cells : List Cell) : List (Nat × Write) :=
  (List.range cells.length).flatMap fun i => (cellOf cells i).ins.map (i, ·)

/-- The writes of step `t`. -/
def stepWrites (cells : List Cell) (t : Int) : List (Nat × Write) :=
  (allWrites cells).filter fun p => p.2.step = t

/-- Grouping a list by a key permutes it. -/
theorem flatMap_filter_perm {α β : Type} [DecidableEq β] (f : α → β) (l : List α) :
    ∀ {ks : List β}, ks.Nodup →
      (ks.flatMap fun k => l.filter fun x => f x = k).Perm (l.filter fun x => f x ∈ ks)
  | [], _ => by simp
  | k :: ks, hk => by
    rw [List.flatMap_cons]
    have ih := flatMap_filter_perm f l (List.nodup_cons.1 hk).2
    have hsplit := List.filter_append_perm (fun x => decide (f x = k))
      (l.filter fun x => f x ∈ k :: ks)
    refine ((ih.append_left _).trans ?_).trans hsplit
    rw [List.filter_filter, List.filter_filter]
    refine .of_eq (congrArg₂ _ (List.filter_congr fun x _ => ?_) (List.filter_congr fun x _ => ?_))
    · by_cases h : f x = k <;> simp [h]
    · by_cases h : f x = k
      · simp [h, (List.nodup_cons.1 hk).1]
      · simp [h]

/-- A `MOV` or `INV_MOV`. -/
def moveEmit (dest src : Nat) (inv : Bool) : Emit := (if inv then .invMov else .mov, dest, src)

def writeEmit (cells : List Cell) (p : Nat × Write) : Emit :=
  moveEmit (cellOf cells p.1).addr (cellOf cells p.2.src.cell).addr p.2.src.inv

theorem stepMoves_eq (cells : List Cell) (t : Int) :
    stepMoves cells t = (stepWrites cells t).map (writeEmit cells) := by
  have h := flatMap_cells cells fun cl => (cl.ins.filter fun w => w.step = t).map fun w =>
    moveEmit cl.addr (cellOf cells w.src.cell).addr w.src.inv
  refine h.trans ?_
  rw [stepWrites, allWrites, List.filter_flatMap, List.map_flatMap]
  refine List.flatMap_congr fun i _ => ?_
  rw [List.filter_map, List.map_map]
  rfl

theorem mem_allWrites {cells : List Cell} {i : Nat} {w : Write} :
    (i, w) ∈ allWrites cells ↔ w ∈ (cellOf cells i).ins := by
  simp only [allWrites, List.mem_flatMap, List.mem_range, List.mem_map]
  constructor
  · rintro ⟨i', -, w', hw, he⟩
    cases he
    exact hw
  · exact fun hw => ⟨i, lt_of_mem_ins hw, w, hw, rfl⟩

theorem mem_stepWrites {cells : List Cell} {t : Int} {i : Nat} {w : Write} :
    (i, w) ∈ stepWrites cells t ↔ w ∈ (cellOf cells i).ins ∧ w.step = t := by
  rw [stepWrites, List.mem_filter, mem_allWrites, decide_eq_true_eq]

/-! ## Moves -/

/-- What a move writes. -/
def moveByte (inv : Bool) (b : Byte) : Byte := if inv then ~~~b else b

theorem getLsbD_moveByte {j : Nat} (hj : j < 8) (inv : Bool) (b : Byte) :
    (moveByte inv b).getLsbD j = (b.getLsbD j != inv) := by
  cases inv
  · simp [moveByte]
  · simp [moveByte, hj]

namespace CPU

variable {D : Type} {mem : D → AndMemory.Mem 8} {Ok : D → Prop} {base P j : Nat}

/-- A move within the page the buffer holds. -/
def moved (c : CPU D) (m : Nat × Nat × Bool) : CPU D :=
  { c with signal := false, page := c.page.put (slot m.1) (moveByte m.2.2 (c.page.get (slot m.2.1))) }

theorem moved_page (c : CPU D) (m : Nat × Nat × Bool) (k : Fin PAGE_SIZ) :
    (c.moved m).page.get k =
      if (slot m.1).val = k.val then moveByte m.2.2 (c.page.get (slot m.2.1)) else c.page.get k :=
  Vector.get_put _ _ _ _

theorem moved_frame (c : CPU D) (m : Nat × Nat × Bool) : Frame c (c.moved m) :=
  ⟨rfl, rfl, rfl, rfl, rfl, rfl, rfl, rfl, rfl⟩

/-- What a stretch of operations leaves alone when it only edits the buffer. -/
structure Edits (mem : D → AndMemory.Mem 8) (Ok : D → Prop) (P j : Nat) (c c' : CPU D) : Prop where
  frame : Frame c c'
  ok : Ok c.nand → Ok c'.nand
  mem : ∀ i < PAGE_SIZ, Ok c.nand →
    (mem c'.nand (P + i)).getLsbD j = (mem c.nand (P + i)).getLsbD j

theorem Edits.trans {c c' c'' : CPU D} (h : Edits mem Ok P j c c') (h' : Edits mem Ok P j c' c'') :
    Edits mem Ok P j c c'' where
  frame := h.frame.trans h'.frame
  ok := fun ho => h'.ok (h.ok ho)
  mem := fun i hi ho => (h'.mem i hi (h.ok ho)).trans (h.mem i hi ho)

theorem Idle.edits {c c' : CPU D} (h : Idle mem Ok P j c c') : Edits mem Ok P j c c' :=
  ⟨h.frame, h.ok, h.mem⟩

theorem moved_edits (c : CPU D) (m : Nat × Nat × Bool) : Edits mem Ok P j c (c.moved m) :=
  ⟨moved_frame c m, id, fun _ _ _ => rfl⟩

variable [NandInterface D]

theorem exec_move {c : CPU D} (h : InPage c (base % 2 ^ 20) P) {m : Nat × Nat × Bool}
    (hd : pageStart m.1 = base) : c.exec (moveEmit m.1 m.2.1 m.2.2) = c.moved m := by
  have he : ∀ v : Byte, ({ c with signal := false }).editBuf (m.1 % 2 ^ 20) v =
      { c with signal := false, page := c.page.put (slot m.1) v } := by
    intro v
    have hin : InPage { c with signal := false } (base % 2 ^ 20) P := ⟨h.phys, h.pre⟩
    simpa only [slot_mod] using editBuf_inPage hin (pageStart_mod hd) v
  have hr : ({ c with signal := false }).read (m.2.1 % 2 ^ 20) = c.page.get (slot m.2.1) := by
    simp only [CPU.read, slot_mod]
  obtain ⟨dest, src, inv⟩ := m
  cases inv
  · exact (congrArg (({ c with signal := false }).editBuf (dest % 2 ^ 20)) hr).trans (he _)
  · exact (congrArg (fun b => ({ c with signal := false }).editBuf (dest % 2 ^ 20) (~~~b)) hr).trans
      (he _)

/-- The moves of one step: bytes are read as they were before the step. -/
theorem moves_page : ∀ {ms : List (Nat × Nat × Bool)} {c c' : CPU D},
    InPage c (base % 2 ^ 20) P → (∀ m ∈ ms, pageStart m.1 = base) →
    (∀ m ∈ ms, ∀ m' ∈ ms, slot m.1 = slot m'.1 → m = m') →
    (∀ m ∈ ms, ∀ m' ∈ ms, slot m.2.1 ≠ slot m'.1) →
    Exec (Idle mem Ok P j) c (ms.map fun m => moveEmit m.1 m.2.1 m.2.2) c' →
    Edits mem Ok P j c c' ∧ (∀ m ∈ ms, c'.page.get (slot m.1) = moveByte m.2.2 (c.page.get (slot m.2.1))) ∧
      ∀ k : Fin PAGE_SIZ, (∀ m ∈ ms, slot m.1 ≠ k) → c'.page.get k = c.page.get k
  | [], c, _, _, _, _, _, .nil _ => ⟨⟨.refl c, id, fun _ _ _ => rfl⟩, by simp, fun _ _ => rfl⟩
  | m :: ms, c, c', hin, hbase, hinj, hsrc, .cons (m := c1) hidle h => by
    have hin1 := hin.frame hidle.frame
    rw [exec_move hin1 (hbase m (.head _))] at h
    obtain ⟨hed, hset, hkeep⟩ := moves_page (hin1.frame (moved_frame c1 m))
      (fun a ha => hbase a (.tail _ ha)) (fun a ha b hb => hinj a (.tail _ ha) b (.tail _ hb))
      (fun a ha b hb => hsrc a (.tail _ ha) b (.tail _ hb)) h
    have hfirst : ∀ k : Fin PAGE_SIZ, (c1.moved m).page.get k =
        if (slot m.1).val = k.val then moveByte m.2.2 (c.page.get (slot m.2.1)) else c.page.get k := by
      intro k
      rw [moved_page, hidle.page]
    -- a later write to the byte of `m` would be `m` again, and no move reads that byte
    have hread : ∀ a ∈ m :: ms, (c1.moved m).page.get (slot a.2.1) = c.page.get (slot a.2.1) :=
      fun a ha => by rw [hfirst, if_neg fun he => hsrc a ha m (.head _) (Fin.ext he.symm)]
    refine ⟨hidle.edits.trans ((moved_edits c1 m).trans hed), fun a ha => ?_, fun k hk => ?_⟩
    · by_cases hlater : a ∈ ms
      · rw [hset a hlater, hread a ha]
      · obtain rfl : a = m := (List.mem_cons.1 ha).resolve_right hlater
        rw [hkeep _ fun b hb he => hlater (hinj b (.tail _ hb) a ha he ▸ hb), hfirst, if_pos rfl]
    · rw [hkeep k fun a ha => hk a (.tail _ ha), hfirst, if_neg fun he => hk m (.head _) (Fin.ext he)]

/-- A `PRG_NAND` of the page the buffer holds. -/
theorem exec_prg {c : CPU D} (hok : PageOk Ok P) (hcol : PageColumn mem Ok P j)
    (h : InPage c (base % 2 ^ 20) P)
    (hb : pageStart base = base) (ho : Ok c.nand) :
    Frame c (c.exec (.prgNand, base, 0)) ∧ Ok (c.exec (.prgNand, base, 0)).nand ∧
      ∀ k : Fin PAGE_SIZ,
        (mem (c.exec (.prgNand, base, 0)).nand (P + k)).getLsbD j =
          ((mem c.nand (P + k)).getLsbD j && (c.page.get k).getLsbD j) ∧
        ((c.exec (.prgNand, base, 0)).page.get k).getLsbD j =
          ((mem c.nand (P + k)).getLsbD j && (c.page.get k).getLsbD j) := by
  have hP : pageStart (c.phys (base % 2 ^ 20)) = P := h.phys _ (pageStart_mod hb)
  have he : c.exec (.prgNand, base, 0) = ({ c with signal := false }).write (base % 2 ^ 20) := rfl
  have hP' : pageStart (({ c with signal := false }).phys (base % 2 ^ 20)) = P := hP
  rw [he]
  unfold CPU.write
  simp only [hP']
  have how := hok.write c.nand c.page ho
  refine ⟨⟨rfl, rfl, rfl, rfl, rfl, rfl, rfl, rfl, rfl⟩, hok.read _ _ how, fun k => ⟨?_, ?_⟩⟩
  · rw [hcol.read_mem _ _ how k k.isLt, hcol.write _ _ ho k k.isLt]
    rfl
  · exact (hcol.read _ _ how k k.isLt).trans (hcol.write _ _ ho k k.isLt)

end CPU

/-! ## Steps -/

/-- The cells occupy distinct bytes of the page at `base`. -/
structure Placed (cells : List Cell) (base : Nat) : Prop where
  page : ∀ i < cells.length, pageStart (cellOf cells i).addr = base
  distinct : ∀ i < cells.length, ∀ k < cells.length,
    (cellOf cells i).addr = (cellOf cells k).addr → i = k

/-- The byte of a cell. -/
def cellSlot (cells : List Cell) (i : Nat) : Fin PAGE_SIZ := slot (cellOf cells i).addr

theorem Placed.slot_inj {cells : List Cell} {base : Nat} (h : Placed cells base) {i k : Nat}
    (hi : i < cells.length) (hk : k < cells.length) (he : cellSlot cells i = cellSlot cells k) :
    i = k :=
  h.distinct i hi k hk (NandServer.slot_inj ((h.page i hi).trans (h.page k hk).symm) he)

theorem placed_scheduled {cells0 cells : List Cell} {last : Int} {base : Nat}
    (h : Scheduled cells0 cells last) (hpl : Placed cells0 base) : Placed cells base where
  page i hi := by rw [h.addr]; exact hpl.page i (h.len ▸ hi)
  distinct i hi k hk he := by
    rw [h.addr, h.addr] at he
    exact hpl.distinct i (h.len ▸ hi) k (h.len ▸ hk) he

/-- The scheduled wires, as a timed network. -/
def timed (cells : List Cell) : AndNet.Timed Nat := fun i =>
  (cellOf cells i).ins.map fun w => ((w.src.cell, w.src.inv), w.step)

/-- The move of a write. -/
def moveOf (cells : List Cell) (p : Nat × Write) : Nat × Nat × Bool :=
  ((cellOf cells p.1).addr, (cellOf cells p.2.src.cell).addr, p.2.src.inv)

namespace CPU

variable {D : Type} {mem : D → AndMemory.Mem 8} {Ok : D → Prop} {base P j : Nat}

/-- In column `j` the buffer and the flash hold, for every cell, what it has accumulated after step
`t`. -/
structure ColAt (mem : D → AndMemory.Mem 8) (P j : Nat) (cells : List Cell) (init v : Nat → Bool)
    (t : Int) (c : CPU D) : Prop where
  page : ∀ i < cells.length, (c.page.get (cellSlot cells i)).getLsbD j =
    AndNet.accum (timed cells) init v t i
  mem : ∀ i < cells.length, (mem c.nand (P + cellSlot cells i)).getLsbD j =
    AndNet.accum (timed cells) init v t i

section
variable {cells0 cells : List Cell} {last : Int} (h : Scheduled cells0 cells last)
  (hs : shapeOk cells0 = true) (hc : Closed cells0) (hpl : Placed cells base)
include h

theorem timed_perm (i : Nat) : ((timed cells i).map (·.1)).Perm (toNet cells0 i) := by
  rw [timed, List.map_map]
  exact h.lits_perm i

include hc in
theorem src_lt {i : Nat} {w : Write} (hw : w ∈ (cellOf cells i).ins) :
    w.src.cell < cells.length := by
  have hi : i < cells0.length := h.len ▸ lt_of_mem_ins hw
  have hmem : w.src ∈ (cellOf cells0 i).ins.map (·.src) :=
    (h.src_perm i).mem_iff.1 (List.mem_map_of_mem hw)
  obtain ⟨w', hw', he⟩ := List.mem_map.1 hmem
  rw [h.len, ← he]
  exact hc _ (cellOf_mem hi) w' hw'

include hs

/-- A cell is final from its completion on. -/
theorem accum_complete {init v : Nat → Bool} (hv : AndNet.Models (toNet cells0) init v) {i : Nat}
    {t : Int} (ht : (cellOf cells i).complete ≤ t) :
    AndNet.accum (timed cells) init v t i = v i := by
  refine AndNet.accum_final hv (timed_perm h i) fun w hw => ?_
  obtain ⟨w', hw', rfl⟩ := List.mem_map.1 hw
  exact (h.steps hs w' hw').2.2.trans ht

theorem write_unique {i : Nat} {w w' : Write} (hw : w ∈ (cellOf cells i).ins)
    (hw' : w' ∈ (cellOf cells i).ins) (he : w.step = w'.step) : w = w' :=
  List.inj_on_of_nodup_map (h.nodup_steps hs i) hw hw' he

include hpl

/-- Two moves of a step that write one byte are the same wire. -/
theorem writes_distinct {t : Int} {p p' : Nat × Write} (hp : p ∈ stepWrites cells t)
    (hp' : p' ∈ stepWrites cells t) (he : slot (moveOf cells p).1 = slot (moveOf cells p').1) :
    p = p' := by
  obtain ⟨hw, ht⟩ := mem_stepWrites.1 hp
  obtain ⟨hw', ht'⟩ := mem_stepWrites.1 hp'
  have hcell : p.1 = p'.1 := hpl.slot_inj (lt_of_mem_ins hw) (lt_of_mem_ins hw') he
  obtain ⟨i, w⟩ := p
  obtain ⟨i', w'⟩ := p'
  obtain rfl : i = i' := hcell
  exact congrArg (i, ·) (write_unique h hs hw hw' (ht.trans ht'.symm))

include hc

/-- No move reads a byte that a move of its step writes. -/
theorem reads_final {t : Int} {p p' : Nat × Write} (hp : p ∈ stepWrites cells t)
    (hp' : p' ∈ stepWrites cells t) :
    slot (moveOf cells p).2.1 ≠ slot (moveOf cells p').1 := by
  intro he
  obtain ⟨hw, ht⟩ := mem_stepWrites.1 hp
  obtain ⟨hw', ht'⟩ := mem_stepWrites.1 hp'
  have hcell : p.2.src.cell = p'.1 := hpl.slot_inj (src_lt h hc hw) (lt_of_mem_ins hw') he
  have h1 := (h.steps hs p.2 hw).2.1
  have h2 := (h.steps hs p'.2 hw').2.2
  rw [hcell] at h1
  omega

variable [NandInterface D] {init v : Nat → Bool} (hv : AndNet.Models (toNet cells0) init v) (hj : j < 8)
include hv hj

/-- The buffer after the moves of step `t`: the literal written to a cell, if there is one. -/
theorem moves_column {t : Int} {c c' : CPU D} (hin : InPage c (base % 2 ^ 20) P)
    (hcol : ColAt mem P j cells init v (t - 1) c)
    (he : Exec (Idle mem Ok P j) c (stepMoves cells t) c') :
    Edits mem Ok P j c c' ∧ ∀ i < cells.length,
      (AndNet.accum (timed cells) init v (t - 1) i && (c'.page.get (cellSlot cells i)).getLsbD j) =
        AndNet.accum (timed cells) init v t i := by
  have hms : stepMoves cells t = ((stepWrites cells t).map (moveOf cells)).map fun m =>
      moveEmit m.1 m.2.1 m.2.2 := by
    rw [stepMoves_eq, List.map_map]
    rfl
  rw [hms] at he
  have hbase : ∀ m ∈ (stepWrites cells t).map (moveOf cells), pageStart m.1 = base := by
    rintro _ hm
    obtain ⟨p, hp, rfl⟩ := List.mem_map.1 hm
    exact hpl.page _ (lt_of_mem_ins (mem_stepWrites.1 hp).1)
  have hinj : ∀ m ∈ (stepWrites cells t).map (moveOf cells),
      ∀ m' ∈ (stepWrites cells t).map (moveOf cells), slot m.1 = slot m'.1 → m = m' := by
    rintro _ hm _ hm' hse
    obtain ⟨p, hp, rfl⟩ := List.mem_map.1 hm
    obtain ⟨p', hp', rfl⟩ := List.mem_map.1 hm'
    exact congrArg _ (writes_distinct h hs hpl hp hp' hse)
  have hsrc : ∀ m ∈ (stepWrites cells t).map (moveOf cells),
      ∀ m' ∈ (stepWrites cells t).map (moveOf cells), slot m.2.1 ≠ slot m'.1 := by
    rintro _ hm _ hm'
    obtain ⟨p, hp, rfl⟩ := List.mem_map.1 hm
    obtain ⟨p', hp', rfl⟩ := List.mem_map.1 hm'
    exact reads_final h hs hc hpl hp hp'
  obtain ⟨hed, hset, hkeep⟩ := moves_page hin hbase hinj hsrc he
  refine ⟨hed, fun i hi => ?_⟩
  by_cases hw : ∃ w ∈ (cellOf cells i).ins, w.step = t
  · -- the only wire of this step: its source is final
    obtain ⟨w, hw, ht⟩ := hw
    have hsrc := src_lt h hc hw
    have hfinal : (c.page.get (cellSlot cells w.src.cell)).getLsbD j = v w.src.cell := by
      rw [hcol.page _ hsrc]
      refine accum_complete h hs hv ?_
      have := (h.steps hs w hw).2.1
      omega
    have hval : (c'.page.get (cellSlot cells i)).getLsbD j = AndNet.lit v (w.src.cell, w.src.inv) := by
      have := hset _ (List.mem_map_of_mem (f := moveOf cells) (mem_stepWrites.2 ⟨hw, ht⟩))
      refine (congrArg (BitVec.getLsbD · j) this).trans ?_
      rw [getLsbD_moveByte hj]
      exact congrArg (· != w.src.inv) hfinal
    have hmem : ((w.src.cell, w.src.inv), t) ∈ timed cells i := ht ▸ List.mem_map_of_mem hw
    rw [hval, AndNet.accum_step_one hmem]
    rintro _ hm ht'
    obtain ⟨w', hw', rfl⟩ := List.mem_map.1 hm
    rw [write_unique h hs hw hw' (ht.trans ht'.symm)]
  · -- no wire of this step: the byte is still the accumulated value, which is ANDed with itself
    have hkept : c'.page.get (cellSlot cells i) = c.page.get (cellSlot cells i) := by
      refine hkeep _ fun m hm hse => ?_
      obtain ⟨p, hp, rfl⟩ := List.mem_map.1 hm
      obtain ⟨hpw, ht⟩ := mem_stepWrites.1 hp
      obtain rfl : p.1 = i := hpl.slot_inj (lt_of_mem_ins hpw) hi hse
      exact hw ⟨p.2, hpw, ht⟩
    have hnone : ∀ w ∈ timed cells i, w.2 ≠ t := by
      rintro _ hm ht
      obtain ⟨w, hwm, rfl⟩ := List.mem_map.1 hm
      exact hw ⟨w, hwm, ht⟩
    rw [hkept, hcol.page i hi, AndNet.accum_step_none hnone, Bool.and_self]

variable (hok : PageOk Ok P) (hP : PageColumn mem Ok P j) (hb : pageStart base = base)
include hok hP hb

/-- One step: its moves and its `PRG_NAND`. -/
theorem step_column {t : Int} {c c' : CPU D} (hin : InPage c (base % 2 ^ 20) P) (ho : Ok c.nand)
    (hcol : ColAt mem P j cells init v (t - 1) c)
    (he : Exec (Idle mem Ok P j) c (stepMoves cells t ++ [(.prgNand, base, 0)]) c') :
    Frame c c' ∧ Ok c'.nand ∧ ColAt mem P j cells init v t c' := by
  obtain ⟨m, hmoves, hprg⟩ := he.append
  obtain ⟨hed, hacc⟩ := moves_column h hs hc hpl hv hj hin hcol hmoves
  cases hprg with
  | cons hidle hend =>
    rename_i c1
    cases hend
    have hed1 := hed.trans hidle.edits
    obtain ⟨hf, ho', hprog⟩ := exec_prg hok hP (hin.frame hed1.frame) hb (hed1.ok ho)
    have hval : ∀ i < cells.length, ((mem c1.nand (P + cellSlot cells i)).getLsbD j &&
        (c1.page.get (cellSlot cells i)).getLsbD j) = AndNet.accum (timed cells) init v t i := by
      intro i hi
      rw [hed1.mem _ (cellSlot cells i).isLt ho, hcol.mem i hi, hidle.page]
      exact hacc i hi
    exact ⟨hed1.frame.trans hf, ho', fun i hi => (hprog _).2.trans (hval i hi),
      fun i hi => (hprog _).1.trans (hval i hi)⟩

/-- The steps `s..s + k - 1`. -/
theorem steps_column : ∀ (k s : Nat) {c c' : CPU D}, InPage c (base % 2 ^ 20) P → Ok c.nand →
    ColAt mem P j cells init v ((s : Int) - 1) c →
    Exec (Idle mem Ok P j) c ((List.range' s k).flatMap fun t : Nat =>
      stepMoves cells (t : Int) ++ [(.prgNand, base, 0)]) c' →
    Frame c c' ∧ Ok c'.nand ∧ ColAt mem P j cells init v ((s + k : Nat) - 1 : Int) c'
  | 0, s, c, _, _, ho, hcol, .nil _ => ⟨.refl c, ho, by simpa using hcol⟩
  | k + 1, s, c, c', hin, ho, hcol, he => by
    rw [List.range'_succ, List.flatMap_cons] at he
    obtain ⟨m, h1, h2⟩ := he.append
    obtain ⟨hf, ho', hcol'⟩ := step_column h hs hc hpl hv hj hok hP hb hin ho hcol h1
    have hnext : ColAt mem P j cells init v (((s + 1 : Nat) : Int) - 1) m := by
      rw [show ((s + 1 : Nat) : Int) - 1 = s by omega]
      exact hcol'
    obtain ⟨hf', ho'', hcol''⟩ := steps_column k (s + 1) (hin.frame hf) ho' hnext h2
    rw [show s + 1 + k = s + (k + 1) by omega] at hcol''
    exact ⟨hf.trans hf', ho'', hcol''⟩

/-- **The emitted steps compute the network** in column `j`: from the inputs after the first
`PRG_NAND` every cell gets its value, in the buffer and on the flash. -/
theorem emitSteps_column {c c' : CPU D} (hin : InPage c (base % 2 ^ 20) P) (ho : Ok c.nand)
    (hpage : ∀ i < cells.length, (c.page.get (cellSlot cells i)).getLsbD j = init i)
    (hmem : ∀ i < cells.length, (mem c.nand (P + cellSlot cells i)).getLsbD j = init i)
    (he : Exec (Idle mem Ok P j) c (emitSteps cells base last) c') :
    Frame c c' ∧ Ok c'.nand ∧ ∀ i < cells.length, (c'.page.get (cellSlot cells i)).getLsbD j = v i ∧
      (mem c'.nand (P + cellSlot cells i)).getLsbD j = v i := by
  have hstart : ∀ i, AndNet.accum (timed cells) init v 1 i = init i := by
    refine fun i => AndNet.accum_start fun w hw => ?_
    obtain ⟨w', hw', rfl⟩ := List.mem_map.1 hw
    have := (h.steps hs w' hw').1
    show (1 : Int) < w'.step
    omega
  have hcol : ColAt mem P j cells init v ((2 : Nat) - 1 : Int) c :=
    ⟨fun i hi => (hpage i hi).trans (hstart i).symm, fun i hi => (hmem i hi).trans (hstart i).symm⟩
  obtain ⟨hf, ho', hend⟩ := steps_column h hs hc hpl hv hj hok hP hb _ 2 hin ho hcol he
  have hfinal : ∀ i < cells.length, AndNet.accum (timed cells) init v
      ((2 + (last.toNat - 1) : Nat) - 1 : Int) i = v i := by
    refine fun i hi => accum_complete h hs hv ?_
    have h1 := h.one_le
    have h2 := h.le_last i (h.len ▸ hi)
    omega
  exact ⟨hf, ho', fun i hi => ⟨(hend.page i hi).trans (hfinal i hi),
    (hend.mem i hi).trans (hfinal i hi)⟩⟩

end

end CPU

end NandServer
