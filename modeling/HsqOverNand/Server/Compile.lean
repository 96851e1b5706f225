import HsqOverNand.Server.Proof.Column

/-!
# The netlist compiler preserves meaning

For any netlist a client of `Netlist` can build (`Built`), on a fault-free device:

* `schedule` fails exactly when an input cell has a wire (its `assert`).
* Otherwise every wire is emitted exactly once, no step reads a cell that is written in it or later,
  no step writes a cell twice (`EmitsOnce`), and executing the steps leaves every cell with its value
  in the AND network of the wires.
-/

set_option autoImplicit false

namespace NandServer

open Netlist

/-- The netlists of calls to `input`, `cell` and `wire`. Between two calls other netlists may draw
from the global `calcAddr` (`other`). -/
inductive Built : Netlist → Prop
  | empty (calcAddr : Nat) : Built ⟨[], calcAddr⟩
  | input {net net' : Netlist} {i : Nat} : Built net → input.run net = some (i, net') → Built net'
  | cell {net net' : Netlist} {i : Nat} : Built net → cell.run net = some (i, net') → Built net'
  | wire {net net' : Netlist} (dst : Nat) (src : Sig) (inv : Bool) : Built net → dst < net.cells.length →
      src.cell < net.cells.length → (Netlist.wire dst src inv).run net = some ((), net') → Built net'
  | other {net : Netlist} (calcAddr : Nat) : Built net → Built { net with calcAddr }

/-- No cell depends on itself. -/
def Acyclic (net : Netlist) : Prop :=
  ∀ i, ¬ Relation.TransGen (AndNet.Feeds (toNet net.cells)) i i

/-- An input cell. -/
def IsIn (net : Netlist) (i : Nat) : Prop := i < net.cells.length ∧ (cellOf net.cells i).complete = 1

/-- The value of every cell: an input's bit, else the AND of its wires. -/
def Value (net : Netlist) (bits v : Nat → Bool) : Prop :=
  ∀ i < net.cells.length, v i =
    if (cellOf net.cells i).complete = 1 then bits i else (cellOf net.cells i).ins.all fun w => w.src.val v

/-! ## Built netlists -/

theorem mem_of_mem_modify {α : Type} {l : List α} {i : Nat} {f : α → α} {x : α}
    (h : x ∈ l.modify i f) : ∃ y ∈ l, x = y ∨ x = f y := by
  obtain ⟨k, hk, rfl⟩ := List.mem_iff_getElem.1 h
  rw [List.length_modify] at hk
  refine ⟨l[k], List.getElem_mem hk, ?_⟩
  rw [List.getElem_modify]
  split
  · exact .inr rfl
  · exact .inl rfl

theorem Built.shape {net : Netlist} (h : Built net) : Raw net.cells ∧ Closed net.cells := by
  induction h with
  | empty => simp [Raw, Closed]
  | other _ _ ih => exact ih
  | input _ hr ih =>
    cases hr
    refine ⟨fun c hc => ?_, fun c hc w hw => ?_⟩ <;> rcases List.mem_append.1 hc with hc | hc
    · exact ih.1 c hc
    · rw [List.mem_singleton.1 hc]
      exact .inl rfl
    · exact (ih.2 c hc w hw).trans_le (by simp)
    · rw [List.mem_singleton.1 hc] at hw
      cases hw
  | cell _ hr ih =>
    cases hr
    refine ⟨fun c hc => ?_, fun c hc w hw => ?_⟩ <;> rcases List.mem_append.1 hc with hc | hc
    · exact ih.1 c hc
    · rw [List.mem_singleton.1 hc]
      exact .inr rfl
    · exact (ih.2 c hc w hw).trans_le (by simp)
    · rw [List.mem_singleton.1 hc] at hw
      cases hw
  | @wire net _ dst src inv _ _ hsrc hr ih =>
    cases hr
    refine ⟨fun c hc => ?_, fun c hc w hw => ?_⟩ <;>
      obtain ⟨c', hc', rfl | rfl⟩ := mem_of_mem_modify hc
    · exact ih.1 c hc'
    · exact ih.1 c' hc'
    · exact (ih.2 c hc' w hw).trans_le (by simp)
    · rcases List.mem_append.1 hw with hw | hw
      · exact (ih.2 c' hc' w hw).trans_le (by simp)
      · rw [List.mem_singleton.1 hw]
        exact hsrc.trans_le (by simp)

/-- Only cells of the netlist are fed, so acyclicity is well-foundedness. -/
theorem wellFounded_feeds {cells : List Cell} (hc : Closed cells)
    (hac : ∀ i, ¬ Relation.TransGen (AndNet.Feeds (toNet cells)) i i) :
    WellFounded (AndNet.Feeds (toNet cells)) := by
  have hlt : ∀ {a b : Nat}, AndNet.Feeds (toNet cells) a b → a < cells.length ∧ b < cells.length := by
    intro a b hf
    obtain ⟨w, hw, rfl⟩ := feeds_iff.1 hf
    have hb := lt_of_mem_ins hw
    exact ⟨hc _ (cellOf_mem hb) w hw, hb⟩
  let r : Fin cells.length → Fin cells.length → Prop := fun a b => AndNet.Feeds (toNet cells) a b
  have hlift : ∀ {a b : Fin cells.length}, Relation.TransGen r a b →
      Relation.TransGen (AndNet.Feeds (toNet cells)) a b :=
    fun h => h.lift Fin.val fun _ _ h => h
  have hwf : WellFounded r := AndNet.wellFounded_of_acyclic fun i h => hac i (hlift h)
  have hacc : ∀ i : Fin cells.length, Acc (AndNet.Feeds (toNet cells)) i := by
    intro i
    induction i using hwf.induction with
    | _ i ih => exact ⟨_, fun a ha => ih ⟨a, (hlt ha).1⟩ ha⟩
  exact ⟨fun i => ⟨_, fun a ha => hacc ⟨a, (hlt ha).1⟩⟩⟩

/-! ## Emission -/

/-- What the steps emit for a netlist: every wire once, reads of finished cells only, and one write
to a cell per step. -/
structure EmitsOnce (net scheduled : Netlist) (base : Nat) (last : Int) : Prop where
  wires : ((emitSteps scheduled.cells base last).filter fun e => e.1 ≠ .prgNand).Perm
    (net.cells.flatMap fun cl => cl.ins.map fun w =>
      moveEmit cl.addr (cellOf net.cells w.src.cell).addr w.src.inv)
  final : ∀ s t, s ≤ t → ∀ e ∈ stepMoves scheduled.cells s, ∀ e' ∈ stepMoves scheduled.cells t,
    e.2.2 ≠ e'.2.1
  once : ∀ s, ((stepMoves scheduled.cells s).map fun e => e.2.1).Nodup

theorem writeEmit_ne (cells : List Cell) (p : Nat × Write) : (writeEmit cells p).1 ≠ .prgNand := by
  show (if p.2.src.inv then Opcode.invMov else .mov) ≠ _
  split <;> decide

theorem emitSteps_moves (cells : List Cell) (base : Nat) (last : Int) :
    (emitSteps cells base last).filter (fun e => e.1 ≠ .prgNand) =
      ((List.range' 2 (last.toNat - 1)).flatMap fun t : Nat => stepWrites cells t).map
        (writeEmit cells) := by
  rw [emitSteps, List.filter_flatMap, List.map_flatMap]
  refine List.flatMap_congr fun t _ => ?_
  rw [List.filter_append, stepMoves_eq, List.filter_eq_self.2]
  · simp
  · intro e he
    obtain ⟨p, -, rfl⟩ := List.mem_map.1 he
    exact decide_eq_true (writeEmit_ne cells p)

section
variable {cells0 cells : List Cell} {last : Int} (h : Scheduled cells0 cells last)
include h

/-- Scheduling keeps the moves of a cell up to their order. -/
theorem ins_moves_perm (i : Nat) :
    (((cellOf cells i).ins.map (i, ·)).map (writeEmit cells)).Perm
      ((cellOf cells0 i).ins.map fun w =>
        moveEmit (cellOf cells0 i).addr (cellOf cells0 w.src.cell).addr w.src.inv) := by
  have hp := (h.src_perm i).map fun s : Sig =>
    moveEmit (cellOf cells0 i).addr (cellOf cells0 s.cell).addr s.inv
  rw [List.map_map, List.map_map] at hp
  rw [List.map_map]
  refine (List.Perm.of_eq (List.map_congr_left fun w _ => ?_)).trans hp
  simp only [Function.comp, writeEmit, h.addr]

theorem emitsOnce_wires {base : Nat} (hs : shapeOk cells0 = true) :
    ((emitSteps cells base last).filter fun e => e.1 ≠ .prgNand).Perm
      (cells0.flatMap fun cl => cl.ins.map fun w =>
        moveEmit cl.addr (cellOf cells0 w.src.cell).addr w.src.inv) := by
  have hkeys : ((List.range' 2 (last.toNat - 1)).map fun t : Nat => (t : Int)).Nodup :=
    .map (fun _ _ he => Int.ofNat.inj he) List.nodup_range'
  have hall : (allWrites cells).filter (fun p => p.2.step ∈
      (List.range' 2 (last.toNat - 1)).map fun t : Nat => (t : Int)) = allWrites cells := by
    rw [List.filter_eq_self]
    rintro ⟨i, w⟩ hp
    have hw := mem_allWrites.1 hp
    have h1 : 2 ≤ w.step := (h.steps hs w hw).1
    have h2 : w.step ≤ last := h.step_le hs (h.len ▸ lt_of_mem_ins hw) w hw
    have hk : ((w.step.toNat : Nat) : Int) = w.step := Int.toNat_of_nonneg (by omega)
    exact decide_eq_true (List.mem_map.2 ⟨w.step.toNat, List.mem_range'_1.2 (by omega), hk⟩)
  have hperm := flatMap_filter_perm (fun p : Nat × Write => p.2.step) (allWrites cells) hkeys
  rw [hall, List.flatMap_map] at hperm
  rw [emitSteps_moves, flatMap_cells cells0, ← h.len]
  refine (hperm.map _).trans ?_
  rw [allWrites, List.map_flatMap]
  exact List.Perm.flatMap_left _ fun i _ => ins_moves_perm h i

variable (hs : shapeOk cells0 = true) (hc : Closed cells0) {base : Nat} (hpl : Placed cells base)
include hs hpl

theorem stepMoves_nodup (t : Int) : ((stepMoves cells t).map fun e => e.2.1).Nodup := by
  have hall : (allWrites cells).Nodup := by
    refine List.nodup_flatMap.2 ⟨fun i _ => ?_, ?_⟩
    · refine (List.Nodup.of_map _ (h.nodup_steps hs i)).map fun a b hab => ?_
      exact (Prod.mk.inj hab).2
    · refine List.nodup_range.imp fun hne => ?_
      intro p hp hp'
      obtain ⟨w, -, rfl⟩ := List.mem_map.1 hp
      obtain ⟨w', -, he⟩ := List.mem_map.1 hp'
      exact hne (Prod.mk.inj he).1.symm
  rw [stepMoves_eq, List.map_map]
  refine (hall.filter _).map_on fun p hp p' hp' he => ?_
  exact CPU.writes_distinct h hs hpl hp hp' (congrArg slot he)

include hc

theorem stepMoves_final {s t : Int} (hst : s ≤ t) : ∀ e ∈ stepMoves cells s,
    ∀ e' ∈ stepMoves cells t, e.2.2 ≠ e'.2.1 := by
  intro e he e' he' heq
  rw [stepMoves_eq] at he he'
  obtain ⟨⟨i, w⟩, hp, rfl⟩ := List.mem_map.1 he
  obtain ⟨⟨i', w'⟩, hp', rfl⟩ := List.mem_map.1 he'
  obtain ⟨hw, hws⟩ := mem_stepWrites.1 hp
  obtain ⟨hw', hws'⟩ := mem_stepWrites.1 hp'
  have hcell : w.src.cell = i' :=
    hpl.distinct _ (CPU.src_lt h hc hw) _ (lt_of_mem_ins hw') heq
  have h1 := (h.steps hs w hw).2.1
  have h2 := (h.steps hs w' hw').2.2
  rw [hcell] at h1
  omega

end

/-! ## The compiler -/

/-- The `assert`s of `schedule` fail on a wired input only. -/
theorem shapeOk_built {net : Netlist}
    (hw : ∀ i < net.cells.length, ¬ IsIn net i → (cellOf net.cells i).ins ≠ []) :
    shapeOk net.cells = true ↔ ¬ ∃ i, IsIn net i ∧ (cellOf net.cells i).ins ≠ [] := by
  rw [shapeOk_iff]
  constructor
  · rintro h ⟨i, ⟨hi, h1⟩, hne⟩
    have := h _ (cellOf_mem hi)
    rw [if_pos h1] at this
    exact hne this
  · intro h c hc
    obtain ⟨i, hi, rfl⟩ := List.mem_iff_getElem.1 hc
    rw [← cellOf_eq (List.getElem?_eq_getElem hi)]
    split
    · rename_i h1
      by_contra hne
      exact h ⟨i, ⟨hi, h1⟩, hne⟩
    · rename_i h1
      exact hw i hi fun hin => h1 hin.2

/-- A valuation extended by 1 beyond the netlist is a model of the AND network. -/
theorem Value.models {net : Netlist} {bits v : Nat → Bool} (hc : Closed net.cells)
    (hs : shapeOk net.cells = true) (hv : Value net bits v) :
    AndNet.Models (toNet net.cells) (fun i => if (cellOf net.cells i).complete = 1 then bits i else true)
      (fun i => if i < net.cells.length then v i else true) := by
  intro i
  rcases Nat.lt_or_ge i net.cells.length with hi | hi
  · have hlit : ∀ w ∈ (cellOf net.cells i).ins, w.src.val v =
        AndNet.lit (fun i => if i < net.cells.length then v i else true) (w.src.cell, w.src.inv) := by
      intro w hw
      simp only [Sig.val, AndNet.lit, if_pos (hc _ (cellOf_mem hi) w hw)]
    simp only [toNet, lits, List.all_map, if_pos hi, hv i hi]
    split
    · rename_i h1
      rw [show (cellOf net.cells i).ins = [] from shape_of_mem hs h1, List.all_nil, Bool.and_true]
    · rw [Bool.true_and, Bool.eq_iff_iff, List.all_eq_true, List.all_eq_true]
      exact forall₂_congr fun w hw => by rw [hlit w hw]; rfl
  · have hd : cellOf net.cells i = default := cellOf_default hi
    simp only [toNet, lits, hd, if_neg (Nat.not_lt.2 hi)]
    rfl

theorem exists_value {net : Netlist} (hs : shapeOk net.cells = true)
    (hwf : WellFounded (AndNet.Feeds (toNet net.cells))) (bits : Nat → Bool) :
    ∃ v, Value net bits v := by
  obtain ⟨v, hv⟩ := AndNet.exists_models hwf
    fun i => if (cellOf net.cells i).complete = 1 then bits i else true
  refine ⟨v, fun i _ => ?_⟩
  have hi := hv i
  simp only [toNet, lits, List.all_map] at hi
  rw [hi]
  split
  · rename_i h1
    rw [shape_of_mem hs h1, List.all_nil, Bool.and_true]
  · rfl

/-- The state after the first `PRG_NAND`: the physical page of `base` holds the input bits over a
background of 1s, and so does the buffer. -/
structure InputsProgrammed (c : CPU Flash) (net : Netlist) (base : Nat) (bits : Nat → Bool) : Prop where
  aligned : c.pageOffset % PAGE_SIZ = 0
  page : ∀ k : Fin PAGE_SIZ, c.page.get k = c.nand.mem (c.preOffset + k)
  here : c.preOffset = pageStart (c.phys (base % 2 ^ 20))
  inputs : ∀ i, IsIn net i → c.nand.mem (c.preOffset + cellSlot net.cells i) = CPU.fill (bits i)
  rest : ∀ k : Fin PAGE_SIZ, (∀ i, IsIn net i → cellSlot net.cells i ≠ k) →
    c.nand.mem (c.preOffset + k) = 0xff

section
variable {c : CPU Flash} {net : Netlist} {base : Nat} {bits : Nat → Bool}
  (h : InputsProgrammed c net base bits)
include h

theorem InputsProgrammed.inPage : CPU.InPage c (base % 2 ^ 20) c.preOffset where
  phys a ha := by
    refine (CPU.phys_page h.aligned ?_).trans h.here.symm
    rw [← ha, pageStart_pageStart]
  pre := rfl

/-- A cell's byte holds its input bit, or 1s. -/
theorem InputsProgrammed.mem (hpl : Placed net.cells base) {i : Nat} (hi : i < net.cells.length) :
    c.nand.mem (c.preOffset + cellSlot net.cells i) =
      CPU.fill (if (cellOf net.cells i).complete = 1 then bits i else true) := by
  split
  · rename_i h1
    exact h.inputs i ⟨hi, h1⟩
  · rename_i h1
    refine h.rest _ fun k hk he => h1 ?_
    rw [← hpl.slot_inj hk.1 hi he]
    exact hk.2

end

/-- The emitted steps, executed after the inputs, leave the value of every cell. -/
theorem InputsProgrammed.run {c : CPU Flash} {net : Netlist} {base : Nat} {bits v : Nat → Bool}
    (hc : InputsProgrammed c net base bits) (hpl : Placed net.cells base) (hs : shapeOk net.cells = true)
    (hclosed : Closed net.cells) {cells : List Cell} {last : Int} (h : Scheduled net.cells cells last)
    (hv : Value net bits v) {ops : List RomT} (hops : List.Forall₂ Encodes ops (emitSteps cells base last))
    {i : Nat} (hi : i < net.cells.length) :
    (ops.foldl CPU.execute c).nand.mem (c.preOffset + cellSlot net.cells i) = CPU.fill (v i) ∧
      (ops.foldl CPU.execute c).page.get (cellSlot net.cells i) = CPU.fill (v i) := by
  have hpl' := placed_scheduled h hpl
  have hcell : ∀ k, cellSlot cells k = cellSlot net.cells k := fun k => congrArg slot (h.addr k)
  have hlen : i < cells.length := h.len ▸ hi
  have hb : pageStart base = base := by
    rw [← hpl.page i hi, pageStart_pageStart]
  obtain ⟨c', hex, pc, hpc⟩ := CPU.exec_of_execute hops (show CPU.PcOnly c c from ⟨c.pc, rfl⟩)
  have hcol : ∀ j < 8, (c'.page.get (cellSlot cells i)).getLsbD j = v i ∧
      (c'.nand.mem (c.preOffset + cellSlot cells i)).getLsbD j = v i := by
    intro j hj
    have hex' := hex.imp (s := CPU.Idle Flash.mem (fun _ => True) c.preOffset j) ?_
    · have hstart : ∀ k < cells.length, (c.nand.mem (c.preOffset + cellSlot cells k)).getLsbD j =
          if (cellOf net.cells k).complete = 1 then bits k else true := by
        intro k hk
        rw [hcell, hc.mem hpl (h.len ▸ hk), CPU.getLsbD_fill _ hj]
      have hend := (CPU.emitSteps_column h hs hclosed hpl' (hv.models hclosed hs) hj
        ⟨fun _ _ _ => trivial, fun _ _ _ => trivial⟩
        (CPU.flash_pageColumn c.preOffset j) hb hc.inPage trivial
        (fun k hk => by rw [hc.page, hstart k hk]) hstart hex').2.2 i hlen
      simpa only [if_pos hi] using hend
    · rintro a _ ⟨pc, rfl⟩
      exact ⟨⟨rfl, rfl, rfl, rfl, rfl, rfl, rfl, rfl, rfl⟩, rfl, fun _ => trivial,
        fun _ _ _ => rfl⟩
  simp only [hpc, CPU.setPc, ← hcell]
  exact ⟨CPU.eq_fill fun j hj => (hcol j hj).2, CPU.eq_fill fun j hj => (hcol j hj).1⟩

/-- **The netlist compiler preserves meaning.** -/
theorem compile_correct {net : Netlist} (hb : Built net) (hac : Acyclic net)
    (hw : ∀ i < net.cells.length, ¬ IsIn net i → (cellOf net.cells i).ins ≠ []) {base : Nat}
    (hpl : Placed net.cells base) :
    (net.schedule = none ↔ ∃ i, IsIn net i ∧ (cellOf net.cells i).ins ≠ []) ∧
    ∀ net' last, net.schedule = some (net', last) → EmitsOnce net net' base last ∧
      ∀ bits : Nat → Bool, ∃ v, Value net bits v ∧
        (∀ v', Value net bits v' → ∀ i < net.cells.length, v' i = v i) ∧
        ∀ (c : CPU Flash) (ops : List RomT), InputsProgrammed c net base bits →
          List.Forall₂ Encodes ops (emitSteps net'.cells base last) →
          ∀ i < net.cells.length,
            (ops.foldl CPU.execute c).nand.mem (c.preOffset + cellSlot net.cells i) =
              CPU.fill (v i) ∧
            (ops.foldl CPU.execute c).page.get (cellSlot net.cells i) = CPU.fill (v i) := by
  obtain ⟨hraw, hclosed⟩ := hb.shape
  have hwf := wellFounded_feeds hclosed hac
  have hshape := shapeOk_built hw
  refine ⟨⟨fun hn => ?_, fun hex => ?_⟩, fun net' last hsched => ?_⟩
  · by_contra hex
    obtain ⟨cells, last, he, -⟩ := schedule_spec (a := net.calcAddr) (hshape.2 hex) hraw hclosed hwf
    exact absurd (hn.symm.trans he) (by simp)
  · have hs : shapeOk net.cells = false := by
      rw [Bool.eq_false_iff]
      exact fun hs => hshape.1 hs hex
    simp [schedule, hs]
  have hs : shapeOk net.cells = true := by
    by_contra hs
    simp [schedule, hs] at hsched
  obtain ⟨cells, last', he, h⟩ := schedule_spec (a := net.calcAddr) hs hraw hclosed hwf
  cases hsched.symm.trans he
  have hpl' := placed_scheduled h hpl
  refine ⟨⟨emitsOnce_wires h hs, fun s t hst => stepMoves_final h hs hclosed hpl' hst,
    stepMoves_nodup h hs hpl'⟩, fun bits => ?_⟩
  obtain ⟨v, hv⟩ := exists_value hs hwf bits
  refine ⟨v, hv, fun v' hv' i hi => ?_, fun c ops hc hops i hi => ?_⟩
  · have := congrFun (AndNet.models_unique hwf (hv'.models hclosed hs) (hv.models hclosed hs)) i
    simpa only [if_pos hi] using this
  · exact hc.run hpl hs hclosed h hv hops hi

/-- `x & ~y & x` and its AND with its own complement. -/
def sampleNet : Netlist where
  cells := [⟨RAM, [], 1⟩, ⟨RAM + 1, [], 1⟩,
    ⟨RAM + 2, [⟨⟨0, false⟩, -1⟩, ⟨⟨1, true⟩, -1⟩, ⟨⟨0, false⟩, -1⟩], -1⟩,
    ⟨RAM + 3, [⟨⟨2, true⟩, -1⟩, ⟨⟨2, false⟩, -1⟩], -1⟩]
  calcAddr := RAM + 4

theorem sampleNet_built : Built sampleNet := by
  have h0 : Built ⟨[], RAM⟩ := .empty RAM
  have h1 := Built.input (.input h0 rfl) rfl
  have h2 := Built.cell h1 rfl
  have h3 := Built.wire 2 ⟨0, false⟩ false h2 (by decide) (by decide) rfl
  have h4 := Built.wire 2 ⟨1, false⟩ true h3 (by decide) (by decide) rfl
  have h5 := Built.wire 2 ⟨0, true⟩ true h4 (by decide) (by decide) rfl
  have h6 := Built.cell h5 rfl
  have h7 := Built.wire 3 ⟨2, false⟩ true h6 (by decide) (by decide) rfl
  exact Built.wire 3 ⟨2, false⟩ false h7 (by decide) (by decide) rfl

theorem sampleNet_acyclic : Acyclic sampleNet := by
  have hlt : ∀ {a b : Nat}, AndNet.Feeds (toNet sampleNet.cells) a b → a < b := by
    intro a b h
    obtain ⟨w, hw, rfl⟩ := feeds_iff.1 h
    have hb : b < 4 := lt_of_mem_ins hw
    have hall : ∀ b : Fin 4, ∀ w ∈ (cellOf sampleNet.cells b).ins, w.src.cell < b := by decide
    exact hall ⟨b, hb⟩ w hw
  have htrans : ∀ {a b : Nat}, Relation.TransGen (AndNet.Feeds (toNet sampleNet.cells)) a b → a < b := by
    intro a b h
    induction h with
    | single h => exact hlt h
    | tail _ h ih => exact ih.trans (hlt h)
  exact fun i h => absurd (htrans h) (Nat.lt_irrefl i)

theorem sampleNet_placed : Placed sampleNet.cells RAM where
  page := by
    have h : ∀ i : Fin 4, pageStart (cellOf sampleNet.cells i).addr = RAM := by decide
    exact fun i hi => h ⟨i, hi⟩
  distinct := by
    have h : ∀ i k : Fin 4, (cellOf sampleNet.cells i).addr = (cellOf sampleNet.cells k).addr →
      i = k := by decide
    exact fun i hi k hk he => congrArg Fin.val (h ⟨i, hi⟩ ⟨k, hk⟩ he)

/-- `x` is 1 and `y` is 0. -/
def sampleBits (i : Nat) : Bool := i = 0

/-- After the first `PRG_NAND` with these inputs. -/
def sampleCpu : CPU Flash :=
  let mem : AndMemory.Mem 8 := fun a => if a = RAM + 1 then 0x00 else 0xff
  { CPU.init 0 ⟨mem, 786432⟩ with page := .ofFn fun k => mem (RAM + k), preOffset := RAM }

theorem sampleCpu_programmed : InputsProgrammed sampleCpu sampleNet RAM sampleBits where
  aligned := rfl
  page k := Vector.getElem_ofFn k.isLt
  here := by decide
  inputs i hi := by
    have h : ∀ i : Fin 4, (cellOf sampleNet.cells i).complete = 1 →
      sampleCpu.nand.mem (RAM + cellSlot sampleNet.cells i) = CPU.fill (sampleBits i) := by decide
    exact h ⟨i, hi.1⟩ hi.2
  rest k hk := by
    have h1 := hk 1 ⟨by decide, by decide⟩
    refine if_neg fun he => h1 (Fin.ext ?_)
    have he : RAM + k.val = RAM + 1 := he
    exact (Nat.add_left_cancel he).symm

/-- The steps are emitted once, and leave `x & ~y & x` in cell 2 and 0 in cell 3. -/
theorem sampleNet_compiled : ∃ net' last, sampleNet.schedule = some (net', last) ∧
    EmitsOnce sampleNet net' RAM last ∧
    (((emitSteps net'.cells RAM last).map (toRom · 0)).foldl CPU.execute sampleCpu).nand.mem (RAM + 2) = 0xff ∧
    (((emitSteps net'.cells RAM last).map (toRom · 0)).foldl CPU.execute sampleCpu).nand.mem (RAM + 3) = 0x00 := by
  have hwired : ∀ i : Fin 4, (cellOf sampleNet.cells i).complete ≠ 1 → (cellOf sampleNet.cells i).ins ≠ [] := by
    decide
  obtain ⟨hnone, hsome⟩ := compile_correct sampleNet_built sampleNet_acyclic
    (fun i hi hn => hwired ⟨i, hi⟩ fun h1 => hn ⟨hi, h1⟩) sampleNet_placed
  cases hs : sampleNet.schedule with
  | none =>
    obtain ⟨i, ⟨hi, h1⟩, hne⟩ := hnone.1 hs
    have h : ∀ i : Fin 4, (cellOf sampleNet.cells i).complete = 1 →
      (cellOf sampleNet.cells i).ins = [] := by decide
    exact absurd (h ⟨i, hi⟩ h1) hne
  | some r =>
    obtain ⟨honce, hmeans⟩ := hsome r.1 r.2 hs
    obtain ⟨v, hv, -, hbytes⟩ := hmeans sampleBits
    have hops : List.Forall₂ Encodes ((emitSteps r.1.cells RAM r.2).map (toRom · 0))
        (emitSteps r.1.cells RAM r.2) :=
      List.forall₂_map_left_iff.2 (List.forall₂_same.2 fun e _ => rfl)
    have hend := hbytes sampleCpu _ sampleCpu_programmed hops
    have h0 : v 0 = true := hv 0 (by decide)
    have h1 : v 1 = false := hv 1 (by decide)
    have h2 : v 2 = true := (hv 2 (by decide)).trans (by simp [sampleNet, cellOf, Sig.val, AndNet.lit, h0, h1])
    have h3 : v 3 = false := (hv 3 (by decide)).trans (by simp [sampleNet, cellOf, Sig.val, AndNet.lit, h2])
    refine ⟨r.1, r.2, rfl, honce, ?_, ?_⟩
    · exact (hend 2 (by decide)).1.trans (congrArg CPU.fill h2)
    · exact (hend 3 (by decide)).1.trans (congrArg CPU.fill h3)

end NandServer
