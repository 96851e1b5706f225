import HsqOverNand.Lib.Greedy
import HsqOverNand.Server.Compile

/-!
# `schedule()` is complete and optimal

For any netlist whose inputs have no wire and whose other cells have one:

* The work list empties, and every cell is popped exactly when the netlist is acyclic (`done_iff`).
* Then the result is a schedule (`IsSchedule`), and every cell completes as early as in any other one
  (`complete_le`): the steps of a cell are greedy slots after the completions of its sources.
-/

set_option autoImplicit false

namespace NandServer

namespace Netlist

/-- Inputs have no wire, every other cell has one. -/
def Shaped (net : Netlist) : Prop :=
  ∀ i < net.cells.length, (cellOf net.cells i).complete = 1 ↔ (cellOf net.cells i).ins = []

/-- The `while` loop of `schedule`, run to its end. -/
def worked (net : Netlist) : SchedState :=
  schedLoop (readers net.cells) net.cells.length (schedInit net.cells)

/-- `cells` are the cells of the netlist `cells0` with a valid schedule. -/
structure IsSchedule (cells0 cells : List Cell) : Prop where
  len : cells.length = cells0.length
  wires : ∀ i < cells0.length, ((cellOf cells i).ins.map (·.src)).Perm ((cellOf cells0 i).ins.map (·.src))
  input : ∀ i < cells0.length, (cellOf cells0 i).complete = 1 → (cellOf cells i).complete = 1
  steps : ∀ i < cells0.length, ∀ w ∈ (cellOf cells i).ins, 2 ≤ w.step ∧
    (cellOf cells w.src.cell).complete < w.step
  distinct : ∀ i < cells0.length, ((cellOf cells i).ins.map (·.step)).Nodup
  /-- A cell completes with its last write. -/
  complete : ∀ i < cells0.length, (cellOf cells0 i).complete ≠ 1 →
    (∃ w ∈ (cellOf cells i).ins, w.step = (cellOf cells i).complete) ∧
      ∀ w ∈ (cellOf cells i).ins, w.step ≤ (cellOf cells i).complete

/-- `last` is the largest completion. -/
def IsLast (cells : List Cell) (last : Int) : Prop :=
  (∀ i < cells.length, (cellOf cells i).complete ≤ last) ∧
    (cells ≠ [] → ∃ i < cells.length, (cellOf cells i).complete = last)

/-! ## Greedy slots -/

theorem assignSteps_finish {f : Write → Int} : ∀ (ws : List Write) (t : Int),
    (assignSteps f t ws).2 = Greedy.finish t (ws.map f)
  | [], _ => rfl
  | _ :: ws, _ => assignSteps_finish ws _

theorem sortedIns_sorted (cells : List Cell) (c : Cell) :
    ((sortedIns cells c).map (srcComplete cells)).Pairwise (· ≤ ·) := by
  rw [List.pairwise_map]
  let le (l r : Write) : Bool := decide (srcComplete cells l ≤ srcComplete cells r)
  have htrans : ∀ a b d, le a b → le b d → le a d := fun a b d hab hbd =>
    decide_eq_true ((of_decide_eq_true hab).trans (of_decide_eq_true hbd))
  have htotal : ∀ a b, le a b || le b a := by
    intro a b
    rcases le_total (srcComplete cells a) (srcComplete cells b) with h | h <;> simp [le, h]
  exact (List.pairwise_mergeSort htrans htotal c.ins).imp fun h => of_decide_eq_true h

/-- The completion of a cell whose sources complete as in `cells`, against other steps `ws` of its
wires. -/
theorem scheduleCell_le {cells : List Cell} {c : Cell} {ws : List Write} {m : Int}
    (hp : (ws.map (·.src)).Perm (c.ins.map (·.src))) (hd : (ws.map (·.step)).Nodup)
    (hw : ∀ w ∈ ws, 2 ≤ w.step ∧ srcComplete cells w < w.step ∧ w.step ≤ m) (hm : 1 ≤ m) :
    (scheduleCell cells c).complete ≤ m := by
  rw [scheduleCell_eq]
  show (assignSteps (srcComplete cells) 1 (sortedIns cells c)).2 ≤ m
  rw [assignSteps_finish]
  refine @Greedy.finish_le _ (ws.map fun w => (srcComplete cells w, w.step)) _ _ (sortedIns_sorted cells c)
    ?_ ?_ (fun j hj => ?_) hm
  · have hsorted := (sortedIns_perm cells c).map (·.src)
    have hsrc := (hp.trans hsorted.symm).map fun s : Sig => (cells.getD s.cell default).complete
    rw [List.map_map, List.map_map] at hsrc
    rw [List.map_map]
    exact hsrc
  · rw [List.map_map]
    exact hd
  · obtain ⟨w, hmem, rfl⟩ := List.mem_map.1 hj
    obtain ⟨h2, h1, h3⟩ := hw w hmem
    exact ⟨h1, by omega, h3⟩

/-! ## The result -/

section
variable {cells0 cells : List Cell} {last : Int}

theorem Scheduled.isSchedule (h : Scheduled cells0 cells last) (hs : shapeOk cells0 = true) :
    IsSchedule cells0 cells where
  len := h.len
  wires i _ := h.src_perm i
  input i _ hi := h.complete_input hi
  steps i _ w hw := ⟨(h.steps hs w hw).1, (h.steps hs w hw).2.1⟩
  distinct i _ := h.nodup_steps hs i
  complete i hi hne := by
    refine ⟨?_, fun w hw => (h.steps hs w hw).2.2⟩
    cases h.settled i hi with
    | inl hin => exact absurd hin.1 hne
    | inr hcell =>
      have hins := shapeOk_iff.1 hs _ (cellOf_mem hi)
      rw [if_neg hne] at hins
      rw [hcell.2]
      exact scheduleCell_last cells _ hins

/-- **Every cell completes as early as in any other schedule.** -/
theorem complete_le (h : Scheduled cells0 cells last) (hc : Closed cells0)
    (hwf : WellFounded (AndNet.Feeds (toNet cells0))) {other : List Cell} (ho : IsSchedule cells0 other)
    (i : Nat) : i < cells0.length → (cellOf cells i).complete ≤ (cellOf other i).complete := by
  induction i using hwf.induction with
  | _ i ih =>
    intro hi
    cases h.settled i hi with
    | inl hin => rw [h.complete_input hin.1, ho.input i hi hin.1]
    | inr hcell =>
      have hne : (cellOf cells0 i).complete ≠ 1 := by
        rw [hcell.1]
        decide
      obtain ⟨⟨w0, hw0, he0⟩, hle⟩ := ho.complete i hi hne
      have h2 := (ho.steps i hi w0 hw0).1
      rw [hcell.2]
      refine scheduleCell_le (ho.wires i hi) (ho.distinct i hi) (fun w hw => ?_) (by omega)
      obtain ⟨h2, h1⟩ := ho.steps i hi w hw
      -- The sources complete earlier here, by induction.
      have hsrc : w.src ∈ (cellOf cells0 i).ins.map (·.src) :=
        (ho.wires i hi).mem_iff.1 (List.mem_map_of_mem hw)
      obtain ⟨w', hw', he⟩ := List.mem_map.1 hsrc
      have hlt : w.src.cell < cells0.length := he ▸ hc _ (cellOf_mem hi) w' hw'
      have hfeeds : AndNet.Feeds (toNet cells0) w.src.cell i := feeds_iff.2 ⟨w', hw', congrArg Sig.cell he⟩
      have hih := ih w.src.cell hfeeds hlt
      exact ⟨h2, lt_of_le_of_lt hih h1, hle w hw⟩

/-- Completions grow along the wires. -/
theorem Scheduled.acyclic (h : Scheduled cells0 cells last) (hs : shapeOk cells0 = true) (i : Nat) :
    ¬ Relation.TransGen (AndNet.Feeds (toNet cells0)) i i := by
  have hlt : ∀ a b, AndNet.Feeds (toNet cells0) a b →
      (cellOf cells a).complete < (cellOf cells b).complete := by
    intro a b hf
    obtain ⟨w, hw, rfl⟩ := feeds_iff.1 hf
    obtain ⟨w', hw', he⟩ := List.mem_map.1 ((h.src_perm b).mem_iff.2 (List.mem_map_of_mem hw))
    have hst := h.steps hs w' hw'
    rw [he] at hst
    omega
  have htrans : ∀ {a b : Nat}, Relation.TransGen (AndNet.Feeds (toNet cells0)) a b →
      (cellOf cells a).complete < (cellOf cells b).complete := by
    intro a b hf
    induction hf with
    | single hab => exact hlt _ _ hab
    | tail _ hbc ih => exact ih.trans (hlt _ _ hbc)
  exact fun hcycle => lt_irrefl _ (htrans hcycle)

end

/-- The largest completion: with a cell there is an input, or a cell after one. -/
theorem Scheduled.isLast {cells0 cells : List Cell} {last : Int} (h : Scheduled cells0 cells last) :
    IsLast cells last := by
  refine ⟨fun i hi => h.le_last i (h.len ▸ hi), fun hne => ?_⟩
  cases h.last_eq with
  | inr hlast =>
    obtain ⟨i, hi, he⟩ := hlast
    exact ⟨i, h.len.symm ▸ hi, he⟩
  | inl h1 =>
    have hpos : 0 < cells.length := List.length_pos_of_ne_nil hne
    have h0 : 0 < cells0.length := h.len ▸ hpos
    refine ⟨0, hpos, le_antisymm (h.le_last 0 h0) ?_⟩
    rw [h1]
    cases h.settled 0 h0 with
    | inl hin => rw [h.complete_input hin.1]
    | inr hcell =>
      rw [hcell.2]
      have := scheduleCell_complete_ge cells (cellOf cells0 0)
      omega

end Netlist

open Netlist

section
variable {net : Netlist}

theorem Netlist.Shaped.shapeOk (h : net.Shaped) : shapeOk net.cells = true := by
  rw [shapeOk_iff]
  intro c hc
  obtain ⟨i, hi, rfl⟩ := List.mem_iff_getElem.1 hc
  have hcell := cellOf_eq (List.getElem?_eq_getElem hi)
  rw [← hcell]
  split
  · next h1 => exact (h i hi).1 h1
  · next h1 => exact fun he => h1 ((h i hi).2 he)

theorem schedule_eq (h : shapeOk net.cells = true) : net.schedule =
    if net.worked.done = net.cells.length then
      some (⟨net.worked.cells, net.calcAddr⟩, net.worked.maxStep)
    else none := by
  unfold schedule
  simp only [h, if_true]
  rfl

/-- **The work list ends**, and with all cells popped exactly on an acyclic netlist. -/
theorem done_iff (hb : Built net) (hs : net.Shaped) :
    net.worked.q = [] ∧ (net.worked.done = net.cells.length ↔ Acyclic net) := by
  obtain ⟨hraw, hclosed⟩ := hb.shape
  obtain ⟨D, h, hq⟩ := schedLoop_q hs.shapeOk hraw
  refine ⟨hq, fun hdone => ?_, fun hac => ?_⟩
  · have hlen : D.length = net.cells.length := h.done.symm.trans hdone
    have hsub : D ⊆ List.range net.cells.length := fun i hi =>
      List.mem_range.2 (h.range i (List.mem_append_left _ hi))
    have hperm : D.Perm (List.range net.cells.length) :=
      (List.subperm_of_subset (List.nodup_append.1 h.nodup).1 hsub).perm_of_length_le (by
        rw [List.length_range, hlen])
    exact (h.scheduled fun i hi => hperm.mem_iff.2 (List.mem_range.2 hi)).acyclic hs.shapeOk
  · obtain ⟨cells, last, he, -⟩ := schedule_spec (a := net.calcAddr) hs.shapeOk hraw hclosed
      (wellFounded_feeds hclosed hac)
    by_contra hne
    have hnone := schedule_eq hs.shapeOk
    rw [if_neg hne] at hnone
    cases hnone.symm.trans he

/-- **`schedule` accepts exactly the acyclic netlists and completes every cell as early as possible.** -/
theorem schedule_optimal (hb : Built net) (hs : net.Shaped) :
    net.worked.q = [] ∧ (net.worked.done = net.cells.length ↔ Acyclic net) ∧
      (net.schedule.isSome ↔ Acyclic net) ∧
      (Acyclic net → ∃ net' last, net.schedule = some (net', last) ∧ IsSchedule net.cells net'.cells ∧
        IsLast net'.cells last ∧ ∀ other, IsSchedule net.cells other → ∀ i < net.cells.length,
          (cellOf net'.cells i).complete ≤ (cellOf other i).complete) := by
  obtain ⟨hraw, hclosed⟩ := hb.shape
  obtain ⟨hq, hdone⟩ := done_iff hb hs
  have hfirst : Acyclic net → ∃ cells last, net.schedule = some (⟨cells, net.calcAddr⟩, last) ∧
      Scheduled net.cells cells last := fun hac =>
    schedule_spec hs.shapeOk hraw hclosed (wellFounded_feeds hclosed hac)
  refine ⟨hq, hdone, ⟨fun hsome => ?_, fun hac => ?_⟩, fun hac => ?_⟩
  · refine hdone.1 ?_
    by_contra hne
    rw [schedule_eq hs.shapeOk, if_neg hne] at hsome
    cases hsome
  · obtain ⟨cells, last, he, -⟩ := hfirst hac
    rw [he]
    rfl
  · obtain ⟨cells, last, he, h⟩ := hfirst hac
    exact ⟨_, last, he, h.isSchedule hs.shapeOk, h.isLast, fun other ho i hi =>
      complete_le h hclosed (wellFounded_feeds hclosed hac) ho i hi⟩

end

theorem schedule_optimal_sample : ∃ net' last, sampleNet.schedule = some (net', last) ∧
    IsSchedule sampleNet.cells net'.cells ∧ IsLast net'.cells last ∧
    ∀ other, IsSchedule sampleNet.cells other → ∀ i < sampleNet.cells.length,
      (cellOf net'.cells i).complete ≤ (cellOf other i).complete := by
  refine (schedule_optimal sampleNet_built fun i hi => ?_).2.2.2 sampleNet_acyclic
  have h : ∀ i : Fin 4, (cellOf sampleNet.cells i).complete = 1 ↔ (cellOf sampleNet.cells i).ins = [] := by
    decide
  exact h ⟨i, hi⟩

end NandServer
