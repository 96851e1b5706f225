import HsqOverNand.Server.Proof.Build

/-!
# `schedule()`: the work list

* `SchedInv cells D s`: after the cells `D` have been popped, `pend` counts the wires whose source
  is not in `D`, the queue holds the cells with none left, and every popped cell is `scheduleCell` of
  the original one. It is kept by an iteration (`schedBody_inv`), so `cells.size()` iterations empty
  the queue (`schedLoop_q`).
* `schedule_spec`: on an acyclic netlist `schedule` succeeds with a fixpoint of `scheduleCell`
  (`Scheduled`), which is a valid schedule (`Scheduled.step_src`, `step_le`, `nodup_steps`).
-/

set_option autoImplicit false

namespace NandServer.Netlist

/-- `cells[i]` -/
def cellOf (cells : List Cell) (i : Nat) : Cell := cells.getD i default

/-- `pend[i]` -/
def pendAt (pend : List Int) (i : Nat) : Int := pend.getD i 0

theorem cellOf_eq {cells : List Cell} {i : Nat} {c : Cell} (h : cells[i]? = some c) :
    cellOf cells i = c := by
  simp [cellOf, List.getD_eq_getElem?_getD, h]

theorem getElem?_cellOf {cells : List Cell} {i : Nat} (h : i < cells.length) :
    cells[i]? = some (cellOf cells i) := by
  rw [cellOf_eq (List.getElem?_eq_getElem h)]
  exact List.getElem?_eq_getElem h

theorem cellOf_mem {cells : List Cell} {i : Nat} (h : i < cells.length) :
    cellOf cells i ∈ cells := by
  rw [cellOf_eq (List.getElem?_eq_getElem h)]
  exact List.getElem_mem h

theorem cellOf_default {cells : List Cell} {i : Nat} (h : cells.length ≤ i) :
    cellOf cells i = default := by
  simp [cellOf, List.getD_eq_getElem?_getD, h]

theorem cellOf_set {cells : List Cell} {i j : Nat} {c : Cell} (h : i < cells.length) :
    cellOf (cells.set i c) j = if i = j then c else cellOf cells j := by
  simp only [cellOf, List.getD_eq_getElem?_getD, List.getElem?_set, if_pos h]
  split <;> rfl

/-- Wires refer to cells of the netlist. -/
def Closed (cells : List Cell) : Prop := ∀ c ∈ cells, ∀ w ∈ c.ins, w.src.cell < cells.length

/-- `complete` as `input` and `cell` leave it. -/
def Raw (cells : List Cell) : Prop := ∀ c ∈ cells, c.complete = 1 ∨ c.complete = -1

/-- The wires of a cell, as literals. -/
def lits (ins : List Write) : List (AndNet.Lit Nat) := ins.map fun w => (w.src.cell, w.src.inv)

/-- The netlist as an AND network. -/
def toNet (cells : List Cell) : AndNet.Net Nat := fun i => lits (cellOf cells i).ins

theorem feeds_iff {cells : List Cell} {a b : Nat} :
    AndNet.Feeds (toNet cells) a b ↔ ∃ w ∈ (cellOf cells b).ins, w.src.cell = a := by
  simp [AndNet.Feeds, toNet, lits]

/-! ## `readers` -/

theorem count_readers_aux (c : Nat) : ∀ (cells : List Cell) (k i : Nat),
    (((cells.zipIdx k).flatMap fun p => (p.1.ins.filter fun w => w.src.cell = c).map fun _ =>
      p.2).count (k + i) = (cellOf cells i).ins.countP fun w => w.src.cell = c) ∧
    ∀ j < k, ((cells.zipIdx k).flatMap fun p => (p.1.ins.filter fun w => w.src.cell = c).map fun _ =>
      p.2).count j = 0
  | [], k, i => by simp [cellOf, default, instInhabitedCell.default]
  | cl :: cells, k, i => by
    rw [List.zipIdx_cons, List.flatMap_cons]
    simp only [List.count_append]
    have hself : ∀ j : Nat, (((cl.ins.filter fun w => w.src.cell = c).map fun _ => k).count j) =
        if j = k then cl.ins.countP fun w => w.src.cell = c else 0 := by
      intro j
      rw [List.map_const', List.count_replicate, List.countP_eq_length_filter]
      by_cases h : j = k
      · simp [h]
      · simp [h, Ne.symm h]
    constructor
    · rw [hself]
      match i with
      | 0 =>
        rw [Nat.add_zero, if_pos rfl, (count_readers_aux c cells (k + 1) 0).2 k (by omega)]
        rfl
      | i + 1 =>
        rw [if_neg (by omega), Nat.zero_add, show k + (i + 1) = k + 1 + i by omega,
          (count_readers_aux c cells (k + 1) i).1]
        rfl
    · intro j hj
      rw [hself, if_neg (by omega), (count_readers_aux c cells (k + 1) 0).2 j (by omega)]

/-- A cell is in `readers[c]` once per wire from `c`. -/
theorem count_readers (cells : List Cell) (c i : Nat) :
    (readers cells c).count i = (cellOf cells i).ins.countP fun w => w.src.cell = c := by
  have := (count_readers_aux c cells 0 i).1
  rwa [Nat.zero_add] at this

theorem readers_lt {cells : List Cell} {c i : Nat} (h : i ∈ readers cells c) :
    i < cells.length := by
  simp only [readers, List.mem_flatMap, List.mem_map] at h
  obtain ⟨p, hp, w, -, rfl⟩ := h
  exact (List.getElem?_eq_some_iff.1 (List.mem_zipIdx_iff_getElem?.1 hp)).1

/-! ## `notify` -/

theorem pendAt_modify {pend : List Int} {r : Nat} (hr : r < pend.length) (i : Nat) :
    pendAt (pend.modify r (· - 1)) i = if r = i then pendAt pend i - 1 else pendAt pend i := by
  simp only [pendAt, List.getD_eq_getElem?_getD, List.getElem?_modify]
  split
  · rename_i h
    subst h
    simp [hr]
  · simp

/-- The pending counts drop by the number of occurrences; the cells that reach 0 are queued once. -/
theorem notify_spec : ∀ (L : List Nat) (pend : List Int) (q : List Nat),
    (∀ i ∈ L, i < pend.length) → (∀ i ∈ L, (L.count i : Int) ≤ pendAt pend i) →
    ∃ new, (notify L (pend, q)).2 = q ++ new ∧ new.Nodup ∧
      (notify L (pend, q)).1.length = pend.length ∧
      (∀ i, pendAt (notify L (pend, q)).1 i = pendAt pend i - L.count i) ∧
      ∀ i, i ∈ new ↔ i ∈ L ∧ pendAt pend i = L.count i
  | [], pend, q, _, _ => ⟨[], by simp [notify]⟩
  | r :: L, pend, q, hlt, hle => by
    have hr : r < pend.length := hlt r (.head _)
    have hmod := pendAt_modify hr
    -- the counts of the rest after the decrement
    have hcount : ∀ i, pendAt pend i - (r :: L).count i =
        pendAt (pend.modify r (· - 1)) i - L.count i := by
      intro i
      rw [hmod, List.count_cons]
      by_cases hri : r = i
      · subst hri
        simp only [beq_self_eq_true, if_true]
        omega
      · simp [hri]
    have hle' : ∀ i ∈ L, (L.count i : Int) ≤ pendAt (pend.modify r (· - 1)) i := by
      intro i hi
      have h := hle i (.tail _ hi)
      have := hcount i
      omega
    have hrc := hle r (.head _)
    rw [List.count_cons_self] at hrc
    have h0 : pendAt (pend.modify r (· - 1)) r = pendAt pend r - 1 := by rw [hmod, if_pos rfl]
    obtain ⟨new, h1, h2, h3, h4, h5⟩ := notify_spec L (pend.modify r (· - 1))
      (if pendAt (pend.modify r (· - 1)) r = 0 then q ++ [r] else q)
      (fun i hi => by rw [List.length_modify]; exact hlt i (.tail _ hi)) hle'
    refine ⟨if pendAt (pend.modify r (· - 1)) r = 0 then r :: new else new, ?_, ?_,
      h3.trans (List.length_modify ..), fun i => by rw [hcount]; exact h4 i, fun i => ?_⟩
    · refine h1.trans ?_
      split
      · rw [List.append_assoc, List.singleton_append]
      · rfl
    · split
      · refine List.nodup_cons.2 ⟨fun hmem => ?_, h2⟩
        have hc := List.count_pos_iff.2 ((h5 r).1 hmem).1
        omega
      · exact h2
    · have hmem : i ∈ (if pendAt (pend.modify r (· - 1)) r = 0 then r :: new else new) ↔
          (i = r ∧ pendAt pend r = 1) ∨ i ∈ new := by
        split
        · rw [List.mem_cons, and_iff_left (by omega)]
        · rw [or_iff_right (fun h => absurd h.2 (by omega))]
      rw [hmem, h5, List.mem_cons]
      have hc := hcount i
      constructor
      · rintro (⟨rfl, h⟩ | ⟨hm, h⟩)
        · refine ⟨.inl rfl, ?_⟩
          rw [List.count_cons_self]
          omega
        · exact ⟨.inr hm, by omega⟩
      · rintro ⟨rfl | hm, h⟩
        · by_cases hL : i ∈ L
          · exact .inr ⟨hL, by omega⟩
          · rw [List.count_cons_self, List.count_eq_zero_of_not_mem hL] at h
            exact .inl ⟨rfl, by omega⟩
        · exact .inr ⟨hm, by omega⟩

/-! ## The steps of one cell -/

section
variable {f : Write → Int}

theorem assignSteps_src : ∀ (ws : List Write) (t : Int),
    (assignSteps f t ws).1.map (·.src) = ws.map (·.src)
  | [], _ => rfl
  | w :: ws, t => by simp [assignSteps, assignSteps_src ws]

theorem le_assignSteps : ∀ (ws : List Write) (t : Int), t + ws.length ≤ (assignSteps f t ws).2
  | [], t => by simp [assignSteps]
  | w :: ws, t => by
    have h := le_assignSteps ws (max (f w) t + 1)
    simp only [assignSteps, List.length_cons]
    omega

/-- Steps lie after `t`, after the source's completion, and up to the returned step. -/
theorem assignSteps_bounds (hf : ∀ w t, f { w with step := t } = f w) : ∀ (ws : List Write) (t : Int),
    ∀ w ∈ (assignSteps f t ws).1, t < w.step ∧ f w < w.step ∧ w.step ≤ (assignSteps f t ws).2
  | [], _ => by simp [assignSteps]
  | w :: ws, t => by
    intro x hx
    rcases List.mem_cons.1 hx with rfl | hx
    · have h := le_assignSteps (f := f) ws (max (f w) t + 1)
      simp only [assignSteps, hf]
      omega
    · obtain ⟨h1, h2, h3⟩ := assignSteps_bounds hf ws _ x hx
      exact ⟨by omega, h2, h3⟩

theorem assignSteps_pairwise (hf : ∀ w t, f { w with step := t } = f w) : ∀ (ws : List Write)
    (t : Int), ((assignSteps f t ws).1.map (·.step)).Pairwise (· < ·)
  | [], _ => .nil
  | w :: ws, t => by
    refine List.pairwise_cons.2 ⟨fun s hs => ?_, assignSteps_pairwise hf ws _⟩
    obtain ⟨x, hx, rfl⟩ := List.mem_map.1 hs
    exact (assignSteps_bounds hf ws _ x hx).1

/-- The returned step is the last write's. -/
theorem assignSteps_last : ∀ (ws : List Write) (t : Int), ws ≠ [] →
    ∃ w ∈ (assignSteps f t ws).1, w.step = (assignSteps f t ws).2
  | [w], t, _ => ⟨_, .head _, rfl⟩
  | w :: w' :: ws, t, _ => by
    obtain ⟨x, hx, h⟩ := assignSteps_last (w' :: ws) (max (f w) t + 1) (by simp)
    exact ⟨x, .tail _ hx, h⟩

theorem assignSteps_le {m : Int} : ∀ (ws : List Write) (t : Int), t ≤ m → (∀ w ∈ ws, f w ≤ m) →
    (assignSteps f t ws).2 ≤ m + ws.length
  | [], t, ht, _ => by simpa [assignSteps] using ht
  | w :: ws, t, ht, hw => by
    have h := assignSteps_le (m := m + 1) ws (max (f w) t + 1)
      (by have := hw w (.head _); omega) (fun x hx => by have := hw x (.tail _ hx); omega)
    simp only [assignSteps, List.length_cons]
    omega

theorem assignSteps_congr {g : Write → Int} : ∀ (ws : List Write) (t : Int), (∀ w ∈ ws, f w = g w) →
    assignSteps f t ws = assignSteps g t ws
  | [], _, _ => rfl
  | w :: ws, t, h => by
    simp only [assignSteps, h w (.head _), assignSteps_congr ws _ fun x hx => h x (.tail _ hx)]

end

/-- The writes of a cell in the order `schedule` visits them. -/
def sortedIns (cells : List Cell) (c : Cell) : List Write :=
  c.ins.mergeSort fun l r => decide (srcComplete cells l ≤ srcComplete cells r)

theorem sortedIns_perm (cells : List Cell) (c : Cell) : (sortedIns cells c).Perm c.ins :=
  List.mergeSort_perm _ _

theorem srcComplete_step (cells : List Cell) (w : Write) (t : Int) :
    srcComplete cells { w with step := t } = srcComplete cells w := rfl

/-- `scheduleCell` reads the completions of the cell's sources only. -/
theorem scheduleCell_congr {cells cells' : List Cell} {c : Cell}
    (h : ∀ w ∈ c.ins, srcComplete cells w = srcComplete cells' w) :
    scheduleCell cells c = scheduleCell cells' c := by
  have hs : sortedIns cells c = sortedIns cells' c := by
    have := List.map_mergeSort (f := id) (l := c.ins)
      (r := fun l r => decide (srcComplete cells l ≤ srcComplete cells r))
      (s := fun l r => decide (srcComplete cells' l ≤ srcComplete cells' r))
      fun a ha b hb => by simp [h a ha, h b hb]
    simpa [sortedIns] using this
  have ha := assignSteps_congr (f := srcComplete cells) (g := srcComplete cells')
    (sortedIns cells' c) 1 fun w hw => h w ((sortedIns_perm cells' c).mem_iff.1 hw)
  unfold sortedIns at hs ha
  simp only [scheduleCell, hs, ha]

section
variable (cells : List Cell) (c : Cell)

theorem scheduleCell_eq : scheduleCell cells c =
    { c with
      ins := (assignSteps (srcComplete cells) 1 (sortedIns cells c)).1
      complete := (assignSteps (srcComplete cells) 1 (sortedIns cells c)).2 } := rfl

theorem scheduleCell_src : ((scheduleCell cells c).ins.map (·.src)).Perm (c.ins.map (·.src)) := by
  rw [scheduleCell_eq, assignSteps_src]
  exact (sortedIns_perm cells c).map _

theorem scheduleCell_steps : ∀ w ∈ (scheduleCell cells c).ins, 2 ≤ w.step ∧
    srcComplete cells w < w.step ∧ w.step ≤ (scheduleCell cells c).complete := by
  intro w hw
  obtain ⟨h1, h2, h3⟩ := assignSteps_bounds (srcComplete_step cells) _ _ w hw
  exact ⟨by omega, h2, h3⟩

theorem scheduleCell_nodup : ((scheduleCell cells c).ins.map (·.step)).Nodup :=
  (assignSteps_pairwise (srcComplete_step cells) (sortedIns cells c) 1).imp fun h => by omega

theorem scheduleCell_complete_ge : 1 + (c.ins.length : Int) ≤ (scheduleCell cells c).complete := by
  rw [← (sortedIns_perm cells c).length_eq]
  exact le_assignSteps _ 1

theorem scheduleCell_complete_le {m : Int} (h1 : 1 ≤ m)
    (h : ∀ w ∈ c.ins, srcComplete cells w ≤ m) :
    (scheduleCell cells c).complete ≤ m + c.ins.length := by
  rw [← (sortedIns_perm cells c).length_eq]
  exact assignSteps_le _ 1 h1 fun w hw => h w ((sortedIns_perm cells c).mem_iff.1 hw)

theorem scheduleCell_last (hne : c.ins ≠ []) :
    ∃ w ∈ (scheduleCell cells c).ins, w.step = (scheduleCell cells c).complete :=
  assignSteps_last _ _ fun h => hne (by
    have := (sortedIns_perm cells c).length_eq
    rw [sortedIns, h] at this
    exact List.eq_nil_of_length_eq_zero this.symm)

end

/-! ## The loop invariant -/

/-- How an original cell and its scheduled version relate: an input stays, any other cell is
`scheduleCell` of its sources' completions. -/
def Settled (cells0 cells : List Cell) (i : Nat) : Prop :=
  ((cellOf cells0 i).complete = 1 ∧ cellOf cells i = cellOf cells0 i) ∨
    ((cellOf cells0 i).complete = -1 ∧ cellOf cells i = scheduleCell cells (cellOf cells0 i))

/-- The cells `D` have been popped from the queue. -/
structure SchedInv (cells : List Cell) (D : List Nat) (s : SchedState) : Prop where
  len : s.cells.length = cells.length
  plen : s.pend.length = cells.length
  nodup : (D ++ s.q).Nodup
  range : ∀ i ∈ D ++ s.q, i < cells.length
  pend : ∀ i, pendAt s.pend i = (cellOf cells i).ins.countP fun w => decide (w.src.cell ∉ D)
  ready : ∀ i < cells.length, i ∈ D ++ s.q ↔ pendAt s.pend i = 0
  fresh : ∀ i, i ∉ D → cellOf s.cells i = cellOf cells i
  settled : ∀ i ∈ D, Settled cells s.cells i
  srcs : ∀ i ∈ D, ∀ w ∈ (cellOf cells i).ins, w.src.cell ∈ D
  done : s.done = D.length
  one_le : 1 ≤ s.maxStep
  le_last : ∀ i ∈ D, (cellOf s.cells i).complete ≤ s.maxStep
  last : s.maxStep = 1 ∨ ∃ i ∈ D, (cellOf s.cells i).complete = s.maxStep
  bound : ∀ fan : Nat, (∀ c ∈ cells, c.ins.length ≤ fan) → s.maxStep ≤ 1 + fan * D.length

theorem shapeOk_iff {cells : List Cell} : shapeOk cells = true ↔
    ∀ c ∈ cells, if c.complete = 1 then c.ins = [] else c.ins ≠ [] := by
  simp only [shapeOk, List.all_eq_true]
  refine forall₂_congr fun c _ => ?_
  split <;> simp

theorem shape_of_mem {cells : List Cell} (hs : shapeOk cells = true) {i : Nat} :
    (cellOf cells i).complete = 1 → (cellOf cells i).ins = [] := by
  intro h1
  by_cases hi : i < cells.length
  · have := shapeOk_iff.1 hs _ (cellOf_mem hi)
    rwa [if_pos h1] at this
  · rw [cellOf_default (by omega)]
    rfl

theorem raw_cases {cells : List Cell} (hr : Raw cells) {i : Nat} (hi : i < cells.length) :
    (cellOf cells i).complete = 1 ∨ (cellOf cells i).complete = -1 := hr _ (cellOf_mem hi)

theorem schedInit_inv {cells : List Cell} (hs : shapeOk cells = true) :
    SchedInv cells [] (schedInit cells) := by
  have hq : ∀ i, i ∈ (schedInit cells).q ↔ i < cells.length ∧ (cellOf cells i).complete = 1 := by
    intro i
    simp only [schedInit, List.mem_map, List.mem_filter, decide_eq_true_eq]
    constructor
    · rintro ⟨p, ⟨hp, h1⟩, rfl⟩
      have hp := List.mem_zipIdx_iff_getElem?.1 hp
      exact ⟨(List.getElem?_eq_some_iff.1 hp).1, by rwa [cellOf_eq hp]⟩
    · rintro ⟨hi, h1⟩
      refine ⟨(cells[i], i), ⟨List.mem_zipIdx_iff_getElem?.2 (List.getElem?_eq_getElem hi), ?_⟩, rfl⟩
      rwa [← cellOf_eq (List.getElem?_eq_getElem hi)]
  have hp : ∀ i, pendAt (schedInit cells).pend i = (cellOf cells i).ins.length := by
    intro i
    by_cases hi : i < cells.length
    · simp [schedInit, pendAt, cellOf, List.getD_eq_getElem?_getD, hi]
    · rw [cellOf_default (by omega)]
      simp [schedInit, pendAt, List.getD_eq_getElem?_getD, show cells.length ≤ i by omega, default,
        instInhabitedCell.default]
  refine { len := rfl, plen := by simp [schedInit], nodup := ?_, range := ?_, pend := ?_, ready := ?_,
           fresh := fun _ _ => rfl, settled := by simp, srcs := by simp, done := rfl,
           one_le := le_refl _, le_last := by simp, last := .inl rfl, bound := ?_ }
  · have h : (cells.zipIdx.map (·.2)).Nodup := by
      rw [List.zipIdx_map_snd]
      exact List.nodup_range'
    exact h.sublist (List.filter_sublist.map _)
  · exact fun i hi => ((hq i).1 hi).1
  · intro i
    rw [hp, List.countP_eq_length.2 fun _ _ => by simp]
  · intro i hi
    rw [List.nil_append, hq, hp]
    have hsh := shapeOk_iff.1 hs _ (cellOf_mem hi)
    constructor
    · rintro ⟨-, h1⟩
      rw [if_pos h1] at hsh
      simp [hsh]
    · intro h0
      refine ⟨hi, ?_⟩
      by_contra h1
      rw [if_neg h1] at hsh
      exact hsh (List.eq_nil_of_length_eq_zero (by omega))
  · intro fan _
    simp [schedInit]

theorem countP_not_mem {D : List Nat} {c : Nat} (hc : c ∉ D) (ins : List Write) :
    (ins.countP fun w => decide (w.src.cell ∉ D)) =
      (ins.countP fun w => decide (w.src.cell ∉ D ++ [c])) +
        ins.countP fun w => decide (w.src.cell = c) := by
  induction ins with
  | nil => rfl
  | cons w ins ih =>
    simp only [List.countP_cons, ih, List.mem_append, List.mem_singleton, decide_eq_true_eq]
    by_cases hw : w.src.cell = c
    · subst hw
      simp [hc]
      omega
    · by_cases hD : w.src.cell ∈ D <;> simp [hw, hD]
      omega

section
variable {cells : List Cell} {D : List Nat} {s : SchedState} {c : Nat} {q : List Nat}

/-- The cell at the head of the queue: it is new and all its sources are done. -/
structure Head (cells : List Cell) (D : List Nat) (s : SchedState) (c : Nat) : Prop where
  new : c ∉ D
  lt : c < cells.length
  srcs : ∀ w ∈ (cellOf cells c).ins, w.src.cell ∈ D
  fresh : cellOf s.cells c = cellOf cells c

theorem SchedInv.head (h : SchedInv cells D s) (hq : s.q = c :: q) : Head cells D s c := by
  have hnd : (D ++ c :: q).Nodup := hq ▸ h.nodup
  have hcD : c ∉ D := fun hm => (List.nodup_append.1 hnd).2.2 c hm c (.head _) rfl
  have hcn : c < cells.length := h.range c (by simp [hq])
  have hc0 : pendAt s.pend c = 0 := (h.ready c hcn).1 (by simp [hq])
  refine ⟨hcD, hcn, ?_, h.fresh c hcD⟩
  rw [h.pend] at hc0
  intro w hw
  by_contra hn
  exact List.countP_eq_zero.1 (by exact_mod_cast hc0) w hw (by simpa using hn)

variable (h : SchedInv cells D s) (hd : Head cells D s c)
include h hd

/-- Only the head's cell changes. -/
theorem schedBody_cells (j : Nat) : cellOf (schedBody (readers cells) s c q).cells j = if c = j then
    (if (cellOf cells c).complete < 0 then scheduleCell s.cells (cellOf cells c) else cellOf cells c)
    else cellOf s.cells j := by
  rw [← hd.fresh]
  exact cellOf_set (by rw [h.len]; exact hd.lt)

theorem schedBody_same {j : Nat} (hj : j ≠ c) :
    cellOf (schedBody (readers cells) s c q).cells j = cellOf s.cells j := by
  rw [schedBody_cells h hd, if_neg (Ne.symm hj)]

theorem schedBody_srcComplete {w : Write} (hw : w.src.cell ∈ D) :
    srcComplete s.cells w = srcComplete (schedBody (readers cells) s c q).cells w :=
  congrArg Cell.complete (schedBody_same h hd fun he => hd.new (he ▸ hw)).symm

variable (hr : Raw cells)
include hr

theorem schedBody_settled {i : Nat} (hi : i ∈ D ++ [c]) :
    Settled cells (schedBody (readers cells) s c q).cells i := by
  rcases List.mem_append.1 hi with hi | hi
  · have hsame := schedBody_same h hd (q := q) fun he => hd.new (he ▸ hi)
    rcases h.settled i hi with ⟨h1, h2⟩ | ⟨h1, h2⟩
    · exact .inl ⟨h1, hsame.trans h2⟩
    · refine .inr ⟨h1, (hsame.trans h2).trans ?_⟩
      exact scheduleCell_congr fun w hw => schedBody_srcComplete h hd (h.srcs i hi w hw)
  · rw [List.mem_singleton.1 hi]
    rcases raw_cases hr hd.lt with h1 | h1
    · refine .inl ⟨h1, ?_⟩
      rw [schedBody_cells h hd, if_pos rfl, if_neg (by omega)]
    · refine .inr ⟨h1, ?_⟩
      rw [schedBody_cells h hd, if_pos rfl, if_pos (by omega)]
      exact scheduleCell_congr fun w hw => schedBody_srcComplete h hd (hd.srcs w hw)

theorem schedBody_maxStep : (schedBody (readers cells) s c q).maxStep =
    max s.maxStep (cellOf (schedBody (readers cells) s c q).cells c).complete := by
  have hm : (schedBody (readers cells) s c q).maxStep = if (cellOf s.cells c).complete < 0 then
      max s.maxStep (if (cellOf s.cells c).complete < 0 then scheduleCell s.cells (cellOf s.cells c)
        else cellOf s.cells c).complete else s.maxStep := rfl
  have h1 := h.one_le
  rw [hm, schedBody_cells h hd, if_pos rfl, hd.fresh]
  split
  · rfl
  · have := raw_cases hr hd.lt
    omega

theorem schedBody_complete_le {fan : Nat} (hfan : (cellOf cells c).ins.length ≤ fan) :
    (cellOf (schedBody (readers cells) s c q).cells c).complete ≤ s.maxStep + fan := by
  have h1 := h.one_le
  rw [schedBody_cells h hd, if_pos rfl]
  split
  · have := scheduleCell_complete_le s.cells (cellOf cells c) h1
      fun w hw => h.le_last _ (hd.srcs w hw)
    omega
  · have := raw_cases hr hd.lt
    omega

omit h hr in
/-- The wires from the head are no longer pending. -/
theorem SchedInv.pend_split (h : SchedInv cells D s) (i : Nat) :
    pendAt s.pend i = ((cellOf cells i).ins.countP fun w => decide (w.src.cell ∉ D ++ [c]) : Nat) +
      ((readers cells c).count i : Int) := by
  rw [h.pend, countP_not_mem hd.new, count_readers]
  push_cast
  rfl

end

/-- One iteration of the `while` loop keeps the invariant. -/
theorem schedBody_inv {cells : List Cell} (hr : Raw cells) {D : List Nat} {s : SchedState} {c : Nat}
    {q : List Nat} (h : SchedInv cells D s) (hq : s.q = c :: q) :
    SchedInv cells (D ++ [c]) (schedBody (readers cells) s c q) := by
  have hd := h.head hq
  have hpend := h.pend_split hd
  have hlast := schedBody_maxStep h hd hr (q := q)
  obtain ⟨new, hn1, hn2, hn3, hn4, hn5⟩ := notify_spec (readers cells c) s.pend q
    (fun i hi => by rw [h.plen]; exact readers_lt hi) (fun i _ => by rw [hpend i]; omega)
  have hq' : (schedBody (readers cells) s c q).q = q ++ new := hn1
  have happ : D ++ [c] ++ (q ++ new) = D ++ c :: q ++ new := by simp
  refine { len := (List.length_set ..).trans h.len, plen := hn3.trans h.plen, nodup := ?_, range := ?_,
           pend := fun i => ?_, ready := ?_, fresh := ?_,
           settled := fun i hi => schedBody_settled h hd hr hi, srcs := ?_, done := ?_,
           one_le := ?_, le_last := ?_, last := ?_, bound := ?_ }
  · rw [hq', happ, List.nodup_append]
    refine ⟨hq ▸ h.nodup, hn2, fun a ha b hb he => ?_⟩
    have h0 := (h.ready a (h.range a (hq ▸ ha))).1 (hq ▸ ha)
    have hb' := (hn5 b).1 hb
    have := List.count_pos_iff.2 hb'.1
    rw [he] at h0
    omega
  · intro i hi
    rw [hq', happ] at hi
    rcases List.mem_append.1 hi with hi | hi
    · exact h.range i (hq ▸ hi)
    · exact readers_lt ((hn5 i).1 hi).1
  · refine (hn4 i).trans ?_
    rw [hpend i]
    omega
  · intro i hi
    rw [hq', happ, List.mem_append, show pendAt (schedBody (readers cells) s c q).pend i = _ from
      hn4 i, hn5]
    have hold := h.ready i hi
    rw [hq] at hold
    rw [hold]
    have hp := hpend i
    have hcnt : i ∈ readers cells c ↔ 0 < (readers cells c).count i := List.count_pos_iff.symm
    rw [hcnt]
    omega
  · intro i hi
    rw [schedBody_same h hd fun he => hi (by simp [he])]
    exact h.fresh i fun hm => hi (List.mem_append_left _ hm)
  · intro i hi w hw
    rcases List.mem_append.1 hi with hi | hi
    · exact List.mem_append_left _ (h.srcs i hi w hw)
    · rw [List.mem_singleton.1 hi] at hw
      exact List.mem_append_left _ (hd.srcs w hw)
  · show s.done + 1 = _
    rw [h.done, List.length_append, List.length_singleton]
  · rw [hlast]
    have := h.one_le
    omega
  · intro i hi
    rw [hlast]
    rcases List.mem_append.1 hi with hi | hi
    · rw [schedBody_same h hd fun he => hd.new (he ▸ hi)]
      have := h.le_last i hi
      omega
    · rw [List.mem_singleton.1 hi]
      omega
  · rw [hlast]
    rcases le_total (cellOf (schedBody (readers cells) s c q).cells c).complete s.maxStep with hle | hle
    · rw [max_eq_left hle]
      refine h.last.imp id fun ⟨i, hi, he⟩ => ⟨i, List.mem_append_left _ hi, ?_⟩
      rw [schedBody_same h hd fun he => hd.new (he ▸ hi), he]
    · rw [max_eq_right hle]
      exact .inr ⟨c, by simp, rfl⟩
  · intro fan hfan
    have hb := h.bound fan hfan
    have hcc := schedBody_complete_le h hd hr (q := q) (hfan _ (cellOf_mem hd.lt))
    rw [hlast, List.length_append, List.length_singleton]
    push_cast
    rw [Int.mul_add]
    omega

theorem SchedInv.length_le {cells : List Cell} {D : List Nat} {s : SchedState}
    (h : SchedInv cells D s) : D.length + s.q.length ≤ cells.length := by
  have hsub : D ++ s.q ⊆ List.range cells.length := fun i hi => List.mem_range.2 (h.range i hi)
  simpa using (List.subperm_of_subset h.nodup hsub).length_le

/-- The `while` loop keeps the invariant, and `cells.size()` iterations empty the queue. -/
theorem schedLoop_inv {cells : List Cell} (hr : Raw cells) : ∀ (fuel : Nat) (D : List Nat)
    (s : SchedState), SchedInv cells D s → ∃ D', SchedInv cells D' (schedLoop (readers cells) fuel s) ∧
      (cells.length ≤ D.length + fuel → (schedLoop (readers cells) fuel s).q = [])
  | 0, D, s, h => ⟨D, h, fun hle => List.eq_nil_of_length_eq_zero (by
      have := h.length_le
      show s.q.length = 0
      omega)⟩
  | fuel + 1, D, s, h => by
    rw [schedLoop]
    split
    · rename_i hq
      exact ⟨D, h, fun _ => hq⟩
    · rename_i c q hq
      obtain ⟨D', h', hq'⟩ := schedLoop_inv hr fuel (D ++ [c]) _ (schedBody_inv hr h hq)
      refine ⟨D', h', fun hle => hq' ?_⟩
      simp only [List.length_append, List.length_singleton]
      omega

/-- The queue is empty after `cells.size()` iterations: the work list terminates. -/
theorem schedLoop_q {cells : List Cell} (hs : shapeOk cells = true) (hr : Raw cells) :
    ∃ D, SchedInv cells D (schedLoop (readers cells) cells.length (schedInit cells)) ∧
      (schedLoop (readers cells) cells.length (schedInit cells)).q = [] := by
  obtain ⟨D, h, hq⟩ := schedLoop_inv hr cells.length [] _ (schedInit_inv hs)
  exact ⟨D, h, hq (by simp)⟩

/-- With an empty queue exactly the cells all of whose sources were popped have been popped. -/
theorem SchedInv.mem_iff {cells : List Cell} {D : List Nat} {s : SchedState}
    (h : SchedInv cells D s) (hq : s.q = []) {i : Nat} (hi : i < cells.length) :
    i ∈ D ↔ ∀ w ∈ (cellOf cells i).ins, w.src.cell ∈ D := by
  have hready := h.ready i hi
  rw [hq, List.append_nil, h.pend] at hready
  rw [hready, Int.natCast_eq_zero, List.countP_eq_zero]
  simp

/-! ## The schedule -/

/-- The result of `schedule`. -/
structure Scheduled (cells0 cells : List Cell) (last : Int) : Prop where
  len : cells.length = cells0.length
  settled : ∀ i < cells0.length, Settled cells0 cells i
  one_le : 1 ≤ last
  le_last : ∀ i < cells0.length, (cellOf cells i).complete ≤ last
  last_eq : last = 1 ∨ ∃ i < cells0.length, (cellOf cells i).complete = last
  bound : ∀ fan : Nat, (∀ c ∈ cells0, c.ins.length ≤ fan) → last ≤ 1 + fan * cells0.length

/-- `done == n` means that every cell was popped. -/
theorem SchedInv.scheduled {cells : List Cell} {D : List Nat} {s : SchedState}
    (h : SchedInv cells D s) (hall : ∀ i < cells.length, i ∈ D) : Scheduled cells s.cells s.maxStep := by
  have hD : D.length ≤ cells.length := by have := h.length_le; omega
  refine { len := h.len, settled := fun i hi => h.settled i (hall i hi), one_le := h.one_le,
           le_last := fun i hi => h.le_last i (hall i hi), last_eq := ?_, bound := ?_ }
  · exact h.last.imp id fun ⟨i, hi, he⟩ => ⟨i, h.range i (List.mem_append_left _ hi), he⟩
  · intro fan hfan
    have := h.bound fan hfan
    have hm : (fan : Int) * D.length ≤ fan * cells.length := by exact_mod_cast Nat.mul_le_mul_left fan hD
    omega

/-- On an acyclic netlist `schedule` passes its `assert`s. -/
theorem schedule_spec {cells : List Cell} {a : Nat} (hs : shapeOk cells = true) (hr : Raw cells)
    (hc : Closed cells) (hwf : WellFounded (AndNet.Feeds (toNet cells))) :
    ∃ cells' last, schedule ⟨cells, a⟩ = some (⟨cells', a⟩, last) ∧ Scheduled cells cells' last := by
  obtain ⟨D, h, hq⟩ := schedLoop_q hs hr
  have hall : ∀ i, i < cells.length → i ∈ D := by
    intro i
    induction i using hwf.induction with
    | _ i ih =>
      intro hi
      exact (h.mem_iff hq hi).2 fun w hw =>
        ih w.src.cell (feeds_iff.2 ⟨w, hw, rfl⟩) (hc _ (cellOf_mem hi) w hw)
  have hdone : D.length = cells.length := by
    have h1 := h.length_le
    have hsub : List.range cells.length ⊆ D := fun i hi => hall i (List.mem_range.1 hi)
    have h2 := (List.subperm_of_subset List.nodup_range hsub).length_le
    rw [List.length_range] at h2
    omega
  refine ⟨_, _, ?_, h.scheduled hall⟩
  simp only [schedule, hs, if_true, h.done, hdone]

section
variable {cells0 cells : List Cell} {last : Int} (h : Scheduled cells0 cells last)
include h

theorem Scheduled.settled' (i : Nat) : Settled cells0 cells i ∨
    (cells0.length ≤ i ∧ cellOf cells0 i = default ∧ cellOf cells i = default) := by
  rcases Nat.lt_or_ge i cells0.length with hi | hi
  · exact .inl (h.settled i hi)
  · exact .inr ⟨hi, cellOf_default hi, cellOf_default (h.len ▸ hi)⟩

theorem Scheduled.addr (i : Nat) : (cellOf cells i).addr = (cellOf cells0 i).addr := by
  rcases h.settled' i with (⟨-, h2⟩ | ⟨-, h2⟩) | ⟨-, h1, h2⟩
  · rw [h2]
  · rw [h2, scheduleCell_eq]
  · rw [h1, h2]

/-- Scheduling permutes the wires of a cell. -/
theorem Scheduled.src_perm (i : Nat) :
    ((cellOf cells i).ins.map (·.src)).Perm ((cellOf cells0 i).ins.map (·.src)) := by
  rcases h.settled' i with (⟨-, h2⟩ | ⟨-, h2⟩) | ⟨-, h1, h2⟩
  · rw [h2]
  · rw [h2]
    exact scheduleCell_src _ _
  · rw [h1, h2]

theorem Scheduled.lits_perm (i : Nat) : (lits (cellOf cells i).ins).Perm (toNet cells0 i) := by
  have := (h.src_perm i).map fun s : Sig => ((s.cell, s.inv) : AndNet.Lit Nat)
  rwa [List.map_map, List.map_map] at this

theorem Scheduled.complete_input {i : Nat} (hi : (cellOf cells0 i).complete = 1) :
    (cellOf cells i).complete = 1 := by
  rcases h.settled' i with (⟨-, h2⟩ | ⟨h1, -⟩) | ⟨-, h1, -⟩
  · rw [h2, hi]
  · omega
  · rw [h1] at hi
    exact absurd hi (by decide)

variable (hs : shapeOk cells0 = true)
include hs

/-- Writes happen after their sources are final, up to the cell's completion. -/
theorem Scheduled.steps {i : Nat} : ∀ w ∈ (cellOf cells i).ins, 2 ≤ w.step ∧
    (cellOf cells w.src.cell).complete < w.step ∧ w.step ≤ (cellOf cells i).complete := by
  rcases h.settled' i with (⟨h1, h2⟩ | ⟨-, h2⟩) | ⟨-, -, h2⟩
  · rw [h2, shape_of_mem hs h1]
    simp
  · rw [h2]
    exact scheduleCell_steps _ _
  · rw [h2]
    simp [default, instInhabitedCell.default]

/-- The writes to one cell have distinct steps. -/
theorem Scheduled.nodup_steps (i : Nat) : ((cellOf cells i).ins.map (·.step)).Nodup := by
  rcases h.settled' i with (⟨h1, h2⟩ | ⟨-, h2⟩) | ⟨-, -, h2⟩
  · rw [h2, shape_of_mem hs h1]
    exact .nil
  · rw [h2]
    exact scheduleCell_nodup _ _
  · rw [h2]
    exact .nil

theorem Scheduled.step_le {i : Nat} (hi : i < cells0.length) :
    ∀ w ∈ (cellOf cells i).ins, w.step ≤ last := fun w hw =>
  (h.steps hs w hw).2.2.trans (h.le_last i hi)

end

end NandServer.Netlist
