import HsqOverNand.Lib.Lookahead
import HsqOverNand.Server.Proof.Build

/-!
# One lane of the round is a subtractor

`claBorrow_emits`: the look-ahead terms are the borrow chain, for signals of any polarity.
`laneBorrow_emits`: the three levels feed every group the flat chain's borrow.
`buildLane_emits`: the sum signals are the bits of the difference, `isJmp` its sign test.
-/

set_option autoImplicit false

namespace NandServer.Netlist

open Lookahead

variable {base fan : Nat}

theorem any_of_forall₂ {α β : Type} {p : α → Bool} {q : β → Bool} {as : List α} {bs : List β}
    (h : List.Forall₂ (fun b a => p a = q b) bs as) : as.any p = bs.any q := by
  induction h with
  | nil => rfl
  | cons h _ ih => rw [List.any_cons, List.any_cons, h, ih]

theorem all_of_forall₂ {α β : Type} {p : α → Bool} {q : β → Bool} {as : List α} {bs : List β}
    (h : List.Forall₂ (fun b a => p a = q b) bs as) : as.all p = bs.all q := by
  induction h with
  | nil => rfl
  | cons h _ ih => rw [List.all_cons, List.all_cons, h, ih]

/-- A product of signals. -/
theorem product_emits {net : Netlist} {P : Nat → Sig} {p : Nat → (Nat → Bool) → Bool} {s : Sig}
    {f : (Nat → Bool) → Bool} {l : List Nat} (hg : Good base fan net) (hfan : l.length + 1 ≤ fan)
    (hP : ∀ m ∈ l, Den net (P m) (p m)) (hs : Den net s f) :
    Emits base fan (andOf (l.map P ++ [s])) (andCost (l.length + 1)) net
      (fun t net' => Den net' t fun v => (l.all fun m => p m v) && f v) := by
  have hc : andCost (l.length + 1) = andCost (l.map P ++ [s]).length := by simp
  rw [hc]
  refine (andOf_emits hg (by simp) (by simpa using hfan) ?_).mono fun t net' hp h =>
    h.congr fun v hv => ?_
  · intro x hx
    rcases List.mem_append.1 hx with hx | hx
    · obtain ⟨m, hm, rfl⟩ := List.mem_map.1 hx
      exact (hP m hm).1
    · rw [List.mem_singleton.1 hx]
      exact hs.1
  · have hms : (l.map P).all (·.val v) = l.all fun m => p m v := by
      rw [List.all_map, Bool.eq_iff_iff, List.all_eq_true, List.all_eq_true]
      exact forall₂_congr fun m hm => by rw [Function.comp, (hP m hm).2 v (hv.restrict hp)]
    rw [List.all_append, hms]
    simp [hs.2 v (hv.restrict hp)]

/-- Cells of `claBorrow` at position `k`. -/
def claCost (k : Nat) : Nat :=
  if k = 0 then 0
  else ((List.range k).reverse.map fun j => andCost (k - 1 - j + 1)).sum + (1 + 1)

/-- **Borrow look-ahead.** The signal of `claBorrow` is the chain's value at position `k`. -/
theorem claBorrow_emits {net : Netlist} {G P : Nat → Sig} {r : Sig} {g p : Nat → (Nat → Bool) → Bool}
    {f : (Nat → Bool) → Bool} {k : Nat} (hg : Good base fan net) (hfan : k + 1 ≤ fan)
    (hG : ∀ j < k, Den net (G j) (g j)) (hP : ∀ j < k, Den net (P j) (p j)) (hr : Den net r f) :
    Emits base fan (claBorrow G P r k) (claCost k) net
      (fun s net' => Den net' s fun v => ripple (fun j => g j v) (fun j => p j v) (f v) k) := by
  unfold claBorrow claCost
  split
  · rename_i h0
    subst h0
    exact .pure hg r hr
  rename_i h0
  let term (j : Nat) (v : Nat → Bool) : Bool :=
    ((List.range' (j + 1) (k - 1 - j)).reverse.all fun m => p m v) && g j v
  refine Emits.bind (Emits.mapM (fun _ _ => Den.stable _ _) (P := fun j s net => Den net s (term j))
    _ net hg ?_) fun terms net1 hg1 hp1 hterms => ?_
  · intro j hj net' hg' hp'
    have hj : j < k := by simpa using hj
    have := product_emits (P := P) (p := p) (l := (List.range' (j + 1) (k - 1 - j)).reverse) hg'
      (by simp; omega) (fun m hm => (hP m ?_).extend hp') ((hG j hj).extend hp')
    · simpa [term] using this
    · have := List.mem_range'_1.1 (List.mem_reverse.1 hm)
      omega
  have hlast := product_emits (P := P) (p := p) (l := (List.range k).reverse) hg1 (by simpa using hfan)
    (fun m hm => (hP m (by simpa using hm)).extend hp1) (hr.extend hp1)
  have hk : andCost ((List.range k).reverse.length + 1) = 1 := by simp [andCost, h0]
  rw [hk] at hlast
  refine Emits.bind hlast fun last net2 hg2 hp2 hl => ?_
  have hlen : terms.length = k := by simpa using hterms.length_eq.symm
  refine (orOf_emits hg2 (by simp; omega) (by simpa [hlen] using hfan) ?_).mono
    fun s net3 hp3 h => h.2.congr fun v hv => ?_
  · intro x hx
    rcases List.mem_append.1 hx with hx | hx
    · obtain ⟨i, hi, rfl⟩ := List.mem_iff_getElem.1 hx
      have := (List.forall₂_iff_get.1 hterms).2 i (by simpa [hlen] using hi) hi
      exact (this.extend hp2).1
    · rw [List.mem_singleton.1 hx]
      exact hl.1
  · have ht : terms.any (·.val v) = (List.range k).reverse.any fun j => term j v :=
      any_of_forall₂ (hterms.imp fun j s h => h.2 v (hv.restrict (hp2.trans hp3)))
    rw [List.any_append, ht, ← lookahead_eq_ripple]
    simp [term, hl.2 v (hv.restrict hp3)]

/-- Cells of `claGroup`. -/
def groupCost : Nat := ((List.range 4).reverse.map fun j => andCost (3 - j + 1)).sum + (1 + 1)

/-- **Group look-ahead.** -/
theorem claGroup_emits {net : Netlist} {G P : Nat → Sig} {g p : Nat → (Nat → Bool) → Bool}
    (hg : Good base fan net) (hfan : 4 ≤ fan) (hG : ∀ j < 4, Den net (G j) (g j))
    (hP : ∀ j < 4, Den net (P j) (p j)) :
    Emits base fan (claGroup G P) groupCost net (fun s net' =>
      Den net' s.1 (fun v => ripple (fun j => g j v) (fun j => p j v) false 4) ∧
      Den net' s.2 (fun v => allP (fun j => p j v) 4)) := by
  unfold claGroup groupCost
  let term (j : Nat) (v : Nat → Bool) : Bool :=
    ((List.range' (j + 1) (3 - j)).reverse.all fun m => p m v) && g j v
  refine Emits.bind (Emits.mapM (fun _ _ => Den.stable _ _) (P := fun j s net => Den net s (term j))
    _ net hg ?_) fun terms net1 hg1 hp1 hterms => ?_
  · intro j hj net' hg' hp'
    have hj : j < 4 := by simpa using hj
    have := product_emits (P := P) (p := p) (l := (List.range' (j + 1) (3 - j)).reverse) hg'
      (by simp; omega) (fun m hm => (hP m ?_).extend hp') ((hG j hj).extend hp')
    · simpa [term] using this
    · have := List.mem_range'_1.1 (List.mem_reverse.1 hm)
      omega
  have hlen : terms.length = 4 := by simpa using hterms.length_eq.symm
  refine Emits.bind (k := 1) (m := 1) (orOf_emits hg1 (by omega) (by omega) ?_)
    fun gg net2 hg2 hp2 hgg => ?_
  · intro x hx
    obtain ⟨i, hi, rfl⟩ := List.mem_iff_getElem.1 hx
    exact ((List.forall₂_iff_get.1 hterms).2 i (by simpa [hlen] using hi) hi).1
  have hgp := product_emits (P := P) (p := p) (l := [3, 2, 1]) hg2 (by simpa using hfan)
    (fun m hm => (hP m (by simp at hm; omega)).extend (hp1.trans hp2))
    ((hP 0 (by omega)).extend (hp1.trans hp2))
  refine Emits.bind (k := 1) (m := 0) hgp fun gp net3 hg3 hp3 hgp => .pure hg3 _ ⟨?_, ?_⟩
  · refine (hgg.2.congr fun v hv => ?_).extend hp3
    have ht : terms.any (·.val v) = (List.range 4).reverse.any fun j => term j v :=
      any_of_forall₂ (hterms.imp fun j s h => h.2 v (hv.restrict hp2))
    rw [ht, ← lookahead_eq_ripple, Bool.and_false, Bool.or_false]
  · exact hgp.congr fun v _ => by simp [allP, Bool.and_assoc]

/-! ## The three levels -/

/-- Cells of `laneBorrow`. -/
def borrowCost (digit : Nat) : Nat :=
  ((List.range (digit / 4)).map fun _ => groupCost).sum +
    (((List.range (digit / 16)).map fun _ => groupCost).sum +
      (((List.range (digit / 16)).map claCost).sum +
        ((List.range (4 * (digit / 16))).map fun i => claCost (i % 4)).sum))

/-- Every group of four bits gets the flat chain's borrow into its lowest bit. -/
theorem laneBorrow_emits {net : Netlist} {digit : Nat} {G P : Nat → Sig} {z : Sig}
    {g p : Nat → (Nat → Bool) → Bool} (hd : digit % 16 = 0) (hd4 : digit / 16 ≤ 4)
    (hg : Good base fan net) (hfan : 5 ≤ fan) (hG : ∀ j < digit, Den net (G j) (g j))
    (hP : ∀ j < digit, Den net (P j) (p j)) (hz : Den net z fun _ => false) :
    Emits base fan (laneBorrow digit G P z) (borrowCost digit) net (fun bgrp net' =>
      ∀ k < digit / 4, Den net' (bgrp k) fun v =>
        ripple (fun j => g j v) (fun j => p j v) false (4 * k)) := by
  unfold laneBorrow borrowCost
  let g1 (k : Nat) (v : Nat → Bool) : Bool := blockG 4 (fun j => g j v) (fun j => p j v) k
  let p1 (k : Nat) (v : Nat → Bool) : Bool := blockP 4 (fun j => p j v) k
  refine Emits.bind (Emits.mapM (P := fun k s net => Den net s.1 (g1 k) ∧ Den net s.2 (p1 k))
    (fun _ _ => (Den.stable _ _).and (Den.stable _ _)) _ net hg ?_) fun grp1 net1 hg1 hp1 h1 => ?_
  · intro k hk net' hg' hp'
    have hk : k < digit / 4 := by simpa using hk
    exact claGroup_emits hg' (by omega) (fun j _ => (hG _ (by omega)).extend hp')
      fun j _ => (hP _ (by omega)).extend hp'
  have h1 : ∀ k < digit / 4, Den net1 (arr grp1 k).1 (g1 k) ∧ Den net1 (arr grp1 k).2 (p1 k) :=
    fun k hk => forall₂_arr h1 hk
  let g2 (k : Nat) (v : Nat → Bool) : Bool := blockG 4 (fun j => g1 j v) (fun j => p1 j v) k
  let p2 (k : Nat) (v : Nat → Bool) : Bool := blockP 4 (fun j => p1 j v) k
  refine Emits.bind (Emits.mapM (P := fun k s net => Den net s.1 (g2 k) ∧ Den net s.2 (p2 k))
    (fun _ _ => (Den.stable _ _).and (Den.stable _ _)) _ net1 hg1 ?_) fun grp2 net2 hg2 hp2 h2 => ?_
  · intro k hk net' hg' hp'
    have hk : k < digit / 16 := by simpa using hk
    exact claGroup_emits hg' (by omega) (fun j _ => (h1 _ (by omega)).1.extend hp')
      fun j _ => (h1 _ (by omega)).2.extend hp'
  have h2 : ∀ k < digit / 16, Den net2 (arr grp2 k).1 (g2 k) ∧ Den net2 (arr grp2 k).2 (p2 k) :=
    fun k hk => forall₂_arr h2 hk
  -- the borrow into super-group `s` is the flat chain at bit `16 * s`
  let sup (s : Nat) (v : Nat → Bool) : Bool :=
    ripple (fun j => g2 j v) (fun j => p2 j v) false s
  refine Emits.bind (Emits.mapM (P := fun s sg net => Den net sg (sup s))
    (fun _ _ => Den.stable _ _) _ net2 hg2 ?_) fun bsup net3 hg3 hp3 h3 => ?_
  · intro k hk net' hg' hp'
    have hk : k < digit / 16 := by simpa using hk
    exact claBorrow_emits hg' (by omega) (fun j _ => (h2 _ (by omega)).1.extend hp')
      (fun j _ => (h2 _ (by omega)).2.extend hp') (hz.extend (hp1.trans (hp2.trans hp')))
  have h3 : ∀ k < digit / 16, Den net3 (arr bsup k) (sup k) := fun k hk => forall₂_arr h3 hk
  refine Emits.bind (m := 0) (Emits.mapM (P := fun i sg net => Den net sg fun v =>
      ripple (fun j => g j v) (fun j => p j v) false (4 * i))
    (fun _ _ => Den.stable _ _) _ net3 hg3 ?_) fun bgrp net4 hg4 hp4 h4 => ?_
  · intro i hi net' hg' hp'
    have hi : i < 4 * (digit / 16) := by simpa using hi
    refine (claBorrow_emits (g := fun j => g1 (4 * (i / 4) + j)) (p := fun j => p1 (4 * (i / 4) + j))
      hg' (by omega) (fun j _ => (h1 _ (by omega)).1.extend (hp2.trans (hp3.trans hp')))
      (fun j _ => (h1 _ (by omega)).2.extend (hp2.trans (hp3.trans hp')))
      ((h3 (i / 4) (by omega)).extend hp')).mono fun s net'' _ h => h.congr fun v _ => ?_
    show ripple (fun j => g1 (4 * (i / 4) + j) v) (fun j => p1 (4 * (i / 4) + j) v)
      (ripple (blockG 4 (fun j => g1 j v) fun j => p1 j v) (blockP 4 fun j => p1 j v) false (i / 4))
      (i % 4) = _
    rw [ripple_in_block]
    exact ripple_blocks 4 i
  · refine .pure hg4 _ fun k hk => forall₂_arr h4 (by omega)

/-! ## The lane -/

/-- Bit `i` of `b - a`, from the bits of `a` and `b`. -/
def diffBit (a b : Nat → Bool) (i : Nat) : Bool :=
  (a i ^^ b i) ^^ ripple (fun j => a j && !b j) (fun j => !(a j ^^ b j)) false i

theorem diffBit_congr {a b a' b' : Nat → Bool} {n i : Nat} (hi : i < n) (ha : ∀ j < n, a j = a' j)
    (hb : ∀ j < n, b j = b' j) : diffBit a b i = diffBit a' b' i := by
  unfold diffBit
  rw [ha i hi, hb i hi]
  congr 1
  refine ripple_congr (fun j hj => ?_) (fun j hj => ?_)
  · simp only [ha j (by omega), hb j (by omega)]
  · simp only [ha j (by omega), hb j (by omega)]

theorem diffBit_eq {w : Nat} (a b : BitVec w) {i : Nat} (hi : i < w) :
    diffBit a.getLsbD b.getLsbD i = (b - a).getLsbD i := (getLsbD_sub_eq_ripple a b hi).symm

/-- "Zero or negative", bit by bit. -/
theorem nonPositive_eq {w : Nat} (x : BitVec w) :
    ((List.range w).all (fun i => !x.getLsbD i) || x.getLsbD (w - 1)) = decide (x.toInt ≤ 0) := by
  have htop : x.getLsbD (w - 1) = decide (x.toInt < 0) := by
    rw [← BitVec.msb_eq_toInt, BitVec.msb_eq_getLsbD_last]
  have hzero : (List.range w).all (fun i => !x.getLsbD i) = decide (x = 0) := by
    rw [Bool.eq_iff_iff, List.all_eq_true, decide_eq_true_eq]
    constructor
    · intro h
      refine BitVec.eq_of_getLsbD_eq fun i hi => ?_
      simpa using h i (List.mem_range.2 hi)
    · rintro rfl
      simp
  rw [htop, hzero, Bool.eq_iff_iff, Bool.or_eq_true, decide_eq_true_eq, decide_eq_true_eq,
    decide_eq_true_eq]
  constructor
  · rintro (rfl | h)
    · simp
    · omega
  · intro h
    rcases Int.lt_or_eq_of_le h with h | h
    · exact .inr h
    · exact .inl (BitVec.eq_of_toInt_eq (h.trans (by simp)))

/-- The sign test of the bits of a difference. -/
theorem diffBit_nonPositive {w : Nat} (h0 : 0 < w) {A B : Nat → Bool} {a b : BitVec w}
    (ha : ∀ i < w, A i = a.getLsbD i) (hb : ∀ i < w, B i = b.getLsbD i) :
    ((List.range w).all (fun i => !diffBit A B i) || diffBit A B (w - 1)) = decide ((b - a).toInt ≤ 0) := by
  have hdiff : ∀ i < w, diffBit A B i = (b - a).getLsbD i := fun i hi =>
    (diffBit_congr hi ha hb).trans (diffBit_eq a b hi)
  rw [← nonPositive_eq, hdiff _ (by omega)]
  congr 1
  rw [Bool.eq_iff_iff, List.all_eq_true, List.all_eq_true]
  exact forall₂_congr fun i hi => by rw [hdiff i (List.mem_range.1 hi)]

/-- An input cell. -/
def IsInput (net : Netlist) (c : Nat) : Prop := ∃ cl, net.cells[c]? = some cl ∧ cl.complete = 1

theorem IsInput.extend {net net' : Netlist} {c : Nat} (h : IsInput net c)
    (hp : net.cells <+: net'.cells) : IsInput net' c := by
  obtain ⟨cl, hc, h1⟩ := h
  obtain ⟨l, hl⟩ := hp
  refine ⟨cl, ?_, h1⟩
  rw [← hl, List.getElem?_append_left (List.getElem?_eq_some_iff.1 hc).1, hc]

theorem input_emits {net : Netlist} (hg : Good base fan net) :
    Emits base fan input 1 net (fun c net' => c = net.cells.length ∧ IsInput net' c) :=
  ⟨_, _, rfl, hg.push (l := []) (by simp) (.inl ⟨rfl, rfl⟩), List.prefix_append _ _, by simp, rfl,
    ⟨net.calcAddr, [], 1⟩, by simp, rfl⟩

theorem laneInput_emits {net : Netlist} (hg : Good base fan net) :
    Emits base fan laneInput 2 net fun p net' => p = (net.cells.length, net.cells.length + 1) ∧
      IsInput net' net.cells.length ∧ IsInput net' (net.cells.length + 1) := by
  obtain ⟨a, net1, h1, hg1, hp1, hl1, rfl, ha⟩ := input_emits hg
  obtain ⟨b, net2, h2, hg2, hp2, hl2, rfl, hb⟩ := input_emits hg1
  refine ⟨(net.cells.length, net1.cells.length), net2, ?_, hg2, hp1.trans hp2, by omega,
    by rw [hl1], ha.extend hp2, hl1 ▸ hb⟩
  show (input net >>= fun p => input p.2 >>= fun q => some ((p.1, q.1), q.2)) = _
  rw [h1]
  show (input net1 >>= fun q => some ((net.cells.length, q.1), q.2)) = _
  rw [h2]
  rfl

/-- The input cells of a lane are consecutive: `a` and `b` of each bit. -/
theorem inputs_emits : ∀ (l : List Nat) {net : Netlist}, Good base fan net →
    Emits base fan (l.mapM fun _ => laneInput) (l.map fun _ => 2).sum net fun ab net' =>
      (ab = (List.range l.length).map fun i =>
        (net.cells.length + 2 * i, net.cells.length + 2 * i + 1)) ∧
      ∀ i < 2 * l.length, IsInput net' (net.cells.length + i)
  | [], net, hg => .pure hg [] ⟨rfl, by simp⟩
  | x :: l, net, hg => by
    rw [List.mapM_cons, List.map_cons, List.sum_cons]
    obtain ⟨p, net1, h1, hg1, hp1, hl1, rfl, ha, hb⟩ := laneInput_emits hg
    obtain ⟨ab, net2, h2, hg2, hp2, hl2, rfl, hin⟩ := inputs_emits l hg1
    refine ⟨(net.cells.length, net.cells.length + 1) :: (List.range l.length).map fun i =>
      (net1.cells.length + 2 * i, net1.cells.length + 2 * i + 1), net2, ?_, hg2, hp1.trans hp2,
      by omega, ?_, ?_⟩
    · show (laneInput net >>= fun p =>
        (l.mapM fun _ => laneInput : Build (List (Nat × Nat))) p.2 >>= fun q =>
          some (p.1 :: q.1, q.2)) = _
      rw [h1]
      show ((l.mapM fun _ => laneInput : Build (List (Nat × Nat))) net1 >>= fun q =>
        some ((net.cells.length, net.cells.length + 1) :: q.1, q.2)) = _
      rw [h2]
      rfl
    · rw [List.length_cons, List.range_succ_eq_map, List.map_cons, List.map_map, hl1]
      congr 1
      exact List.map_congr_left fun i _ => by simp only [Function.comp]; congr 1 <;> omega
    · intro i hi
      rw [List.length_cons] at hi
      match i with
      | 0 => exact ha.extend hp2
      | 1 => exact hb.extend hp2
      | i + 2 =>
        have := hin i (by omega)
        rwa [hl1, show net.cells.length + 2 + i = net.cells.length + (i + 2) by omega] at this

/-- The cells of bit `i` are the pair number `i` of a lane's inputs. -/
theorem laneInputs_emits {net : Netlist} (hg : Good base fan net) (digit : Nat) :
    Emits base fan ((List.range digit).mapM fun _ => laneInput)
      ((List.range digit).map fun _ => 2).sum net fun ab net' => ∀ i < digit,
        (arr ab i).1 = net.cells.length + 2 * i ∧ (arr ab i).2 = net.cells.length + 2 * i + 1 ∧
        IsInput net' (arr ab i).1 ∧ IsInput net' (arr ab i).2 := by
  refine (inputs_emits (List.range digit) hg).mono fun ab net' _ h i hi => ?_
  obtain ⟨hab, hin⟩ := h
  rw [List.length_range] at hab hin
  have hcell : arr ab i = (net.cells.length + 2 * i, net.cells.length + 2 * i + 1) := by
    simp [arr, hab, List.getD_eq_getElem?_getD, hi]
  rw [hcell]
  exact ⟨rfl, rfl, hin (2 * i) (by omega), hin (2 * i + 1) (by omega)⟩

theorem IsInput.den {net : Netlist} {c : Nat} (h : IsInput net c) :
    Den net ⟨c, false⟩ fun v => v c := by
  obtain ⟨cl, hc, -⟩ := h
  exact ⟨(List.getElem?_eq_some_iff.1 hc).1, fun v _ => Sig.val_pos v c⟩

/-- Cells of the bit loop of a lane. -/
def sumCost (i : Nat) : Nat := if i = 0 then 0 else claCost (i % 4) + 3

/-- Cells of a lane. -/
def laneCost (digit : Nat) : Nat :=
  ((List.range digit).map fun _ => 2).sum + (1 + (((List.range digit).map fun _ => 3 + (1 + 0)).sum +
    (borrowCost digit + (((List.range (4 * (digit / 4))).map sumCost).sum +
      (((List.range (digit / 8)).map fun _ => 1).sum + (1 + (1 + (1 + 0))))))))

/-- One bit's half difference and generate signal. -/
theorem halfDiff_emits {net : Netlist} {a b : Nat} (hfan : 8 ≤ fan) (hg : Good base fan net)
    (ha : IsInput net a) (hb : IsInput net b) :
    Emits base fan (do
      let x ← xorOf ⟨a, false⟩ ⟨b, false⟩
      let g ← andOf [⟨a, false⟩, Sig.not ⟨b, false⟩]
      pure (x, g)) (3 + (1 + 0)) net fun s net' =>
      (s.1.inv = false ∧ Den net' s.1 fun v => v a ^^ v b) ∧ Den net' s.2 fun v => v a && !v b := by
  refine Emits.bind (xorOf_emits (by omega) hg ha.den hb.den) fun x net2 hg2 hp2 hx => ?_
  refine Emits.bind (k := 1) (andOf_emits hg2 (by simp) (by simp; omega) ?_)
    fun g net3 hg3 hp3 hgd => .pure hg3 _ ⟨⟨hx.1, hx.2.extend hp3⟩, ?_⟩
  · simp [(ha.extend hp2).den.1, (hb.extend hp2).den.1]
  · exact hgd.congr fun v _ => by simp

section
variable {net : Netlist} {digit : Nat} {A B : (Nat → Bool) → Nat → Bool}

/-- One bit's borrow and sum, from the borrows into the groups of four. -/
theorem sumBit_emits (hfan : 8 ≤ fan) (hg : Good base fan net) {x g bgrp : Nat → Sig}
    (hx : ∀ i < digit, ((x i).inv = false ∧ Den net (x i) fun v => A v i ^^ B v i) ∧
      Den net (g i) fun v => A v i && !B v i)
    (hb : ∀ k < digit / 4, Den net (bgrp k) fun v =>
      ripple (fun j => A v j && !B v j) (fun j => !(A v j ^^ B v j)) false (4 * k))
    {i : Nat} (hi : i < 4 * (digit / 4)) :
    Emits base fan (if i = 0 then pure (x 0)
      else do
        let bor ← claBorrow (fun j => g (4 * (i / 4) + j)) (fun j => (x (4 * (i / 4) + j)).not)
          (bgrp (i / 4)) (i % 4)
        xorOf (x i) bor) (sumCost i) net fun s net' =>
      s.inv = false ∧ Den net' s fun v => diffBit (A v) (B v) i := by
  have hx' := (hx i (by omega)).1
  unfold sumCost
  split
  · rename_i hi0
    subst hi0
    exact .pure hg _ ⟨hx'.1, hx'.2.congr fun v _ => by simp [diffBit]⟩
  · refine Emits.bind (claBorrow_emits hg (by omega) (fun j _ => (hx _ (by omega)).2)
      (fun j _ => (hx _ (by omega)).1.2.not) (hb (i / 4) (by omega))) fun bor net2 hg2 hp2 hbor => ?_
    refine (xorOf_emits (by omega) hg2 (hx'.2.extend hp2) hbor).mono
      fun s net3 _ h => ⟨h.1, h.2.congr fun v _ => ?_⟩
    have hr := ripple_add (G := fun j => A v j && !B v j) (P := fun j => !(A v j ^^ B v j))
      (r := false) (4 * (i / 4)) (i % 4)
    rw [Nat.div_add_mod] at hr
    rw [diffBit, hr]

/-- One byte of the zero test. -/
theorem zeroByte_emits (hfan : 8 ≤ fan) (hg : Good base fan net) {sum : Nat → Sig}
    (hsum : ∀ i < digit, Den net (sum i) fun v => diffBit (A v) (B v) i) {k : Nat} (hk : k < digit / 8) :
    Emits base fan (do
      let acc ← cell
      (List.range' (8 * k) 8).forM fun i => wire acc (sum i) true
      pure (⟨acc, false⟩ : Sig)) 1 net fun s net' => Den net' s fun v =>
      (List.range' (8 * k) 8).all fun i => !diffBit (A v) (B v) i := by
  have hlt : ∀ i ∈ List.range' (8 * k) 8, i < digit := fun i hi => by
    have := List.mem_range'_1.1 hi
    omega
  refine (Emits.gate (k := fun t => (⟨t, false⟩ : Sig)) (f := sum) (b := true) hg (by simp)
    (by simpa using hfan) fun i hi => (hsum i (hlt i hi)).1).mono fun s net2 hp2 h => ?_
  obtain ⟨rfl, hl, hv⟩ := h
  refine ⟨hl, fun v hs => ?_⟩
  rw [Sig.val_pos, hv v hs, Bool.eq_iff_iff, List.all_eq_true, List.all_eq_true]
  refine forall₂_congr fun i hi => ?_
  rw [(hsum i (hlt i hi)).2 v (hs.restrict hp2)]
  simp

/-- A test of every byte is a test of every bit. -/
theorem all_bytes (h8 : digit % 8 = 0) (p : Nat → Bool) :
    ((List.range (digit / 8)).all fun k => (List.range' (8 * k) 8).all p) =
      (List.range digit).all p := by
  rw [Bool.eq_iff_iff]
  simp only [List.all_eq_true, List.mem_range, List.mem_range'_1]
  constructor
  · exact fun h i hi => h (i / 8) (by omega) i (by omega)
  · exact fun h k hk i hi => h i (by omega)

/-- The zero test, from the tests of the bytes. -/
theorem allZero_emits {accs : List Sig} (hd : digit % 16 = 0) (hd4 : digit / 16 ≤ 4)
    (h0 : 0 < digit) (hfan : 8 ≤ fan) (hg : Good base fan net)
    (haccs : List.Forall₂ (fun k s => Den net s fun v =>
      (List.range' (8 * k) 8).all fun i => !diffBit (A v) (B v) i) (List.range (digit / 8)) accs) :
    Emits base fan (andOf accs) 1 net fun s net' => Den net' s fun v =>
      (List.range digit).all fun i => !diffBit (A v) (B v) i := by
  have hlen : accs.length = digit / 8 := by simpa using haccs.length_eq.symm
  have hand := andOf_emits hg (l := accs) (by rintro rfl; simp at hlen; omega) (by omega) (by
    intro x hx
    obtain ⟨i, hi, rfl⟩ := List.mem_iff_getElem.1 hx
    exact ((List.forall₂_iff_get.1 haccs).2 i (by simpa [hlen] using hi) hi).1)
  have hc1 : andCost accs.length = 1 := by rw [andCost, if_neg (by omega)]
  rw [hc1] at hand
  refine hand.mono fun s net2 hp h => h.congr fun v hv => ?_
  rw [all_of_forall₂ (haccs.imp fun k s h => h.2 v (hv.restrict hp))]
  exact all_bytes (by omega) _

end

/-- **The lane subtracts**: the sum signals are positive cells with the bits of `b - a`, and `isJmp`
is a positive cell that says the difference is zero or its top bit is set. -/
theorem buildLane_emits {net : Netlist} {digit : Nat} (hd : digit % 16 = 0) (hd4 : digit / 16 ≤ 4)
    (h0 : 0 < digit) (hfan : 8 ≤ fan) (hg : Good base fan net) :
    Emits base fan (buildLane digit) (laneCost digit) net fun ln net' =>
      (∀ i < digit, ln.ain i = net.cells.length + 2 * i ∧ ln.bin i = net.cells.length + 2 * i + 1) ∧
      (∀ i < digit, IsInput net' (ln.ain i) ∧ IsInput net' (ln.bin i)) ∧
      (∀ i < digit, (ln.sum i).inv = false ∧
        Den net' (ln.sum i) fun v => diffBit (fun j => v (ln.ain j)) (fun j => v (ln.bin j)) i) ∧
      ln.isJmp.inv = false ∧ Den net' ln.isJmp fun v =>
        (List.range digit).all (fun i => !diffBit (fun j => v (ln.ain j)) (fun j => v (ln.bin j)) i) ||
          diffBit (fun j => v (ln.ain j)) (fun j => v (ln.bin j)) (digit - 1) := by
  unfold buildLane laneCost
  refine Emits.bind (laneInputs_emits hg digit) fun ab net1 hg1 hp1 hab => ?_
  generalize hain : (fun i => (arr ab i).1) = ain
  generalize hbin : (fun i => (arr ab i).2) = bin
  have hcells : ∀ i < digit, ain i = net.cells.length + 2 * i ∧ bin i = net.cells.length + 2 * i + 1 :=
    fun i hi => by rw [← hain, ← hbin]; exact ⟨(hab i hi).1, (hab i hi).2.1⟩
  have ha : ∀ i < digit, IsInput net1 (ain i) := fun i hi => by
    rw [← hain]; exact (hab i hi).2.2.1
  have hb : ∀ i < digit, IsInput net1 (bin i) := fun i hi => by
    rw [← hbin]; exact (hab i hi).2.2.2
  refine Emits.bind (k := 1) (andOf_emits hg1 (by simp) (by simp; omega) ?_)
    fun zero net2 hg2 hp2 hz => ?_
  · simp [(hb 0 h0).den.1]
  have hzero : Den net2 zero fun _ => false := hz.congr fun v _ => by simp [Sig.val_inv]
  let A (v : Nat → Bool) (j : Nat) : Bool := v (ain j)
  let B (v : Nat → Bool) (j : Nat) : Bool := v (bin j)
  -- per bit: the half difference and the generate signal
  refine Emits.bind (Emits.mapM (P := fun i s net => (s.1.inv = false ∧
      Den net s.1 fun v => A v i ^^ B v i) ∧ Den net s.2 fun v => A v i && !B v i)
    (fun _ _ => ((Stable.const _).and (Den.stable _ _)).and (Den.stable _ _))
    _ net2 hg2 ?_) fun xg net3 hg3 hp3 hxg => ?_
  · intro i hi net' hg' hp'
    have hi : i < digit := by simpa using hi
    exact halfDiff_emits hfan hg' ((ha i hi).extend (hp2.trans hp')) ((hb i hi).extend (hp2.trans hp'))
  have hxg : ∀ i < digit, ((arr xg i).1.inv = false ∧ Den net3 (arr xg i).1 fun v => A v i ^^ B v i) ∧
      Den net3 (arr xg i).2 fun v => A v i && !B v i := fun i hi => forall₂_arr hxg hi
  refine Emits.bind (laneBorrow_emits hd hd4 hg3 (by omega) (fun j hj => (hxg j hj).2)
    (fun j hj => (hxg j hj).1.2.not) (hzero.extend hp3)) fun bgrp net4 hg4 hp4 hbg => ?_
  -- per bit: the borrow into it and the sum
  refine Emits.bind (Emits.mapM (P := fun i s net => s.inv = false ∧
      Den net s fun v => diffBit (A v) (B v) i)
    (fun _ _ => (Stable.const _).and (Den.stable _ _)) _ net4 hg4 ?_)
    fun sum net5 hg5 hp5 hsum => ?_
  · intro i hi net' hg' hp'
    have hp := hp4.trans hp'
    exact sumBit_emits hfan hg'
      (fun j hj => ⟨⟨(hxg j hj).1.1, (hxg j hj).1.2.extend hp⟩, (hxg j hj).2.extend hp⟩)
      (fun k hk => (hbg k hk).extend hp') (List.mem_range.1 hi)
  have hsum : ∀ i < digit, (arr sum i).inv = false ∧ Den net5 (arr sum i) fun v =>
      diffBit (A v) (B v) i := fun i hi => forall₂_arr hsum (by omega)
  -- per byte: all sum bits zero
  refine Emits.bind (Emits.mapM (P := fun k s net => Den net s fun v =>
      (List.range' (8 * k) 8).all fun i => !diffBit (A v) (B v) i)
    (fun _ _ => Den.stable _ _) _ net5 hg5 ?_) fun accs net6 hg6 hp6 haccs => ?_
  · intro k hk net' hg' hp'
    exact zeroByte_emits hfan hg' (fun i hi => (hsum i hi).2.extend hp') (by simpa using hk)
  refine Emits.bind (allZero_emits hd hd4 h0 hfan hg6 haccs) fun allZero net7 hg7 hp7 hall => ?_
  have htop := ((hsum (digit - 1) (by omega)).2.extend hp6).extend hp7
  refine Emits.bind (orOf_emits hg7 (by simp) (by simp; omega) ?_) fun neg net8 hg8 hp8 hneg => ?_
  · simp [hall.1, htop.1]
  have hneg' : Den net8 neg fun v => (List.range digit).all (fun i => !diffBit (A v) (B v) i) ||
      diffBit (A v) (B v) (digit - 1) := hneg.2.congr fun v hv => by
    simp [hall.2 v (hv.restrict hp8), htop.2 v (hv.restrict hp8)]
  have hbuf := buf_emits (by omega) hg8 hneg'
  rw [hneg.1, Bool.toNat_true] at hbuf
  refine Emits.bind hbuf fun isJmp net9 hg9 hp9 hj => ?_
  have hp59 := hp6.trans (hp7.trans (hp8.trans hp9))
  have hp19 := hp2.trans (hp3.trans (hp4.trans (hp5.trans hp59)))
  refine .pure hg9 _ ⟨hcells, fun i hi => ⟨(ha i hi).extend hp19,
    (hb i hi).extend hp19⟩, fun i hi => ⟨(hsum i hi).1, (hsum i hi).2.extend hp59⟩, hj.1, hj.2⟩

/-- The lane of the source takes 874 cells. -/
theorem laneCost_digit : laneCost DIGIT = 874 := by decide

end NandServer.Netlist
