import HsqOverNand.Server.Proof.Lane
import HsqOverNand.Server.Proof.Schedule

/-!
# Borrow look-ahead on any netlist

`Server/Proof/Lane.lean` states what the builders compute on the netlists a builder starts
(`Good`). A builder never looks at the cells it finds (`Oblivious`): it appends the same bodies to
every netlist of one size, so it computes the same on all of them (`Emits.anywhere`). The wires of the
bodies come from earlier cells (`Forward`), so every valuation of the cells found extends to the appended
ones, with any input bits (`Forward.exists_sat`).
-/

set_option autoImplicit false

namespace NandServer.Netlist

open Lookahead

variable {α β : Type}

/-! ## Oblivious builders -/

/-- The wires and the completion of a cell. -/
abbrev Body := List Write × Int

/-- Cells with the given bodies, at the next addresses. -/
def extend : Netlist → List Body → Netlist
  | net, [] => net
  | net, b :: bs =>
    extend ⟨net.cells ++ [⟨net.calcAddr, b.1, b.2⟩], u32 (net.calcAddr + 1)⟩ bs

theorem extend_append (bs bs' : List Body) : ∀ net : Netlist,
    net.extend (bs ++ bs') = (net.extend bs).extend bs' := by
  induction bs with
  | nil => exact fun _ => rfl
  | cons b bs ih => exact fun net => ih _

theorem extend_cells (bs : List Body) : ∀ net : Netlist, ∃ l, (net.extend bs).cells = net.cells ++ l ∧
    l.map (fun c => (c.ins, c.complete)) = bs := by
  induction bs with
  | nil => exact fun net => ⟨[], by simp [extend]⟩
  | cons b bs ih =>
    intro net
    obtain ⟨l, hl, hb⟩ := ih ⟨net.cells ++ [⟨net.calcAddr, b.1, b.2⟩], u32 (net.calcAddr + 1)⟩
    refine ⟨⟨net.calcAddr, b.1, b.2⟩ :: l, ?_, by simp [hb]⟩
    rw [extend, hl, List.append_assoc]
    rfl

theorem extend_length (net : Netlist) (bs : List Body) :
    (net.extend bs).cells.length = net.cells.length + bs.length := by
  obtain ⟨l, hl, hb⟩ := extend_cells bs net
  rw [hl, List.length_append, ← hb, List.length_map]

theorem extend_old {net : Netlist} {bs : List Body} {i : Nat} (hi : i < net.cells.length) :
    (net.extend bs).cells[i]? = net.cells[i]? := by
  obtain ⟨l, hl, -⟩ := extend_cells bs net
  rw [hl, List.getElem?_append_left hi]

theorem extend_new (net : Netlist) (bs : List Body) {i : Nat} (hi : net.cells.length ≤ i) :
    (net.extend bs).cells[i]?.map (fun c => (c.ins, c.complete)) = bs[i - net.cells.length]? := by
  obtain ⟨l, hl, hb⟩ := extend_cells bs net
  rw [hl, List.getElem?_append_right hi, ← hb, List.getElem?_map]

/-- The appended cells of two netlists of one size differ in their addresses only. -/
theorem extend_same {net net0 : Netlist} (hlen : net.cells.length = net0.cells.length) {bs : List Body}
    {i : Nat} (hi : net0.cells.length ≤ i) {c : Cell} (hc : (net0.extend bs).cells[i]? = some c) :
    ∃ c', (net.extend bs).cells[i]? = some c' ∧ c'.ins = c.ins ∧ c'.complete = c.complete := by
  have hbody : (net.extend bs).cells[i]?.map (fun c => (c.ins, c.complete)) = some (c.ins, c.complete) := by
    rw [extend_new net bs (hlen ▸ hi), hlen, ← extend_new net0 bs hi, hc]
    rfl
  obtain ⟨c', hc', he⟩ := Option.map_eq_some_iff.1 hbody
  exact ⟨c', hc', Prod.mk.inj he⟩

/-- What `x` returns and appends depends on the number of cells it finds only. -/
def Oblivious (x : Build α) : Prop :=
  ∀ n, ∃ r : Option (α × List Body), ∀ net : Netlist, net.cells.length = n →
    x net = r.map fun p => (p.1, net.extend p.2)

theorem Oblivious.pure (a : α) : Oblivious (Pure.pure a) :=
  fun _ => ⟨some (a, []), fun _ _ => rfl⟩

theorem Oblivious.bind {x : Build α} {f : α → Build β} (hx : Oblivious x)
    (hf : ∀ a, Oblivious (f a)) : Oblivious (x >>= f) := by
  intro n
  obtain ⟨r, hr⟩ := hx n
  cases r with
  | none =>
    refine ⟨none, fun net hn => ?_⟩
    show (x net >>= fun p => f p.1 p.2) = _
    rw [hr net hn]
    rfl
  | some p =>
    obtain ⟨a, bs⟩ := p
    obtain ⟨r', hr'⟩ := hf a (n + bs.length)
    refine ⟨r'.map fun p => (p.1, bs ++ p.2), fun net hn => ?_⟩
    show (x net >>= fun p => f p.1 p.2) = _
    rw [hr net hn]
    show f a (net.extend bs) = _
    rw [hr' _ (by rw [extend_length, hn])]
    cases r' with
    | none => rfl
    | some p => simp [extend_append]

theorem Oblivious.mapM {f : β → Build α} (hf : ∀ b, Oblivious (f b)) :
    ∀ l : List β, Oblivious (l.mapM f)
  | [] => .pure []
  | b :: l => by
    rw [List.mapM_cons]
    exact (hf b).bind fun a => (Oblivious.mapM hf l).bind fun as => .pure (a :: as)

theorem Oblivious.cassert (c : Prop) [Decidable c] : Oblivious (cassert c) := by
  unfold NandServer.cassert
  split
  · exact .pure ()
  · exact fun _ => ⟨none, fun _ _ => rfl⟩

theorem oblivious_input : Oblivious input := fun n =>
  ⟨some (n, [([], 1)]), fun net hn => by rw [← hn]; rfl⟩

/-- A new cell with a wire for each of `l`. -/
theorem oblivious_gate (l : List α) (f : α → Sig) (b : Bool) (k : Nat → β) :
    Oblivious (do let t ← cell; l.forM fun x => wire t (f x) b; Pure.pure (k t)) := by
  refine fun n => ⟨some (k n, [(l.map fun x => ⟨⟨(f x).cell, (f x).inv != b⟩, -1⟩, -1)]),
    fun net hn => ?_⟩
  show ((l.forM fun x => wire net.cells.length (f x) b)
    ⟨net.cells ++ [⟨net.calcAddr, [], -1⟩], u32 (net.calcAddr + 1)⟩ >>= fun p => _) = _
  rw [run_wires, ← hn]
  rfl

theorem oblivious_andOf (l : List Sig) : Oblivious (andOf l) := by
  unfold andOf
  refine (Oblivious.cassert _).bind fun _ => ?_
  match l with
  | [] => exact oblivious_gate [] id false fun t => (⟨t, false⟩ : Sig)
  | [x] => exact .pure x
  | x :: y :: xs => exact oblivious_gate (x :: y :: xs) id false fun t => (⟨t, false⟩ : Sig)

theorem oblivious_orOf (l : List Sig) : Oblivious (orOf l) :=
  (Oblivious.cassert _).bind fun _ => oblivious_gate l Sig.not false fun t => (⟨t, true⟩ : Sig)

theorem oblivious_xorOf (a b : Sig) : Oblivious (xorOf a b) :=
  (oblivious_andOf _).bind fun _ => (oblivious_andOf _).bind fun _ => (oblivious_orOf _).bind
    fun o => .pure o.not

theorem oblivious_buf (s : Sig) : Oblivious (buf s) := by
  unfold buf
  split
  · exact .pure s
  · have := oblivious_gate [s] id false fun t => (⟨t, false⟩ : Sig)
    simpa using this

/-! ### The builders of the lane -/

theorem oblivious_claBorrow (G P : Nat → Sig) (r : Sig) (k : Nat) :
    Oblivious (claBorrow G P r k) := by
  unfold claBorrow
  split
  · exact .pure r
  · exact (Oblivious.mapM (fun _ => oblivious_andOf _) _).bind fun _ =>
      (oblivious_andOf _).bind fun _ => oblivious_orOf _

theorem oblivious_claGroup (G P : Nat → Sig) : Oblivious (claGroup G P) :=
  (Oblivious.mapM (fun _ => oblivious_andOf _) _).bind fun _ => (oblivious_orOf _).bind fun _ =>
    (oblivious_andOf _).bind fun _ => .pure _

theorem oblivious_laneBorrow (digit : Nat) (g p : Nat → Sig) (z : Sig) :
    Oblivious (laneBorrow digit g p z) :=
  (Oblivious.mapM (fun _ => oblivious_claGroup _ _) _).bind fun _ =>
    (Oblivious.mapM (fun _ => oblivious_claGroup _ _) _).bind fun _ =>
    (Oblivious.mapM (fun _ => oblivious_claBorrow _ _ _ _) _).bind fun _ =>
    (Oblivious.mapM (fun _ => oblivious_claBorrow _ _ _ _) _).bind fun _ => .pure _

theorem oblivious_buildLane (digit : Nat) : Oblivious (buildLane digit) := by
  unfold buildLane
  refine (Oblivious.mapM (fun _ => oblivious_input.bind fun _ => oblivious_input.bind fun _ =>
    .pure _) _).bind fun ab => ?_
  refine (oblivious_andOf _).bind fun zero => ?_
  refine (Oblivious.mapM (fun _ => (oblivious_xorOf _ _).bind fun _ => (oblivious_andOf _).bind
    fun _ => .pure _) _).bind fun xg => ?_
  refine (oblivious_laneBorrow _ _ _ _).bind fun bgrp => ?_
  refine (Oblivious.mapM (fun i => ?_) _).bind fun sum => ?_
  · split
    · exact .pure _
    · exact (oblivious_claBorrow _ _ _ _).bind fun _ => oblivious_xorOf _ _
  refine (Oblivious.mapM (fun _ => oblivious_gate _ _ _ _) _).bind fun accs => ?_
  exact (oblivious_andOf _).bind fun _ => (oblivious_orOf _).bind fun _ => (oblivious_buf _).bind
    fun _ => .pure _

/-! ## From one netlist to every netlist -/

/-- A netlist of `n` inputs. -/
def blank (n : Nat) : Netlist := extend ⟨[], u32 0⟩ (List.replicate n ([], 1))

theorem good_inputs {base fan : Nat} : ∀ (n : Nat) {net : Netlist}, Good base fan net →
    Good base fan (net.extend (List.replicate n ([], 1)))
  | 0, _, h => h
  | n + 1, _, h => good_inputs n (h.push (l := []) (by simp) (.inl ⟨rfl, rfl⟩))

theorem blank_good (fan n : Nat) : Good 0 fan (blank n) := good_inputs n (good_empty 0 fan)

@[simp] theorem blank_length (n : Nat) : (blank n).cells.length = n := by
  simp [blank, extend_length]

theorem blank_inputs (n : Nat) : ∀ c ∈ (blank n).cells, c.complete = 1 := by
  intro c hc
  obtain ⟨l, hl, hb⟩ := extend_cells (List.replicate n ([], 1)) ⟨[], u32 0⟩
  rw [blank, hl, List.nil_append] at hc
  have := List.mem_map_of_mem (f := fun c : Cell => (c.ins, c.complete)) hc
  rw [hb] at this
  exact congrArg Prod.snd (List.eq_of_mem_replicate this)

/-- Inputs constrain no valuation. -/
theorem Sat.of_inputs {net net0 : Netlist} (hlen : net.cells.length = net0.cells.length)
    (h0 : ∀ c ∈ net0.cells, c.complete = 1) {bs : List Body} {v : Nat → Bool}
    (hv : Sat (net.extend bs).cells v) : Sat (net0.extend bs).cells v := by
  intro i c hc hn
  rcases lt_or_ge i net0.cells.length with hi | hi
  · rw [extend_old hi] at hc
    exact absurd (h0 c (List.mem_of_getElem? hc)) hn
  · obtain ⟨c', hc', hins, hcomp⟩ := extend_same hlen hi hc
    rw [hv i c' hc' (hcomp ▸ hn), hins]

theorem IsInput.anywhere {net net0 : Netlist} (hlen : net.cells.length = net0.cells.length) {bs : List Body}
    {i : Nat} (hi : net0.cells.length ≤ i) (h : IsInput (net0.extend bs) i) : IsInput (net.extend bs) i := by
  obtain ⟨c, hc, h1⟩ := h
  obtain ⟨c', hc', -, hcomp⟩ := extend_same hlen hi hc
  exact ⟨c', hc', hcomp.trans h1⟩

/-! ### Valuations of the appended cells -/

/-- After `n` cells the wires come from earlier cells. -/
def Forward (n : Nat) (bs : List Body) : Prop :=
  ∀ i b, bs[i]? = some b → ∀ w ∈ b.1, w.src.cell < n + i

theorem Good.forward {base fan : Nat} {net : Netlist} {bs : List Body} (h : Good base fan (net.extend bs)) :
    Forward net.cells.length bs := by
  intro i b hb
  have hnew := extend_new net bs (Nat.le_add_right net.cells.length i)
  rw [Nat.add_sub_cancel_left, hb] at hnew
  obtain ⟨c, hc, rfl⟩ := Option.map_eq_some_iff.1 hnew
  exact h.topo _ c hc

/-- One more cell, with the value its wires give it, or any if it is an input. -/
theorem Sat.push {cells : List Cell} {v : Nat → Bool} (hv : Sat cells v) (hc : Closed cells) {c : Cell}
    (hw : ∀ w ∈ c.ins, w.src.cell < cells.length) {x : Bool}
    (hx : c.complete ≠ 1 → x = c.ins.all fun w => w.src.val v) :
    Sat (cells ++ [c]) (Function.update v cells.length x) := by
  have hval : ∀ s : Sig, s.cell < cells.length → s.val (Function.update v cells.length x) = s.val v := by
    intro s hs
    unfold Sig.val AndNet.lit
    rw [Function.update_of_ne hs.ne]
  have hall : ∀ d : Cell, (∀ w ∈ d.ins, w.src.cell < cells.length) →
      (d.ins.all fun w => w.src.val (Function.update v cells.length x)) = d.ins.all fun w => w.src.val v := by
    intro d hd
    rw [Bool.eq_iff_iff, List.all_eq_true, List.all_eq_true]
    exact forall₂_congr fun w hw => by rw [hval _ (hd w hw)]
  intro i d hd hn
  rcases getElem?_concat_cases hd with hd | ⟨rfl, rfl⟩
  · rw [Function.update_of_ne (List.getElem?_eq_some_iff.1 hd).1.ne, hall d (hc d (List.mem_of_getElem? hd))]
    exact hv i d hd hn
  · rw [Function.update_self, hall c hw]
    exact hx hn

/-- **The inputs are free**: whatever the earlier cells hold, every choice of input bits occurs. -/
theorem Forward.exists_sat : ∀ (bs : List Body) {net : Netlist}, Forward net.cells.length bs →
    Closed net.cells → ∀ {v : Nat → Bool}, Sat net.cells v → ∀ bits : Nat → Bool,
    ∃ v', Sat (net.extend bs).cells v' ∧ (∀ i < net.cells.length, v' i = v i) ∧
      ∀ i, net.cells.length ≤ i → IsInput (net.extend bs) i → v' i = bits i
  | [], net, _, _, v, hv, bits =>
    ⟨v, hv, fun _ _ => rfl, fun i hi ⟨_, hc, _⟩ => absurd (List.getElem?_eq_some_iff.1 hc).1 (Nat.not_lt.2 hi)⟩
  | b :: bs, net, hf, hc, v, hv, bits => by
    let net1 : Netlist := ⟨net.cells ++ [⟨net.calcAddr, b.1, b.2⟩], u32 (net.calcAddr + 1)⟩
    have hw := hf 0 b rfl
    have hlen : net1.cells.length = net.cells.length + 1 := List.length_append
    have hf1 : Forward net1.cells.length bs := by
      intro i b' hb'
      rw [hlen, Nat.add_assoc, Nat.add_comm 1 i]
      exact hf (i + 1) b' hb'
    have hc1 : Closed net1.cells := by
      intro c hm w hw'
      rw [hlen]
      cases List.mem_append.1 hm with
      | inl hm => exact (hc c hm w hw').trans (Nat.lt_succ_self _)
      | inr hm =>
        rw [List.mem_singleton.1 hm] at hw'
        exact (hw w hw').trans (Nat.lt_succ_self _)
    let x := if b.2 = 1 then bits net.cells.length else b.1.all fun w => w.src.val v
    have hv1 : Sat net1.cells (Function.update v net.cells.length x) := hv.push hc hw fun hn => if_neg hn
    obtain ⟨v', hv', hold, hin⟩ := Forward.exists_sat bs hf1 hc1 hv1 bits
    refine ⟨v', hv', fun i hi => ?_, fun i hi hI => ?_⟩
    · rw [hold i (by omega), Function.update_of_ne hi.ne]
    · rcases Nat.eq_or_lt_of_le hi with rfl | hlt
      · obtain ⟨c, hcell, h1⟩ := hI
        have hfirst : (net1.extend bs).cells[net.cells.length]? = some ⟨net.calcAddr, b.1, b.2⟩ := by
          rw [extend_old (by omega)]
          exact List.getElem?_concat_length
        cases hcell.symm.trans hfirst
        rw [hold _ (by omega), Function.update_self]
        exact if_pos h1
      · exact hin i (by omega) hI

/-! ### The builders -/

/-- The builder `x` passes its `assert`s on `net`, leaves the earlier cells alone and ends in `Q`. -/
def Yields (x : Build α) (net : Netlist) (Q : α → Netlist → Prop) : Prop :=
  ∃ a net', x net = some (a, net') ∧ net.cells <+: net'.cells ∧ Q a net'

/-- Holds of a netlist that has at least the cells and at most the valuations of `net`. -/
def Transfers (P : Netlist → Prop) : Prop :=
  ∀ net net', net'.cells.length = net.cells.length → (∀ v, Sat net'.cells v → Sat net.cells v) →
    P net → P net'

theorem Den.transfers (s : Sig) (f : (Nat → Bool) → Bool) : Transfers fun net => Den net s f :=
  fun _ _ hlen hsat h => ⟨hlen ▸ h.1, fun v hv => h.2 v (hsat v hv)⟩

/-- What a builder appends to a netlist of inputs, it appends to every netlist of its size. -/
theorem Emits.appends {x : Build α} (hx : Oblivious x) {net : Netlist} {fan k : Nat}
    {Q : α → Netlist → Prop} (h : Emits 0 fan x k (blank net.cells.length) Q) :
    ∃ a bs, x net = some (a, net.extend bs) ∧ Forward net.cells.length bs ∧
      Q a ((blank net.cells.length).extend bs) := by
  obtain ⟨a, net0', h1, hg, -, -, hq⟩ := h
  obtain ⟨r, hr⟩ := hx net.cells.length
  rw [hr _ (blank_length _)] at h1
  cases r with
  | none => cases h1
  | some p =>
    obtain ⟨a', bs⟩ := p
    cases h1
    have hf := hg.forward
    rw [blank_length] at hf
    exact ⟨a', bs, by rw [hr net rfl]; rfl, hf, hq⟩

/-- **What is shown of a netlist of inputs holds of every netlist of its size.** -/
theorem Emits.anywhere {x : Build α} (hx : Oblivious x) {net : Netlist} {fan k : Nat}
    {Q : α → Netlist → Prop} (hQ : ∀ a, Transfers (Q a))
    (h : Emits 0 fan x k (blank net.cells.length) Q) : Yields x net Q := by
  obtain ⟨a, bs, hrun, -, hq⟩ := h.appends hx
  refine ⟨a, net.extend bs, hrun, ?_, hQ a _ _ (by simp [extend_length])
    (fun v => Sat.of_inputs (blank_length _).symm (blank_inputs _)) hq⟩
  obtain ⟨l, hl, -⟩ := extend_cells bs net
  exact hl ▸ List.prefix_append _ _

theorem Yields.mono {x : Build α} {net : Netlist} {Q R : α → Netlist → Prop} (h : Yields x net Q)
    (hqr : ∀ a net', net.cells <+: net'.cells → Q a net' → R a net') : Yields x net R := by
  obtain ⟨a, net', hx, hp, hq⟩ := h
  exact ⟨a, net', hx, hp, hqr a net' hp hq⟩

/-! ## The look-ahead -/

/-- A signal of a cell the netlist has. -/
def Has (net : Netlist) (s : Sig) : Prop := s.cell < net.cells.length

/-- A signal denotes its own reading. -/
theorem Has.den {net net0 : Netlist} {s : Sig} (h : Has net s)
    (hlen : net0.cells.length = net.cells.length) : Den net0 s (s.val ·) :=
  ⟨hlen ▸ h, fun _ _ => rfl⟩

theorem claBorrow_yields {net : Netlist} {G P : Nat → Sig} {r : Sig} {k : Nat}
    (hG : ∀ j < k, Has net (G j)) (hP : ∀ j < k, Has net (P j)) (hr : Has net r) :
    Yields (claBorrow G P r k) net fun s net' => Den net' s fun v =>
      ripple (fun j => (G j).val v) (fun j => (P j).val v) (r.val v) k :=
  Emits.anywhere (oblivious_claBorrow G P r k) (fun _ => Den.transfers _ _)
    (claBorrow_emits (blank_good (k + 1) _) le_rfl (fun j hj => (hG j hj).den (blank_length _))
      (fun j hj => (hP j hj).den (blank_length _)) (hr.den (blank_length _)))

theorem claGroup_yields {net : Netlist} {G P : Nat → Sig} (hG : ∀ j < 4, Has net (G j))
    (hP : ∀ j < 4, Has net (P j)) : Yields (claGroup G P) net fun s net' =>
      Has net' s.1 ∧ Has net' s.2 ∧ ∀ v, Sat net'.cells v → ∀ r : Bool,
        (s.1.val v || (s.2.val v && r)) =
          ripple (fun j => (G j).val v) (fun j => (P j).val v) r 4 := by
  refine (Emits.anywhere (oblivious_claGroup G P) (fun s net net' hlen hsat h =>
    ⟨Den.transfers _ _ net net' hlen hsat h.1, Den.transfers _ _ net net' hlen hsat h.2⟩)
    (claGroup_emits (blank_good 4 _) le_rfl (fun j hj => (hG j hj).den (blank_length _))
      fun j hj => (hP j hj).den (blank_length _))).mono fun s net' _ h => ?_
  refine ⟨h.1.1, h.2.1, fun v hv r => ?_⟩
  rw [h.1.2 v hv, h.2.2 v hv]
  exact (ripple_eq_or 4).symm

/-! ## The lane -/

/-- The constant zero of the lane, then the borrows into the groups. -/
theorem laneBorrow_yields {net : Netlist} {digit : Nat} {g p : Nat → Sig} {b : Sig}
    (hd : digit % 16 = 0) (hd4 : digit / 16 ≤ 4) (hg : ∀ j < digit, Has net (g j))
    (hp : ∀ j < digit, Has net (p j)) (hb : Has net b) :
    Yields (do laneBorrow digit g p (← andOf [b, b.not])) net fun bgrp net' =>
      ∀ k < digit / 4, Den net' (bgrp k) fun v =>
        ripple (fun j => (g j).val v) (fun j => (p j).val v) false (4 * k) := by
  have hlen : (blank net.cells.length).cells.length = net.cells.length := blank_length _
  have hgood := blank_good 8 net.cells.length
  refine Emits.anywhere ((oblivious_andOf _).bind fun _ => oblivious_laneBorrow _ _ _ _)
    (fun bgrp net1 net2 hl hsat h k hk => Den.transfers _ _ net1 net2 hl hsat (h k hk))
    (Emits.bind (m := borrowCost digit) (andOf_emits hgood (by simp) (by simp) ?_)
      fun z net1 hg1 hp1 hz => ?_)
  · simpa [hlen, Has] using hb
  · refine laneBorrow_emits hd hd4 hg1 (by omega) (fun j hj => ((hg j hj).den hlen).extend hp1)
      (fun j hj => ((hp j hj).den hlen).extend hp1) (hz.congr fun v _ => ?_)
    simp

/-- What `buildLane` leaves after `net`: fresh input cells, one pair for each bit, whose bits may be any
`a` and `b`; the sum signals are the bits of `b - a`, and `isJmp` says it is zero or negative. -/
structure Subtractor (digit : Nat) (net : Netlist) (ln : Lane) (net' : Netlist) : Prop where
  cells : ∀ i < digit, ln.ain i = net.cells.length + 2 * i ∧ ln.bin i = net.cells.length + 2 * i + 1
  inputs : ∀ i < digit, IsInput net' (ln.ain i) ∧ IsInput net' (ln.bin i)
  has : (∀ i < digit, Has net' (ln.sum i)) ∧ Has net' ln.isJmp
  sum : ∀ v, Sat net'.cells v → ∀ a b : BitVec digit,
    (∀ j < digit, v (ln.ain j) = a.getLsbD j ∧ v (ln.bin j) = b.getLsbD j) →
      (∀ i < digit, (ln.sum i).val v = (b - a).getLsbD i) ∧ ln.isJmp.val v = decide ((b - a).toInt ≤ 0)
  free : Closed net.cells → ∀ v, Sat net.cells v → ∀ a b : BitVec digit,
    ∃ v', Sat net'.cells v' ∧ (∀ i < net.cells.length, v' i = v i) ∧
      ∀ j < digit, v' (ln.ain j) = a.getLsbD j ∧ v' (ln.bin j) = b.getLsbD j

theorem buildLane_yields {net : Netlist} {digit : Nat} (hd : digit % 16 = 0)
    (hd4 : digit / 16 ≤ 4) (h0 : 0 < digit) : Yields (buildLane digit) net (Subtractor digit net) := by
  have hlen : (blank net.cells.length).cells.length = net.cells.length := blank_length _
  obtain ⟨ln, bs, hrun, hf, hcells, hinputs, hsum, -, hjmp⟩ := Emits.appends (oblivious_buildLane digit)
    (buildLane_emits hd hd4 h0 le_rfl (blank_good 8 net.cells.length))
  rw [hlen] at hcells
  have hden : ∀ {s : Sig} {f : (Nat → Bool) → Bool}, Den ((blank net.cells.length).extend bs) s f →
      Den (net.extend bs) s f := fun {s f} h => Den.transfers s f _ _ (by simp [extend_length])
    (fun v => Sat.of_inputs hlen.symm (blank_inputs _)) h
  have hinputs' : ∀ i < digit, IsInput (net.extend bs) (ln.ain i) ∧ IsInput (net.extend bs) (ln.bin i) := by
    intro i hi
    obtain ⟨ha, hb⟩ := hcells i hi
    exact ⟨(hinputs i hi).1.anywhere hlen.symm (by omega), (hinputs i hi).2.anywhere hlen.symm (by omega)⟩
  refine ⟨ln, net.extend bs, hrun, ?_, hcells, hinputs', ⟨fun i hi => (hden (hsum i hi).2).1, (hden hjmp).1⟩,
    fun v hv a b hab => ⟨fun i hi => ?_, ?_⟩, fun hc v hv a b => ?_⟩
  · obtain ⟨l, hl, -⟩ := extend_cells bs net
    exact hl ▸ List.prefix_append _ _
  · rw [(hden (hsum i hi).2).2 v hv]
    exact (diffBit_congr hi (fun j hj => (hab j hj).1) fun j hj => (hab j hj).2).trans (diffBit_eq a b hi)
  · rw [(hden hjmp).2 v hv]
    exact diffBit_nonPositive h0 (fun j hj => (hab j hj).1) fun j hj => (hab j hj).2
  · let bits (i : Nat) : Bool :=
      if (i - net.cells.length) % 2 = 0 then a.getLsbD ((i - net.cells.length) / 2)
      else b.getLsbD ((i - net.cells.length) / 2)
    obtain ⟨v', hv', hold, hin⟩ := Forward.exists_sat bs hf hc hv bits
    refine ⟨v', hv', hold, fun j hj => ?_⟩
    obtain ⟨ha, hb⟩ := hcells j hj
    rw [hin _ (by omega) (hinputs' j hj).1, hin _ (by omega) (hinputs' j hj).2, ha, hb]
    constructor
    · show (if (net.cells.length + 2 * j - net.cells.length) % 2 = 0 then _ else _) = _
      rw [Nat.add_sub_cancel_left, if_pos (by omega), Nat.mul_div_cancel_left j (by decide)]
    · show (if (net.cells.length + 2 * j + 1 - net.cells.length) % 2 = 0 then _ else _) = _
      rw [Nat.add_assoc, Nat.add_sub_cancel_left, if_neg (by omega), show (2 * j + 1) / 2 = j by omega]

/-- **The hierarchical look-ahead is the ripple chain**, on every netlist: `claBorrow` for any
signals, `claGroup` for any incoming borrow, the borrow `buildLane` feeds to each bit, and the
lane as a subtractor. -/
theorem lookahead_ripple (net : Netlist) :
    (∀ (G P : Nat → Sig) (r : Sig) (k : Nat), (∀ j < k, Has net (G j)) → (∀ j < k, Has net (P j)) →
      Has net r → Yields (claBorrow G P r k) net fun s net' => Den net' s fun v =>
        ripple (fun j => (G j).val v) (fun j => (P j).val v) (r.val v) k) ∧
    (∀ G P : Nat → Sig, (∀ j < 4, Has net (G j)) → (∀ j < 4, Has net (P j)) →
      Yields (claGroup G P) net fun s net' =>
        Has net' s.1 ∧ Has net' s.2 ∧ ∀ v, Sat net'.cells v → ∀ r : Bool,
          (s.1.val v || (s.2.val v && r)) =
            ripple (fun j => (G j).val v) (fun j => (P j).val v) r 4) ∧
    (∀ digit : Nat, digit % 16 = 0 → digit / 16 ≤ 4 → 0 < digit →
      (∀ (g p : Nat → Sig) (b : Sig), (∀ j < digit, Has net (g j)) → (∀ j < digit, Has net (p j)) →
        Has net b → Yields (do laneBorrow digit g p (← andOf [b, b.not])) net fun bgrp net' =>
          ∀ i < digit, ∀ net'' : Netlist, net'.cells <+: net''.cells →
            Yields (claBorrow (fun j => g (4 * (i / 4) + j)) (fun j => p (4 * (i / 4) + j))
              (bgrp (i / 4)) (i % 4)) net'' fun s net3 => Den net3 s fun v =>
                ripple (fun j => (g j).val v) (fun j => (p j).val v) false i) ∧
      Yields (buildLane digit) net (Subtractor digit net)) := by
  refine ⟨fun G P r k hG hP hr => claBorrow_yields hG hP hr,
    fun G P hG hP => claGroup_yields hG hP, fun digit hd hd4 h0 =>
      ⟨fun g p b hg hp hb => ?_, buildLane_yields hd hd4 h0⟩⟩
  · refine (laneBorrow_yields hd hd4 hg hp hb).mono fun bgrp net' hpre h i hi net'' hpre' => ?_
    have hhas : ∀ s, Has net s → Has net'' s := fun s hs =>
      hs.trans_le (hpre.trans hpre').length_le
    have hk := (h (i / 4) (by omega)).extend hpre'
    refine (claBorrow_yields (fun j hj => hhas _ (hg _ (by omega)))
      (fun j hj => hhas _ (hp _ (by omega))) hk.1).mono fun s net3 hpre3 hs =>
        hs.congr fun v hv => ?_
    have hsplit := ripple_add (G := fun j => (g j).val v) (P := fun j => (p j).val v) (r := false)
      (4 * (i / 4)) (i % 4)
    rw [Nat.div_add_mod] at hsplit
    rw [hk.2 v (hv.restrict hpre3), hsplit]

/-- On a netlist of three inputs: two positions between negated signals, and a lane at the width of
the source, with `a` = 5 and `b` = 3 on its inputs. -/
theorem lookahead_ripple_digit :
    (Yields (claBorrow (fun j => ⟨j, true⟩) (fun j => ⟨j, false⟩) ⟨2, true⟩ 2) (blank 3)
      fun s net' => Den net' s fun v => ripple (fun j => Sig.val v ⟨j, true⟩)
        (fun j => Sig.val v ⟨j, false⟩) (Sig.val v ⟨2, true⟩) 2) ∧
    Yields (buildLane DIGIT) (blank 3) (Subtractor DIGIT (blank 3)) ∧
    ∃ ln net' v, buildLane DIGIT (blank 3) = some (ln, net') ∧ Sat net'.cells v ∧
      (∀ j < DIGIT, v (ln.ain j) = BitVec.getLsbD 5#64 j ∧ v (ln.bin j) = BitVec.getLsbD 3#64 j) ∧
      (∀ i < DIGIT, (ln.sum i).val v = BitVec.getLsbD (-2#64) i) ∧ ln.isJmp.val v = true := by
  have h3 : (blank 3).cells.length = 3 := blank_length 3
  obtain ⟨hcla, -, hlane⟩ := lookahead_ripple (blank 3)
  have hsub := (hlane DIGIT (by decide) (by decide) (by decide)).2
  refine ⟨hcla _ _ _ 2 (fun j hj => ?_) (fun j hj => ?_) ?_, hsub, ?_⟩
  · show j < _
    omega
  · show j < _
    omega
  · show 2 < _
    omega
  · obtain ⟨ln, net', hrun, -, h⟩ := hsub
    have hinputs : Sat (blank 3).cells fun _ => false := fun i c hc hn =>
      absurd (blank_inputs 3 c (List.mem_of_getElem? hc)) hn
    have hclosed : Closed (blank 3).cells := by
      unfold Closed
      decide
    obtain ⟨v, hv, -, hab⟩ := h.free hclosed _ hinputs 5#64 3#64
    exact ⟨ln, net', v, hrun, hv, hab, h.sum v hv _ _ hab⟩

end NandServer.Netlist
