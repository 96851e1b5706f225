import HsqOverNand.Lib.AndNet
import HsqOverNand.Server.Rom

/-!
# What the netlist builders emit

`Emits base fan x k net Q`: from the netlist `net`, the builder `x` passes its `assert`s, appends
exactly `k` cells, leaves the earlier cells alone, keeps the netlist `Good base fan` and ends in
`Q`. Rules:
`Emits.pure`, `Emits.bind`, `Emits.mapM`, `Emits.gate` (a cell and its wires). The gates' results are
stated with `Den net s f`: in every valuation of the cells (`Sat`) the signal `s` has the value `f`.
-/

set_option autoImplicit false

namespace NandServer

/-- Value of a signal under a valuation of the cells. -/
def Sig.val (v : Nat → Bool) (s : Sig) : Bool := AndNet.lit v (s.cell, s.inv)

@[simp] theorem Sig.val_not (v : Nat → Bool) (s : Sig) : s.not.val v = !s.val v := by
  simp only [Sig.val, Sig.not, AndNet.lit]
  cases v s.cell <;> cases s.inv <;> rfl

@[simp] theorem Sig.cell_not (s : Sig) : s.not.cell = s.cell := rfl

@[simp] theorem Sig.val_pos (v : Nat → Bool) (c : Nat) : Sig.val v ⟨c, false⟩ = v c := by
  simp [Sig.val, AndNet.lit]

theorem Sig.val_inv (v : Nat → Bool) (c : Nat) : Sig.val v ⟨c, true⟩ = !v c := by
  simp [Sig.val, AndNet.lit]

/-- `wire`'s third argument complements the source. -/
theorem Sig.val_bne (v : Nat → Bool) (s : Sig) (inv : Bool) :
    Sig.val v ⟨s.cell, s.inv != inv⟩ = (s.val v != inv) := by
  simp only [Sig.val, AndNet.lit]
  cases v s.cell <;> cases s.inv <;> cases inv <;> rfl

namespace Netlist

/-- `v` gives every cell but the inputs the AND of its wires. -/
def Sat (cells : List Cell) (v : Nat → Bool) : Prop :=
  ∀ (i : Nat) (c : Cell), cells[i]? = some c → c.complete ≠ 1 → v i = c.ins.all fun w => w.src.val v

theorem Sat.restrict {cells cells' : List Cell} {v : Nat → Bool} (h : Sat cells' v)
    (hp : cells <+: cells') : Sat cells v := by
  intro i c hc hn
  refine h i c ?_ hn
  obtain ⟨l, rfl⟩ := hp
  rw [List.getElem?_append_left (List.getElem?_eq_some_iff.1 hc).1, hc]

theorem getElem?_concat_cases {α : Type} {l : List α} {x c : α} {i : Nat}
    (h : (l ++ [x])[i]? = some c) : l[i]? = some c ∨ (i = l.length ∧ x = c) := by
  rw [List.getElem?_append] at h
  split at h
  · exact .inl h
  · rename_i hi
    rw [List.getElem?_singleton] at h
    split at h
    · exact .inr ⟨by omega, Option.some.inj h⟩
    · cases h

theorem modify_length_concat {α : Type} (l : List α) (x : α) (f : α → α) :
    (l ++ [x]).modify l.length f = l ++ [f x] := by
  induction l with
  | nil => rfl
  | cons a l ih => simp [ih]

/-- A netlist whose builder started at address `base`: consecutive addresses, wires from earlier
cells only, inputs without wires and other cells with one to `fan`. -/
structure Good (base fan : Nat) (net : Netlist) : Prop where
  addrs : ∀ (i : Nat) (c : Cell), net.cells[i]? = some c → c.addr = u32 (base + i)
  next : net.calcAddr = u32 (base + net.cells.length)
  topo : ∀ (i : Nat) (c : Cell), net.cells[i]? = some c → ∀ w ∈ c.ins, w.src.cell < i
  kinds : ∀ c ∈ net.cells, (c.complete = 1 ∧ c.ins = []) ∨
    (c.complete = -1 ∧ c.ins ≠ [] ∧ c.ins.length ≤ fan)

theorem good_empty (base fan : Nat) : Good base fan ⟨[], u32 base⟩ where
  addrs := by simp
  next := rfl
  topo := by simp
  kinds := by simp

/-- Appending a cell at the next address. -/
theorem Good.push {base fan : Nat} {net : Netlist} (h : Good base fan net) {l : List Write} {k : Int}
    (htopo : ∀ w ∈ l, w.src.cell < net.cells.length)
    (hk : (k = 1 ∧ l = []) ∨ (k = -1 ∧ l ≠ [] ∧ l.length ≤ fan)) :
    Good base fan ⟨net.cells ++ [⟨net.calcAddr, l, k⟩], u32 (net.calcAddr + 1)⟩ where
  addrs := by
    intro i c hc
    rcases getElem?_concat_cases hc with hc | ⟨rfl, rfl⟩
    · exact h.addrs i c hc
    · exact h.next
  next := by simp [h.next, u32, Nat.add_assoc]
  topo := by
    intro i c hc
    rcases getElem?_concat_cases hc with hc | ⟨rfl, rfl⟩
    · exact h.topo i c hc
    · exact htopo
  kinds := by
    intro c hc
    rcases List.mem_append.1 hc with hc | hc
    · exact h.kinds c hc
    · rw [List.mem_singleton.1 hc]
      exact hk

/-! ## The builder predicate -/

variable {base fan : Nat} {α β : Type}

/-- See the module doc. -/
def Emits (base fan : Nat) (x : Build α) (k : Nat) (net : Netlist) (Q : α → Netlist → Prop) : Prop :=
  ∃ a net', x net = some (a, net') ∧ Good base fan net' ∧ net.cells <+: net'.cells ∧
    net'.cells.length = net.cells.length + k ∧ Q a net'

/-- Kept when cells are appended. -/
def Stable (P : Netlist → Prop) : Prop :=
  ∀ net net', net.cells <+: net'.cells → P net → P net'

theorem Stable.const (p : Prop) : Stable fun _ => p := fun _ _ _ h => h

theorem Stable.and {P Q : Netlist → Prop} (hP : Stable P) (hQ : Stable Q) :
    Stable fun net => P net ∧ Q net :=
  fun net net' hp h => ⟨hP net net' hp h.1, hQ net net' hp h.2⟩

theorem Emits.pure {net : Netlist} {Q : α → Netlist → Prop} (hg : Good base fan net) (a : α)
    (h : Q a net) : Emits base fan (pure a) 0 net Q :=
  ⟨a, net, rfl, hg, List.prefix_rfl, rfl, h⟩

theorem Emits.bind {net : Netlist} {x : Build α} {f : α → Build β} {k m : Nat}
    {Q : α → Netlist → Prop} {R : β → Netlist → Prop} (hx : Emits base fan x k net Q)
    (hf : ∀ a net', Good base fan net' → net.cells <+: net'.cells → Q a net' →
      Emits base fan (f a) m net' R) : Emits base fan (x >>= f) (k + m) net R := by
  obtain ⟨a, net1, h1, hg1, hp1, hl1, hq⟩ := hx
  obtain ⟨b, net2, h2, hg2, hp2, hl2, hr⟩ := hf a net1 hg1 hp1 hq
  refine ⟨b, net2, ?_, hg2, hp1.trans hp2, by omega, hr⟩
  show (x net >>= fun p => f p.1 p.2) = _
  rw [h1]
  exact h2

theorem Emits.mono {net : Netlist} {x : Build α} {k : Nat} {Q R : α → Netlist → Prop}
    (h : Emits base fan x k net Q)
    (hqr : ∀ a net', net.cells <+: net'.cells → Q a net' → R a net') :
    Emits base fan x k net R := by
  obtain ⟨a, net', h1, hg, hp, hl, hq⟩ := h
  exact ⟨a, net', h1, hg, hp, hl, hqr a net' hp hq⟩

/-- A passed `assert`. -/
theorem Emits.cassert {net : Netlist} {c : Prop} [Decidable c] {f : Unit → Build α} {k : Nat}
    {Q : α → Netlist → Prop} (hc : c) (h : Emits base fan (f ()) k net Q) :
    Emits base fan (cassert c >>= f) k net Q := by
  have : (NandServer.cassert c >>= f) = f () := by
    simp [NandServer.cassert, hc]
  rwa [this]

/-- A loop whose body's result is stable. -/
theorem Emits.mapM {f : β → Build α} {cost : β → Nat} {P : β → α → Netlist → Prop}
    (hP : ∀ b a, Stable (P b a)) : ∀ (l : List β) (net : Netlist), Good base fan net →
      (∀ b ∈ l, ∀ net', Good base fan net' → net.cells <+: net'.cells →
        Emits base fan (f b) (cost b) net' (P b)) →
      Emits base fan (l.mapM f) (l.map cost).sum net
        (fun as net' => List.Forall₂ (fun b a => P b a net') l as)
  | [], net, hg, _ => .pure hg [] .nil
  | b :: l, net, hg, hf => by
    rw [List.mapM_cons, List.map_cons, List.sum_cons]
    refine Emits.bind (hf b (.head _) net hg List.prefix_rfl) fun a net1 hg1 hp1 ha => ?_
    have ih := Emits.mapM hP l net1 hg1 fun b' hb' net' hg' hp' =>
      hf b' (.tail _ hb') net' hg' (hp1.trans hp')
    obtain ⟨as, net2, h2, hg2, hp2, hl2, has⟩ := ih
    refine ⟨a :: as, net2, ?_, hg2, hp2, hl2, .cons (hP b a net1 net2 hp2 ha) has⟩
    show (l.mapM f net1 >>= fun p => Option.some (a :: p.1, p.2)) = _
    rw [h2]
    rfl

/-- Pointwise reading of a loop over `range n` through `arr`. -/
theorem forall₂_arr [Inhabited α] {P : Nat → α → Prop} {n : Nat} {as : List α}
    (h : List.Forall₂ P (List.range n) as) {i : Nat} (hi : i < n) : P i (arr as i) := by
  have hl : as.length = n := by rw [← h.length_eq, List.length_range]
  have := (List.forall₂_iff_get.1 h).2 i (by simpa using hi) (by omega)
  simpa [arr, List.getD_eq_getElem?_getD, hl, hi] using this

/-! ## One cell and its wires -/

theorem run_wires {xs : List α} (f : α → Sig) (inv : Bool) (pre : List Cell) (a : Nat) :
    ∀ (c : Cell), (xs.forM fun x => wire pre.length (f x) inv) ⟨pre ++ [c], a⟩ =
      some ((), ⟨pre ++ [{ c with ins := c.ins ++ xs.map fun x =>
        ⟨⟨(f x).cell, (f x).inv != inv⟩, -1⟩ }], a⟩) := by
  induction xs with
  | nil =>
    intro c
    show some ((), (⟨pre ++ [c], a⟩ : Netlist)) = _
    rw [List.map_nil, List.append_nil]
  | cons x xs ih =>
    intro c
    show (wire pre.length (f x) inv ⟨pre ++ [c], a⟩ >>= fun p =>
      (xs.forM fun x => wire pre.length (f x) inv) p.2) = _
    have hw : wire pre.length (f x) inv ⟨pre ++ [c], a⟩ =
        some ((), ⟨pre ++ [{ c with ins := c.ins ++ [⟨⟨(f x).cell, (f x).inv != inv⟩, -1⟩] }],
          a⟩) := by
      show some ((), (⟨(pre ++ [c]).modify pre.length _, a⟩ : Netlist)) = _
      rw [modify_length_concat]
    rw [hw]
    show (xs.forM fun x => wire pre.length (f x) inv) _ = _
    rw [ih]
    simp

/-- A new cell with a wire for each of `xs`. -/
theorem Emits.gate {net : Netlist} {l : List α} {f : α → Sig} {b : Bool} {k : Nat → β}
    (hg : Good base fan net) (hne : l ≠ []) (hlen : l.length ≤ fan)
    (hin : ∀ x ∈ l, (f x).cell < net.cells.length) :
    Emits base fan (do let t ← cell; l.forM fun x => wire t (f x) b; Pure.pure (k t)) 1 net
      (fun r net' => r = k net.cells.length ∧ net.cells.length < net'.cells.length ∧
        ∀ v, Sat net'.cells v → v net.cells.length = l.all fun x => (f x).val v != b) := by
  let ws : List Write := l.map fun x => ⟨⟨(f x).cell, (f x).inv != b⟩, -1⟩
  have hws : ∀ w ∈ ws, w.src.cell < net.cells.length := by
    intro w hw
    obtain ⟨x, hx, rfl⟩ := List.mem_map.1 hw
    exact hin x hx
  refine ⟨k net.cells.length, ⟨net.cells ++ [⟨net.calcAddr, ws, -1⟩], u32 (net.calcAddr + 1)⟩, ?_,
    hg.push hws (.inr ⟨rfl, by simpa [ws] using hne, by simpa [ws] using hlen⟩),
    List.prefix_append _ _, by simp, rfl, by simp, fun v hv => ?_⟩
  · show ((l.forM fun x => wire net.cells.length (f x) b)
      ⟨net.cells ++ [⟨net.calcAddr, [], -1⟩], u32 (net.calcAddr + 1)⟩ >>= fun p => _) = _
    rw [run_wires]
    rfl
  · rw [hv net.cells.length ⟨net.calcAddr, ws, -1⟩ (by simp) (by simp), List.all_map]
    rw [Bool.eq_iff_iff, List.all_eq_true, List.all_eq_true]
    exact forall₂_congr fun x _ => by rw [Function.comp, Sig.val_bne]

/-! ## The gates -/

/-- In every valuation the signal has the value `f`. -/
def Den (net : Netlist) (s : Sig) (f : (Nat → Bool) → Bool) : Prop :=
  s.cell < net.cells.length ∧ ∀ v, Sat net.cells v → s.val v = f v

theorem Den.stable (s : Sig) (f : (Nat → Bool) → Bool) : Stable fun net => Den net s f :=
  fun _ _ hp h => ⟨h.1.trans_le hp.length_le, fun v hv => h.2 v (hv.restrict hp)⟩

theorem Den.extend {net net' : Netlist} {s : Sig} {f : (Nat → Bool) → Bool} (h : Den net s f)
    (hp : net.cells <+: net'.cells) : Den net' s f := Den.stable s f net net' hp h

theorem Den.congr {net : Netlist} {s : Sig} {f g : (Nat → Bool) → Bool} (h : Den net s f)
    (hfg : ∀ v, Sat net.cells v → f v = g v) : Den net s g :=
  ⟨h.1, fun v hv => (h.2 v hv).trans (hfg v hv)⟩

theorem Den.not {net : Netlist} {s : Sig} {f : (Nat → Bool) → Bool} (h : Den net s f) :
    Den net s.not fun v => !f v :=
  ⟨h.1, fun v hv => by rw [Sig.val_not, h.2 v hv]⟩

/-- Cells an AND of `n` signals takes. -/
def andCost (n : Nat) : Nat := if n = 1 then 0 else 1

theorem andOf_emits {net : Netlist} {l : List Sig} (hg : Good base fan net) (hne : l ≠ [])
    (hlen : l.length ≤ fan) (hin : ∀ x ∈ l, x.cell < net.cells.length) :
    Emits base fan (andOf l) (andCost l.length) net
      (fun s net' => Den net' s fun v => l.all (·.val v)) := by
  unfold andOf
  refine Emits.cassert hne ?_
  match l with
  | [x] =>
    exact .pure hg x ⟨hin x (by simp), fun v _ => by simp⟩
  | x :: y :: xs =>
    refine (Emits.gate (k := fun t => (⟨t, false⟩ : Sig)) (f := id) (b := false) hg hne hlen
      hin).mono fun s net' _ h => ?_
    obtain ⟨rfl, hlt, hv⟩ := h
    exact ⟨hlt, fun v hs => by simpa using hv v hs⟩

theorem orOf_emits {net : Netlist} {l : List Sig} (hg : Good base fan net) (h2 : 2 ≤ l.length)
    (hlen : l.length ≤ fan) (hin : ∀ x ∈ l, x.cell < net.cells.length) :
    Emits base fan (orOf l) 1 net
      (fun s net' => s.inv = true ∧ Den net' s fun v => l.any (·.val v)) := by
  unfold orOf
  refine Emits.cassert h2 ?_
  refine (Emits.gate (k := fun t => (⟨t, true⟩ : Sig)) (f := Sig.not) (b := false) hg
    (by rintro rfl; simp at h2) hlen hin).mono fun s net' _ h => ?_
  obtain ⟨rfl, hlt, hv⟩ := h
  refine ⟨rfl, hlt, fun v hs => ?_⟩
  rw [Sig.val_inv, hv v hs, List.not_all_eq_any_not]
  simp

theorem xorOf_emits {net : Netlist} {a b : Sig} {f g : (Nat → Bool) → Bool} (hf : 2 ≤ fan)
    (hg : Good base fan net) (ha : Den net a f) (hb : Den net b g) :
    Emits base fan (xorOf a b) 3 net
      (fun s net' => s.inv = false ∧ Den net' s fun v => f v ^^ g v) := by
  unfold xorOf
  refine Emits.bind (k := 1) (m := 2) (andOf_emits hg (by simp) hf ?_)
    fun hi net1 hg1 hp1 hhi => ?_
  · simp [ha.1, hb.1]
  refine Emits.bind (k := 1) (m := 1) (andOf_emits hg1 (by simp) hf ?_)
    fun lo net2 hg2 hp2 hlo => ?_
  · simp [(ha.extend hp1).1, (hb.extend hp1).1]
  refine Emits.bind (k := 1) (m := 0) (orOf_emits hg2 (by simp) hf ?_)
    fun o net3 hg3 hp3 ho => ?_
  · simp [(hhi.extend hp2).1, hlo.1]
  refine .pure hg3 _ ⟨by simp [Sig.not, ho.1], ho.2.not.congr fun v hv => ?_⟩
  simp only [List.any_cons, List.any_nil, (hhi.extend (hp2.trans hp3)).2 v hv,
    (hlo.extend hp3).2 v hv, List.all_cons, List.all_nil, Sig.val_not,
    (ha.extend (hp1.trans (hp2.trans hp3))).2 v hv, (hb.extend (hp1.trans (hp2.trans hp3))).2 v hv]
  cases f v <;> cases g v <;> rfl

theorem buf_emits {net : Netlist} {s : Sig} {f : (Nat → Bool) → Bool} (hf : 1 ≤ fan)
    (hg : Good base fan net) (hs : Den net s f) :
    Emits base fan (buf s) s.inv.toNat net (fun s' net' => s'.inv = false ∧ Den net' s' f) := by
  unfold buf
  cases h : s.inv with
  | false => exact .pure hg s ⟨h, hs⟩
  | true =>
    have one : (do let t ← cell; wire t s false; Pure.pure (⟨t, false⟩ : Sig)) =
        (do let t ← cell; [s].forM fun x => wire t x false; Pure.pure ⟨t, false⟩) := by
      simp
    simp only [Bool.true_eq_false, if_false, one, Bool.toNat_true]
    obtain ⟨s', net', h1, hg', hp, hl, rfl, hlt, hv⟩ := Emits.gate (l := [s])
      (k := fun t => (⟨t, false⟩ : Sig)) (f := id) (b := false) hg (by simp) hf
      (by simpa using hs.1)
    refine ⟨_, net', h1, hg', hp, hl, rfl, hlt, fun v hsat => ?_⟩
    rw [Sig.val_pos, hv v hsat]
    simp [hs.2 v (hsat.restrict hp)]

end Netlist

end NandServer
