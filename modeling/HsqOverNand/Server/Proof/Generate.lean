import HsqOverNand.Server.Proof.Column
import HsqOverNand.Server.Proof.Lane

/-!
# The generated round

`romInit_spec`: `rom_init` passes all its `assert`s and yields the microcode of one round
(`RoundCode`): the netlist of the two lanes, its schedule, and the operations emitted for it, linked
by their `next` addresses.
-/

set_option autoImplicit false

namespace NandServer

open Netlist

/-! ## The lanes -/

/-- A lane whose input cells start at `start`. -/
structure LaneOk (start : Nat) (net : Netlist) (ln : Lane) : Prop where
  cells : ∀ i < DIGIT, ln.ain i = start + 2 * i ∧ ln.bin i = start + 2 * i + 1
  input : ∀ i < DIGIT, IsInput net (ln.ain i) ∧ IsInput net (ln.bin i)
  sum : ∀ i < DIGIT, (ln.sum i).inv = false ∧
    Den net (ln.sum i) fun v => diffBit (fun j => v (ln.ain j)) (fun j => v (ln.bin j)) i
  isJmp : ln.isJmp.inv = false ∧ Den net ln.isJmp fun v =>
    (List.range DIGIT).all (fun i => !diffBit (fun j => v (ln.ain j)) (fun j => v (ln.bin j)) i) ||
      diffBit (fun j => v (ln.ain j)) (fun j => v (ln.bin j)) (DIGIT - 1)

theorem LaneOk.extend {start : Nat} {net net' : Netlist} {ln : Lane} (h : LaneOk start net ln)
    (hp : net.cells <+: net'.cells) : LaneOk start net' ln where
  cells := h.cells
  input i hi := ⟨(h.input i hi).1.extend hp, (h.input i hi).2.extend hp⟩
  sum i hi := ⟨(h.sum i hi).1, (h.sum i hi).2.extend hp⟩
  isJmp := ⟨h.isJmp.1, h.isJmp.2.extend hp⟩

theorem buildLane_ok {base : Nat} {net : Netlist} (hg : Good base 8 net) :
    Emits base 8 (buildLane DIGIT) (laneCost DIGIT) net fun ln net' =>
      LaneOk net.cells.length net' ln := by
  have h := @buildLane_emits base 8 net DIGIT (by decide) (by decide) (by decide) (Nat.le_refl 8) hg
  refine Emits.mono h fun ln net' _ hq => ?_
  obtain ⟨hcells, hinput, hsum, hjmp⟩ := hq
  exact ⟨hcells, hinput, hsum, hjmp⟩

theorem run_bind {α β : Type} {x : Build α} {net net' : Netlist} {a : α}
    (h : x net = some (a, net')) (f : α → Build β) : (x >>= f) net = f a net' := by
  show (x net >>= fun p => f p.1 p.2) = _
  rw [h]
  rfl

/-- Both lanes, in one netlist of 1748 cells. -/
theorem buildLanes_spec (base : Nat) : ∃ l0 l1 net, buildLanes (u32 base) = some ([l0, l1], net) ∧
    Good base 8 net ∧ net.cells.length = 1748 ∧ LaneOk 0 net l0 ∧ LaneOk 874 net l1 := by
  obtain ⟨l0, net0, h0, hg0, -, hl0, hok0⟩ := buildLane_ok (good_empty base 8)
  obtain ⟨l1, net1, h1, hg1, hp1, hl1, hok1⟩ := buildLane_ok hg0
  rw [laneCost_digit] at hl0 hl1
  have hlen : net0.cells.length = 874 := by simpa using hl0
  refine ⟨l0, l1, net1, ?_, hg1, by omega, hok0.extend hp1, hlen ▸ hok1⟩
  have hrange : List.range LANES = [0, 1] := rfl
  rw [buildLanes, hrange, List.mapM_cons, List.mapM_cons, List.mapM_nil]
  refine (run_bind h0 _).trans ?_
  refine (run_bind (run_bind h1 _) _).trans ?_
  rfl

/-! ## The netlist -/

section
variable {base fan : Nat} {net : Netlist} (h : Good base fan net)
include h

theorem Netlist.Good.shapeOk : shapeOk net.cells = true := by
  rw [shapeOk_iff]
  intro c hc
  rcases h.kinds c hc with ⟨h1, h2⟩ | ⟨h1, h2, -⟩
  · rwa [if_pos h1]
  · rwa [if_neg (by omega)]

theorem Netlist.Good.raw : Raw net.cells := fun c hc => (h.kinds c hc).imp And.left And.left

theorem Netlist.Good.closed : Closed net.cells := by
  intro c hc w hw
  obtain ⟨i, hi, rfl⟩ := List.mem_iff_getElem.1 hc
  exact (h.topo i _ (List.getElem?_eq_getElem hi) w hw).trans hi

/-- Wires come from earlier cells, so the netlist is well-founded. -/
theorem Netlist.Good.wellFounded : WellFounded (AndNet.Feeds (toNet net.cells)) := by
  refine Subrelation.wf (fun {a b} hf => ?_) Nat.lt_wfRel.wf
  obtain ⟨w, hw, rfl⟩ := feeds_iff.1 hf
  have hb := lt_of_mem_ins hw
  exact h.topo b _ (getElem?_cellOf hb) w hw

theorem Netlist.Good.fan_le : ∀ c ∈ net.cells, c.ins.length ≤ fan := by
  intro c hc
  rcases h.kinds c hc with ⟨-, h2⟩ | ⟨-, -, h2⟩
  · simp [h2]
  · exact h2

/-- Consecutive addresses from a page start stay on the page. -/
theorem Netlist.Good.placed (hb : base % PAGE_SIZ = 0) (h32 : base + PAGE_SIZ ≤ 2 ^ 32)
    (hlen : net.cells.length ≤ PAGE_SIZ) : Placed net.cells base := by
  have haddr : ∀ i < net.cells.length, (cellOf net.cells i).addr = base + i := by
    intro i hi
    rw [h.addrs i _ (getElem?_cellOf hi)]
    have h32 : base + 2048 ≤ 4294967296 := h32
    have hi : i < 2048 := hi.trans_le hlen
    exact u32_of_lt (show base + i < 4294967296 by omega)
  constructor
  · intro i hi
    have hb : base % 2048 = 0 := hb
    have hi' : i < 2048 := hi.trans_le hlen
    rw [haddr i hi]
    show (base + i) / 2048 * 2048 = base
    omega
  · intro i hi k hk he
    rw [haddr i hi, haddr k hk] at he
    omega

end

/-! ## The emitted operations -/

/-- The `GET_IN`s of a lane. -/
def gets (cells : List Cell) (ln : Lane) : List Emit :=
  (List.range DIGIT).map fun i =>
    (.getIn, (cellOf cells (ln.bin i)).addr, (cellOf cells (ln.ain i)).addr)

/-- The `PUSH_OUT`s of lane `l`. -/
def pushes (cells : List Cell) (l : Nat) (ln : Lane) : List Emit :=
  (List.range DIGIT).map fun i => (.pushOut, l, (cellOf cells (ln.sum i).cell).addr)

/-- The `RAISE` of lane `l`. -/
def raises (cells : List Cell) (l : Nat) (ln : Lane) : Emit :=
  (.raise, l, (cellOf cells ln.isJmp.cell).addr)

/-- All operations of a round but the last `RAISE`. -/
def roundInit (cells : List Cell) (last : Int) (l0 l1 : Lane) : List Emit :=
  [(.capIn, 0, 0)] ++ (gets cells l0 ++ gets cells l1) ++ [(.prgNand, RAM, 0)] ++
    emitSteps cells RAM last ++ (pushes cells 0 l0 ++ pushes cells 1 l1) ++ [raises cells 0 l0]

theorem addrOf_pos {net : Netlist} {s : Sig} (h : s.inv = false) :
    net.addrOf s = some (cellOf net.cells s.cell).addr := by
  rw [addrOf, if_pos h]
  rfl

theorem mapM_some {α β : Type} {f : α → Option β} {g : α → β} : ∀ {l : List α},
    (∀ x ∈ l, f x = some (g x)) → l.mapM f = some (l.map g)
  | [], _ => rfl
  | x :: l, h => by
    rw [List.mapM_cons, h x (.head _), mapM_some fun y hy => h y (.tail _ hy)]
    rfl

/-- The `assert`s of `addrOf` pass: output signals are not complemented. -/
theorem emitOutputs_eq {net : Netlist} {l0 l1 : Lane} {n0 n1 : Nat} {net0 : Netlist}
    (h0 : LaneOk n0 net0 l0) (h1 : LaneOk n1 net0 l1) : emitOutputs net [l0, l1] =
      some (pushes net.cells 0 l0 ++ pushes net.cells 1 l1 ++
        [raises net.cells 0 l0, raises net.cells 1 l1]) := by
  have hpush : ∀ {n l : Nat} {ln : Lane}, LaneOk n net0 ln → ((List.range DIGIT).mapM fun i => do
      let a ← net.addrOf (ln.sum i)
      pure (Opcode.pushOut, l, a)) = some (pushes net.cells l ln) := by
    intro n l ln h
    refine mapM_some fun i hi => ?_
    rw [addrOf_pos (h.sum i (List.mem_range.1 hi)).1]
    rfl
  have hz : [l0, l1].zipIdx = [(l0, 0), (l1, 1)] := rfl
  simp only [emitOutputs, hz, List.mapM_cons, List.mapM_nil, hpush h0, hpush h1,
    addrOf_pos h0.isJmp.1, addrOf_pos h1.isJmp.1]
  rfl

theorem emitInputs_eq (cells : List Cell) (l0 l1 : Lane) :
    emitInputs cells [l0, l1] = gets cells l0 ++ gets cells l1 := by
  rw [emitInputs, List.flatMap_cons, List.flatMap_cons, List.flatMap_nil, List.append_nil]
  rfl

/-! ## The image's operations -/

/-- The operations of a round as microcode words: each goes on to the next, the last to 0. -/
structure Linked (rom : List RomT) (es : List Emit) (e : Emit) : Prop where
  len : rom.length = es.length + 1
  size : rom.length * 8 ≤ ROM_SIZE
  link : ∀ i (hi : i < es.length), rom[i]? = some (toRom es[i] (.ofNat 20 (8 * (i + 1))))
  last : rom[es.length]? = some (toRom e 0)

theorem pushOp_foldl : ∀ (es : List Emit) (b : RomBuf), b.romAddr = 8 * b.rom.length →
    8 * (b.rom.length + es.length) < 2 ^ 32 →
    (es.foldl (fun b o => pushOp b o.1 o.2.1 o.2.2) b).rom = b.rom ++ es.zipIdx.map fun p =>
      toRom p.1 (.ofNat 20 (8 * (b.rom.length + p.2 + 1)))
  | [], b, _, _ => by simp
  | e :: es, b, hb, hlt => by
    have hlt : 8 * (b.rom.length + (es.length + 1)) < 4294967296 := hlt
    have haddr : u32 (b.romAddr + 8) = 8 * (b.rom.length + 1) := by
      rw [hb]
      exact u32_of_lt (show 8 * b.rom.length + 8 < 4294967296 by omega)
    have hlen : (pushOp b e.1 e.2.1 e.2.2).rom.length = b.rom.length + 1 := by simp [pushOp]
    rw [List.foldl_cons, pushOp_foldl es _ (haddr.trans (by rw [hlen])) (by
      rw [hlen]
      exact show 8 * (b.rom.length + 1 + es.length) < 4294967296 by omega), hlen]
    rw [List.zipIdx_cons', List.map_cons, List.map_map]
    have hcons : (pushOp b e.1 e.2.1 e.2.2).rom =
        b.rom ++ [toRom e (.ofNat 20 (8 * (b.rom.length + 0 + 1)))] := by
      show b.rom ++ [_] = _
      rw [haddr]
      rfl
    rw [hcons, List.append_assoc, List.singleton_append]
    refine congrArg _ (congrArg _ (List.map_congr_left fun p _ => ?_))
    show toRom p.1 (.ofNat 20 (8 * (b.rom.length + 1 + p.2 + 1))) =
      toRom p.1 (.ofNat 20 (8 * (b.rom.length + (p.2 + 1) + 1)))
    rw [show b.rom.length + 1 + p.2 + 1 = b.rom.length + (p.2 + 1) + 1 by omega]

/-- `rom_init`'s loop: addresses are consecutive and the last operation goes back to 0. -/
theorem linked_foldl {es : List Emit} {e : Emit} (hsize : (es.length + 1) * 8 ≤ ROM_SIZE) {b : RomBuf}
    (hb : b = (es ++ [e]).foldl (fun b o => pushOp b o.1 o.2.1 o.2.2) ⟨[], 0⟩) :
    b.rom.length = es.length + 1 ∧
      Linked (b.rom.modify (b.rom.length - 1) fun o => { o with next := 0 }) es e := by
  have hlt : 8 * (es.length + 1) < 4294967296 := by
    have : (es.length + 1) * 8 ≤ 655360 := hsize
    omega
  have hrom : b.rom = (es ++ [e]).zipIdx.map fun p => toRom p.1 (.ofNat 20 (8 * (p.2 + 1))) := by
    rw [hb, pushOp_foldl (es ++ [e]) ⟨[], 0⟩ rfl (by simpa using hlt)]
    simp only [List.nil_append, List.length_nil, Nat.zero_add]
  have hlen : b.rom.length = es.length + 1 := by simp [hrom]
  have hat : ∀ i (hi : i < es.length + 1), b.rom[i]? =
      some (toRom ((es ++ [e]).get ⟨i, by simpa using hi⟩) (.ofNat 20 (8 * (i + 1)))) := by
    intro i hi
    rw [hrom, List.getElem?_map, List.getElem?_zipIdx, List.getElem?_eq_getElem (by simpa using hi)]
    simp
  refine ⟨hlen, by simpa using hlen, by simpa [hlen] using hsize, fun i hi => ?_, ?_⟩
  · rw [List.getElem?_modify, hat i (by omega), List.get_eq_getElem, List.getElem_append_left hi]
    simp [show ¬ b.rom.length - 1 = i by omega]
  · rw [List.getElem?_modify, hat es.length (by omega)]
    simp [hlen, toRom]

/-! ## Sizes -/

theorem length_allWrites_le {cells : List Cell} {fan : Nat}
    (h : ∀ i, (cellOf cells i).ins.length ≤ fan) : (allWrites cells).length ≤ cells.length * fan := by
  have : ∀ l : List Nat, (l.flatMap fun i => (cellOf cells i).ins.map (i, ·)).length ≤
      l.length * fan := by
    intro l
    induction l with
    | nil => simp
    | cons i l ih =>
      rw [List.flatMap_cons, List.length_append, List.length_map, List.length_cons, Nat.add_mul,
        Nat.one_mul]
      have := h i
      omega
  have hall := this (List.range cells.length)
  rwa [List.length_range] at hall

theorem length_emitSteps_le (cells : List Cell) (base : Nat) (last : Int) :
    (emitSteps cells base last).length ≤ (allWrites cells).length + (last.toNat - 1) := by
  have hkeys : ((List.range' 2 (last.toNat - 1)).map fun t : Nat => (t : Int)).Nodup :=
    .map (fun _ _ he => Int.ofNat.inj he) List.nodup_range'
  have hperm := (flatMap_filter_perm (fun p : Nat × Write => p.2.step) (allWrites cells) hkeys).length_eq
  rw [List.flatMap_map] at hperm
  have hle := List.length_filter_le (fun p : Nat × Write => decide (p.2.step ∈
    (List.range' 2 (last.toNat - 1)).map fun t : Nat => (t : Int))) (allWrites cells)
  have hsum : ∀ l : List Nat, (l.flatMap fun s : Nat => stepMoves cells (s : Int) ++
      [((.prgNand, base, 0) : Emit)]).length =
        (l.flatMap fun s : Nat => stepWrites cells (s : Int)).length + l.length := by
    intro l
    induction l with
    | nil => rfl
    | cons s l ih =>
      rw [List.flatMap_cons, List.length_append, ih, List.flatMap_cons, List.length_append,
        List.length_append, stepMoves_eq, List.length_map, List.length_singleton, List.length_cons]
      omega
  have hs := hsum (List.range' 2 (last.toNat - 1))
  rw [List.length_range'] at hs
  rw [emitSteps, hs]
  exact Nat.add_le_add_right (hperm.trans_le hle) _

/-! ## `rom_init` -/

/-- The microcode `rom` of a round: lanes `l0`, `l1` in the netlist `net`, scheduled as `cells`. -/
structure RoundCode (rom : List RomT) (net : Netlist) (cells : List Cell) (last : Int) (l0 l1 : Lane) :
    Prop where
  good : Good RAM 8 net
  len : net.cells.length = 1748
  lane0 : LaneOk 0 net l0
  lane1 : LaneOk 874 net l1
  sched : Scheduled net.cells cells last
  linked : Linked rom (roundInit cells last l0 l1) (raises cells 1 l1)

theorem roundInit_length (cells : List Cell) (last : Int) (l0 l1 : Lane) :
    (roundInit cells last l0 l1).length = 259 + (emitSteps cells RAM last).length := by
  simp only [roundInit, gets, pushes, List.length_append, List.length_map, List.length_range,
    List.length_cons, List.length_nil]
  have hd : DIGIT = 64 := rfl
  omega

theorem u32_ram : u32 RAM = RAM := by decide

theorem pageBase_ram : u32 (u32 (RAM + PAGE_SIZ - 1) / PAGE_SIZ * PAGE_SIZ) = RAM := by decide

theorem usub_cells : usub (u32 (RAM + 1748)) RAM ≤ PAGE_SIZ := by decide

theorem buildRound_eq {calcAddr pageBase : Nat} {lanes : List Lane} {net net' : Netlist} {last : Int}
    {outs : List Emit}
    (hpage : u32 (u32 (calcAddr + PAGE_SIZ - 1) / PAGE_SIZ * PAGE_SIZ) = pageBase)
    (hlanes : buildLanes pageBase = some (lanes, net)) (hsched : net.schedule = some (net', last))
    (hfit : usub net'.calcAddr pageBase ≤ PAGE_SIZ) (houts : emitOutputs net' lanes = some outs) :
    buildRound calcAddr = some ([(.capIn, 0, 0)] ++ emitInputs net'.cells lanes ++
      [(.prgNand, pageBase, 0)] ++ emitSteps net'.cells pageBase last ++ outs, net'.calcAddr) := by
  unfold buildRound
  simp only [hpage]
  rw [hlanes, Option.bind_eq_bind, Option.bind_some]
  simp only [hsched]
  rw [Option.bind_eq_bind, Option.bind_some]
  simp only []
  rw [if_pos hfit, houts]
  rfl

/-- **`rom_init` succeeds**, whatever the globals were. -/

theorem romInit_spec : ∃ rom g' net cells last l0 l1,
    RoundCode rom net cells last l0 l1 ∧ ∀ g, romInit g = some (rom, g') := by
  obtain ⟨l0, l1, net, hlanes, hg, hlen, h0, h1⟩ := buildLanes_spec RAM
  obtain ⟨cells, last, hsched, hs⟩ :=
    schedule_spec (a := net.calcAddr) hg.shapeOk hg.raw hg.closed hg.wellFounded
  have hins : ∀ i, (cellOf cells i).ins.length ≤ 8 := by
    intro i
    have hp := (hs.src_perm i).length_eq
    rw [List.length_map, List.length_map] at hp
    rw [hp]
    rcases Nat.lt_or_ge i net.cells.length with hi | hi
    · exact hg.fan_le _ (cellOf_mem hi)
    · rw [cellOf_default hi]
      exact Nat.zero_le _
  have hall := length_allWrites_le hins
  have hlast := hs.bound 8 hg.fan_le
  have hsteps := length_emitSteps_le cells RAM last
  rw [hs.len, hlen] at hall
  rw [hlen] at hlast
  have hsize : ((roundInit cells last l0 l1).length + 1) * 8 ≤ ROM_SIZE := by
    rw [roundInit_length]
    show _ ≤ 655360
    omega
  have hfit : usub net.calcAddr RAM ≤ PAGE_SIZ := by
    rw [hg.next, hlen]
    exact usub_cells
  rw [u32_ram] at hlanes
  have hround : buildRound RAM =
      some (roundInit cells last l0 l1 ++ [raises cells 1 l1], net.calcAddr) := by
    rw [buildRound_eq pageBase_ram hlanes hsched hfit (emitOutputs_eq h0 h1), emitInputs_eq]
    simp only [roundInit, List.append_assoc, List.cons_append, List.nil_append]
  obtain ⟨b, hb⟩ : ∃ b, b = (roundInit cells last l0 l1 ++ [raises cells 1 l1]).foldl
    (fun b o => pushOp b o.1 o.2.1 o.2.2) (⟨[], 0⟩ : RomBuf) := ⟨_, rfl⟩
  obtain ⟨hblen, hlink⟩ := linked_foldl hsize hb
  refine ⟨_, ⟨b.romAddr, net.calcAddr⟩, net, cells, last, l0, l1, ⟨hg, hlen, h0, h1, hs, hlink⟩,
    fun g => ?_⟩
  simp only [romInit, hround, Option.bind_eq_bind, Option.bind_some, ← hb, hblen, hsize, if_true,
    Option.pure_def]

end NandServer
