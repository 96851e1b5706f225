import HsqOverNand.Server.Proof.RoundExec

/-!
# Inside a round

The states `instr^[t] c` of a round, before its last `RAISE`. `exec_edits`: an operation that is not a
`PRG_NAND` leaves the device alone and edits only its own bytes of the buffer. `instr_at`: the state
before instruction `t` is about to fetch operation `t`, with the round's page unchanged.
-/

set_option autoImplicit false

namespace NandServer

open Netlist NandInterface

/-- The addresses an operation edits in the page buffer. -/
def edits (e : Emit) : List Nat :=
  match e.1 with
  | .mov | .invMov => [e.2.1]
  | .getIn => [e.2.2, e.2.1]
  | _ => []

/-- An operation as `fetch` returns it, without the `next`. -/
def RomT.emit (op : RomT) : Emit := (op.code, op.dest.toNat, op.src.toNat)

/-- An operation whose edits and programs stay in the page at `RAM`, and that does not end the round. -/
structure Inside (e : Emit) : Prop extends CPU.Quiet e where
  page : ∀ a ∈ edits e, pageStart a = RAM

theorem edits_toRom {e : Emit} {a : Nat} (ha : a ∈ edits e) (next : BitVec 20) :
    ∃ a' ∈ edits (toRom e next).emit, slot a' = slot a := by
  obtain ⟨op, dest, src⟩ := e
  have h : edits (toRom (op, dest, src) next).emit = (edits (op, dest, src)).map (· % 2 ^ 20) := by
    cases op <;> simp [edits, toRom, RomT.emit]
  rw [h]
  exact ⟨a % 2 ^ 20, List.mem_map_of_mem ha, slot_mod a⟩

namespace CPU

variable {D : Type}

/-! ## Edits -/

/-- `c'` has the device of `c`, and in the buffer of the page at `P` only the bytes of `as` differ. -/
structure OnlyEdits (P : Nat) (as : List Nat) (c c' : CPU D) : Prop where
  nand : c'.nand = c.nand
  view : ∀ i : Fin PAGE_SIZ, (∀ a ∈ as, slot a ≠ i) → (c'.view P).get i = (c.view P).get i
  pre : c.preOffset = P ∨ as ≠ [] → c'.preOffset = P

theorem OnlyEdits.of_page {P : Nat} {c c' : CPU D} (hn : c'.nand = c.nand)
    (hp : c'.preOffset = c.preOffset) (hb : c'.page = c.page) : OnlyEdits P [] c c' where
  nand := hn
  view i _ := by rw [view_congr hp hb]
  pre h := hp.trans (h.resolve_right fun hn => hn rfl)

theorem OnlyEdits.trans {P : Nat} {as bs : List Nat} {c c' c'' : CPU D} (h : OnlyEdits P as c c')
    (h' : OnlyEdits P bs c' c'') : OnlyEdits P (as ++ bs) c c'' where
  nand := h'.nand.trans h.nand
  view i hi := (h'.view i fun a ha => hi a (List.mem_append_right _ ha)).trans
    (h.view i fun a ha => hi a (List.mem_append_left _ ha))
  pre hp := by
    apply h'.pre
    cases bs with
    | nil =>
      rw [List.append_nil] at hp
      exact .inl (h.pre hp)
    | cons b bs => exact .inr (List.cons_ne_nil b bs)

theorem editBuf_edits {P a : Nat} {c : CPU D} (h : pageStart (c.phys a) = P) (v : Byte) :
    OnlyEdits P [a] c (c.editBuf a v) := by
  rw [editBuf_view h]
  refine ⟨rfl, fun i hi => ?_, fun _ => rfl⟩
  rw [view_eq rfl, Vector.get_put]
  exact if_neg fun he => hi a (.head _) (Fin.ext he)

variable [NandInterface D]

theorem getIn_edits {P : Nat} {c : CPU D} (hm : Maps c P) {dest src : Nat}
    (hdest : pageStart dest = RAM) (hsrc : pageStart src = RAM) :
    OnlyEdits P [src, dest] c (c.exec (.getIn, dest, src)) := by
  obtain ⟨l, hl⟩ : ∃ l, getinLane c.getinCnt = l := ⟨_, rfl⟩
  rw [exec_getIn hm hdest hsrc hl]
  refine ⟨rfl, fun i hi => ?_, fun _ => rfl⟩
  rw [view_eq (show (c.gotIn P l dest src).preOffset = P from rfl)]
  refine putBits_other fun e he => ?_
  cases he with
  | head => exact hi src (.head _)
  | tail _ he =>
    rw [List.mem_singleton.1 he]
    exact hi dest (.tail _ (.head _))

/-- **An operation that is not a `PRG_NAND` only edits the buffer.** -/
theorem exec_edits {P : Nat} {c : CPU D} (hm : Maps c P) {e : Emit} (h : Inside e)
    (hne : e.1 ≠ .prgNand) : OnlyEdits P (edits e) c (c.exec e) := by
  obtain ⟨op, dest, src⟩ := e
  have hquiet : OnlyEdits P [] c { c with signal := false } := .of_page rfl rfl rfl
  have hmove : ∀ v, pageStart dest = RAM →
      OnlyEdits P [dest] c (({ c with signal := false }).editBuf (dest % 2 ^ 20) v) := by
    intro v hp
    rw [lt_of_page hp]
    exact hquiet.trans (editBuf_edits (c := { c with signal := false }) (hm dest hp) v)
  cases op with
  | mov => exact hmove _ (h.page dest (.head _))
  | invMov => exact hmove _ (h.page dest (.head _))
  | capIn => exact .of_page rfl rfl rfl
  | pushOut => exact .of_page rfl rfl rfl
  | prgNand => exact absurd rfl hne
  | erase => exact absurd rfl h.erase
  | getIn => exact getIn_edits hm (h.page dest (.tail _ (.head _))) (h.page src (.head _))
  | raise =>
    have he : c.exec (.raise, dest, src) = { c with
        signal := false
        isJmp := c.isJmp.put (laneOf (dest % 2 ^ 20))
          (majorityVote (({ c with signal := false }).read (src % 2 ^ 20))) } := by
      show ({ c with signal := false }).raise (dest % 2 ^ 20) (src % 2 ^ 20) = _
      unfold CPU.raise
      exact if_neg (h.raise rfl)
    rw [he]
    exact .of_page rfl rfl rfl

/-! ## The operations of a round -/

theorem inside_prg : Inside ((.prgNand, RAM, 0) : Emit) :=
  ⟨quiet_prg, by simp [edits]⟩

section
variable {rom : List RomT} {net : Netlist} {cells : List Cell} {last : Int} {l0 l1 : Lane}

theorem inside_roundInit (hc : RoundCode rom net cells last l0 l1) :
    ∀ e ∈ roundInit cells last l0 l1, Inside e := by
  intro e he
  refine ⟨quiet_roundInit cells last l0 l1 e he, ?_⟩
  have hget : ∀ (ln : Lane) {start : Nat}, LaneOk start net ln → ∀ i < DIGIT,
      ∀ a ∈ edits ((.getIn, (cellOf cells (ln.bin i)).addr, (cellOf cells (ln.ain i)).addr) : Emit),
        pageStart a = RAM := by
    intro ln start h i hi a ha
    obtain ⟨h1, h2⟩ := lane_page hc h i hi
    cases ha with
    | head => exact h1
    | tail _ ha => exact List.mem_singleton.1 ha ▸ h2
  rw [roundInit_eq] at he
  simp only [List.mem_append, List.mem_cons, gets, pushes, List.mem_map, emitSteps, List.mem_flatMap,
    List.not_mem_nil, or_false] at he
  rcases he with (rfl | ⟨i, hi, rfl⟩ | ⟨i, hi, rfl⟩) | (rfl | ⟨s, -, hs | rfl⟩) |
    (⟨i, -, rfl⟩ | ⟨i, -, rfl⟩) | rfl
  · simp [edits]
  · exact hget l0 hc.lane0 i (List.mem_range.1 hi)
  · exact hget l1 hc.lane1 i (List.mem_range.1 hi)
  · exact inside_prg.page
  · rw [stepMoves_eq] at hs
    obtain ⟨p, hp, rfl⟩ := List.mem_map.1 hs
    intro a ha
    have hdest : a = (cellOf cells p.1).addr := by
      cases hinv : p.2.src.inv <;> simpa [edits, writeEmit, moveEmit, hinv] using ha
    rw [hdest]
    exact hc.placed.page _ (lt_of_mem_ins (mem_stepWrites.1 hp).1)
  · exact inside_prg.page
  · simp [edits]
  · simp [edits]
  · simp [edits, raises]

/-- The round starts with the `CAP_IN` and a `GET_IN`. -/
theorem roundInit_start (cells : List Cell) (last : Int) (l0 l1 : Lane) : ∃ dest src es,
    roundInit cells last l0 l1 = (.capIn, 0, 0) :: (.getIn, dest, src) :: es := by
  rw [roundInit_eq]
  exact ⟨_, _, _, rfl⟩

/-- The image starts with the `next` of `CAP_IN`. -/
theorem romByte_zero (hc : RoundCode rom net cells last l0 l1) : romByte rom 0 = 0x08 := by
  obtain ⟨dest, src, es, hes⟩ := roundInit_start cells last l0 l1
  have hlen : 0 < (roundInit cells last l0 l1).length := by
    rw [hes]
    exact Nat.succ_pos _
  have h0 := hc.linked.link 0 hlen
  simp only [hes, List.getElem_cons_zero] at h0
  unfold romByte
  rw [Nat.zero_div, h0]
  decide

/-! ## The states of a round -/

/-- The state `X` before instruction `t` of a round that started at `c`, on the page at `P`. -/
structure Mid (Ok : D → Prop) (rom : List RomT) (P : Nat) (c X : CPU D) (t : Nat) : Prop where
  at_t : RomAt rom X t
  ok : Ok X.nand
  pageOffset : X.pageOffset = c.pageOffset
  pre : 2 ≤ t → X.preOffset = P

theorem exec_prg_preOffset (c : CPU D) {e : Emit} (h : e.1 = .prgNand) :
    (c.exec e).preOffset = c.preOffset := by
  obtain ⟨op, dest, src⟩ := e
  cases h
  rfl

variable {Ok : D → Prop} {P : Nat} (hc : RoundCode rom net cells last l0 l1)
  (hd : RomDevice Ok rom) (hok : PageOk Ok P)
include hc hd hok

omit hok in
theorem Mid.fetch {c X : CPU D} {t : Nat} (h : Mid Ok rom P c X t)
    (ht : t < (roundInit cells last l0 l1).length) :
    X.fetch.1 = toRom (roundInit cells last l0 l1)[t] (.ofNat 20 (8 * (t + 1))) := by
  obtain ⟨htl, he⟩ := List.getElem?_eq_some_iff.1 (hc.linked.link t ht)
  rw [fetch_eq hd h.at_t hc.linked.size htl h.ok, he]

theorem Mid.step {c X : CPU D} (hm : Maps c P) {t : Nat} (h : Mid Ok rom P c X t)
    (ht : t < (roundInit cells last l0 l1).length) :
    X.instr = (X.refill.exec (roundInit cells last l0 l1)[t]).setPc (8 * (t + 1)) ∧
      Mid Ok rom P c X.instr (t + 1) := by
  have hsize := hc.linked.size
  have hlink := hc.linked.link t ht
  have htl : t < rom.length := (List.getElem?_eq_some_iff.1 hlink).1
  have hin := inside_roundInit hc _ (List.getElem_mem ht)
  have hnext : (BitVec.ofNat 20 (8 * (t + 1))).toNat = 8 * (t + 1) := by
    have hlt : 8 * (t + 1) < 1048576 := by
      have : rom.length * 8 ≤ 655360 := hsize
      omega
    rw [BitVec.toNat_ofNat]
    exact Nat.mod_eq_of_lt hlt
  have hinstr := instr_eq hd hsize h.at_t hlink h.ok
  rw [hnext] at hinstr
  have hor := (refill_loaded hd h.at_t (by omega) h.ok).1
  have hf := refill_frame X
  have hmr : Maps X.refill P := fun a ha => by
    rw [phys_congr (hf.pageOffset.trans h.pageOffset)]
    exact hm a ha
  obtain ⟨hox, hpo, -⟩ := exec_quiet hok hin.toQuiet hmr hor
  have hat := romAt_next hd hsize h.at_t htl h.ok (roundInit cells last l0 l1)[t]
  refine ⟨hinstr, ?_⟩
  rw [hinstr]
  refine ⟨hat, hox, hpo.trans (hf.pageOffset.trans h.pageOffset), fun h2 => ?_⟩
  show (X.refill.exec (roundInit cells last l0 l1)[t]).preOffset = P
  obtain ⟨dest, src, es, hes⟩ := roundInit_start cells last l0 l1
  rcases Nat.lt_or_ge t 2 with hlt | hge
  · -- the first `GET_IN`
    obtain rfl : t = 1 := by omega
    have he : (roundInit cells last l0 l1)[1] = (.getIn, dest, src) := by simp only [hes]; rfl
    rw [he] at hin ⊢
    exact (exec_edits hmr hin (fun h => nomatch h)).pre (.inr (List.cons_ne_nil _ _))
  · have hpre := hf.preOffset.trans (h.pre hge)
    by_cases hp : (roundInit cells last l0 l1)[t].1 = .prgNand
    · rw [exec_prg_preOffset _ hp, hpre]
    · exact (exec_edits hmr hin hp).pre (.inl hpre)

/-- **The state before each instruction of a round.** -/
theorem instr_at {c : CPU D} (hm : Maps c P) (hpc : c.pc = 0) (ho : Ok c.nand) : ∀ t : Nat,
    t ≤ (roundInit cells last l0 l1).length → Mid Ok rom P c (instr^[t] c) t
  | 0, _ => ⟨⟨hpc, fun h => absurd (show c.pc % PAGE_SIZ = 0 by rw [hpc, Nat.zero_mod]) h⟩, ho, rfl,
      fun h => absurd h (by decide)⟩
  | t + 1, ht => by
    rw [Function.iterate_succ_apply']
    exact ((instr_at hm hpc ho t (Nat.le_of_succ_le ht)).step hc hd hok hm ht).2

end

end CPU

end NandServer
