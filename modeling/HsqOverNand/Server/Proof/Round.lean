import HsqOverNand.Server.Proof.Generate
import HsqOverNand.Server.Proof.Microcode

/-!
# One round

The operations of `build_round` in their four phases, on a device whose bit columns `G` are AND
flash:

* `gets_run`: the `GET_IN`s of a lane put the input bits into the buffer of the round's page.
* `exec_prg`, `emitSteps_column`: the programs compute the network.
* `pushes_run`: the `PUSH_OUT`s of a lane shift the majority of each sum byte into `out`.
* `round_exec`: all operations but the last `RAISE`.
-/

set_option autoImplicit false

namespace NandServer

open Netlist

namespace CPU

variable {D : Type}

/-! ## The buffer of a page -/

/-- The page buffer as an edit of the page at `P` finds it. -/
def view (c : CPU D) (P : Nat) : Vector Byte PAGE_SIZ :=
  if c.preOffset = P then c.page else .replicate PAGE_SIZ 0xff

theorem view_eq {c : CPU D} {P : Nat} (h : c.preOffset = P) : c.view P = c.page := if_pos h

theorem view_new {c : CPU D} {P : Nat} (h : c.preOffset ≠ P) :
    c.view P = .replicate PAGE_SIZ 0xff := if_neg h

theorem view_congr {c c' : CPU D} {P : Nat} (h : c'.preOffset = c.preOffset) (hp : c'.page = c.page) :
    c'.view P = c.view P := by
  simp only [view, h, hp]

theorem editBuf_view {c : CPU D} {P a : Nat} (h : pageStart (c.phys a) = P) (v : Byte) :
    c.editBuf a v = { c with page := (c.view P).put (slot a) v, preOffset := P } := by
  by_cases hp : c.preOffset = P
  · have hne : ¬ P ≠ c.preOffset := fun hne => hne hp.symm
    simp only [editBuf, h, if_neg hne, view_eq hp]
  · have hne : P ≠ c.preOffset := fun he => hp he.symm
    simp only [editBuf, h, if_pos hne, view_new hp]

/-- Bits written into a buffer. -/
def putBits (p : Vector Byte PAGE_SIZ) (es : List (Nat × Bool)) : Vector Byte PAGE_SIZ :=
  es.foldl (fun p e => p.put (slot e.1) (fill e.2)) p

theorem putBits_append (p : Vector Byte PAGE_SIZ) (es es' : List (Nat × Bool)) :
    putBits p (es ++ es') = putBits (putBits p es) es' := List.foldl_append

theorem putBits_other : ∀ {l : List (Nat × Bool)} {p : Vector Byte PAGE_SIZ} {k : Fin PAGE_SIZ},
    (∀ e ∈ l, slot e.1 ≠ k) → (putBits p l).get k = p.get k
  | [], _, _, _ => rfl
  | e :: es, p, k, h => by
    have ih := putBits_other (p := p.put (slot e.1) (fill e.2)) fun e' he' => h e' (.tail _ he')
    refine ih.trans ?_
    rw [Vector.get_put, if_neg fun he => h e (.head _) (Fin.ext he)]

theorem putBits_mem : ∀ {es : List (Nat × Bool)} {p : Vector Byte PAGE_SIZ},
    (es.map fun e => slot e.1).Nodup → ∀ e ∈ es, (putBits p es).get (slot e.1) = fill e.2
  | e :: es, p, hn, e', he' => by
    rw [List.map_cons, List.nodup_cons] at hn
    rcases List.mem_cons.1 he' with rfl | he'
    · have hother := putBits_other (p := p.put (slot e'.1) (fill e'.2)) (k := slot e'.1) fun a ha he =>
        hn.1 (he ▸ List.mem_map_of_mem (f := fun e => slot e.1) ha)
      refine hother.trans ?_
      rw [Vector.get_put, if_pos rfl]
    · exact putBits_mem hn.2 e' he'

/-! ## Changes between two operations -/

/-- The device stays `Ok`, and so do the columns `G` of the page at `P`. -/
structure Kept (mem : D → AndMemory.Mem 8) (Ok : D → Prop) (P : Nat) (G : List Nat) (d d' : D) :
    Prop where
  ok : Ok d → Ok d'
  mem : Ok d → ∀ j ∈ G, ∀ i < PAGE_SIZ, (mem d' (P + i)).getLsbD j = (mem d (P + i)).getLsbD j

theorem Kept.refl {mem : D → AndMemory.Mem 8} {Ok : D → Prop} {P : Nat} {G : List Nat} (d : D) :
    Kept mem Ok P G d d := ⟨id, fun _ _ _ _ _ => rfl⟩

theorem Kept.trans {mem : D → AndMemory.Mem 8} {Ok : D → Prop} {P : Nat} {G : List Nat} {d d' d'' : D}
    (h : Kept mem Ok P G d d') (h' : Kept mem Ok P G d' d'') : Kept mem Ok P G d d'' where
  ok ho := h'.ok (h.ok ho)
  mem ho j hj i hi := (h'.mem (h.ok ho) j hj i hi).trans (h.mem ho j hj i hi)

/-- What the phases need of the change between two operations. -/
structure Calm (mem : D → AndMemory.Mem 8) (Ok : D → Prop) (P : Nat) (G : List Nat) (c c' : CPU D) :
    Prop where
  frame : Frame c c'
  page : c'.page = c.page
  kept : Kept mem Ok P G c.nand c'.nand

/-- What a whole round keeps. -/
structure Keeps (c c' : CPU D) : Prop where
  pageOffset : c'.pageOffset = c.pageOffset
  nandSize : c'.nandSize = c.nandSize
  romSize : c'.romSize = c.romSize

theorem Keeps.refl (c : CPU D) : Keeps c c := ⟨rfl, rfl, rfl⟩

theorem Keeps.trans {c c' c'' : CPU D} (h : Keeps c c') (h' : Keeps c' c'') : Keeps c c'' :=
  ⟨h'.1.trans h.1, h'.2.trans h.2, h'.3.trans h.3⟩

theorem Frame.keeps {c c' : CPU D} (h : Frame c c') : Keeps c c' :=
  ⟨h.pageOffset, h.nandSize, h.romSize⟩

theorem Maps.keeps {c c' : CPU D} {P : Nat} (h : Maps c P) (hk : Keeps c c') : Maps c' P := by
  intro a ha
  rw [phys_congr hk.pageOffset]
  exact h a ha

theorem lt_of_page {a : Nat} (h : pageStart a = RAM) : a % 2 ^ 20 = a := by
  have h : a / 2048 * 2048 = 655360 := h
  have hlt : a < 1048576 := by omega
  exact Nat.mod_eq_of_lt hlt

theorem read_slot (c : CPU D) (src : Nat) : c.read (src % 2 ^ 20) = c.page.get (slot src) := by
  simp only [CPU.read, slot_mod]

/-! ## `GET_IN` -/

section
variable [NandInterface D] {mem : D → AndMemory.Mem 8} {Ok : D → Prop} {P : Nat} {G : List Nat}

theorem lane_eq {n : Nat} {l : Fin LANES} (h : n / DIGIT = l) : getinLane n = l := by
  unfold getinLane
  have hlt : n / DIGIT < LANES := h ▸ l.isLt
  rw [dif_pos hlt]
  exact Fin.ext h

/-- The state after a `CAP_IN`. -/
def capped (c : CPU D) : CPU D := { c with signal := false, getinCnt := 0 }

theorem exec_capIn (c : CPU D) : c.exec (.capIn, 0, 0) = c.capped := rfl

/-- The state after a `GET_IN` for lane `l`. -/
def gotIn (c : CPU D) (P : Nat) (l : Fin LANES) (dest src : Nat) : CPU D :=
  { c with
    signal := false
    getinCnt := u32 (c.getinCnt + 1)
    page := putBits (c.view P) [(src, (c.inA.get l).getLsbD 0), (dest, (c.inB.get l).getLsbD 0)]
    preOffset := P
    inA := c.inA.put l (c.inA.get l >>> 1)
    inB := c.inB.put l (c.inB.get l >>> 1) }

theorem exec_getIn {c : CPU D} (hm : Maps c P) {dest src : Nat} (hdest : pageStart dest = RAM)
    (hsrc : pageStart src = RAM) {l : Fin LANES} (hl : getinLane c.getinCnt = l) :
    c.exec (.getIn, dest, src) = c.gotIn P l dest src := by
  show ({ c with signal := false }).getIn (dest % 2 ^ 20) (src % 2 ^ 20) = _
  rw [lt_of_page hdest, lt_of_page hsrc]
  unfold getIn
  simp only [hl]
  have h1 : ({ c with signal := false, getinCnt := u32 (c.getinCnt + 1) }).editBuf src
      (fill ((c.inA.get l).getLsbD 0)) = { c with
        signal := false, getinCnt := u32 (c.getinCnt + 1), preOffset := P
        page := (c.view P).put (slot src) (fill ((c.inA.get l).getLsbD 0)) } :=
    editBuf_view (c := { c with signal := false, getinCnt := u32 (c.getinCnt + 1) }) (hm src hsrc) _
  simp only [h1]
  have h2 : ({ c with
      signal := false, getinCnt := u32 (c.getinCnt + 1), preOffset := P
      page := (c.view P).put (slot src) (fill ((c.inA.get l).getLsbD 0))
      inA := c.inA.put l (c.inA.get l >>> 1) }).editBuf dest (fill ((c.inB.get l).getLsbD 0)) = { c with
        signal := false, getinCnt := u32 (c.getinCnt + 1), preOffset := P
        page := ((c.view P).put (slot src) (fill ((c.inA.get l).getLsbD 0))).put (slot dest)
          (fill ((c.inB.get l).getLsbD 0))
        inA := c.inA.put l (c.inA.get l >>> 1) } := by
    refine (editBuf_view (c := { c with
      signal := false, getinCnt := u32 (c.getinCnt + 1), preOffset := P
      page := (c.view P).put (slot src) (fill ((c.inA.get l).getLsbD 0))
      inA := c.inA.put l (c.inA.get l >>> 1) }) (hm dest hdest) _).trans ?_
    rw [view_eq rfl]
  simp only [h2]
  rfl

/-- The input bits `s..s + k - 1` of a lane, with their addresses. -/
def laneBits (A B : Nat → Nat) (a b : BitVec 64) (s k : Nat) : List (Nat × Bool) :=
  (List.range' s k).flatMap fun i => [(A i, a.getLsbD i), (B i, b.getLsbD i)]

/-- The `GET_IN`s of bits `s..s + k - 1` of lane `l` have run. -/
structure GetsDone (mem : D → AndMemory.Mem 8) (Ok : D → Prop) (P : Nat) (G : List Nat) (c c' : CPU D)
    (l : Fin LANES) (k : Nat) (bits : List (Nat × Bool)) : Prop where
  keeps : Keeps c c'
  kept : Kept mem Ok P G c.nand c'.nand
  cnt : c'.getinCnt = c.getinCnt + k
  view : c'.view P = putBits (c.view P) bits
  pre : 0 < k → c'.preOffset = P
  inA : ∀ m, m ≠ l → c'.inA.get m = c.inA.get m
  inB : ∀ m, m ≠ l → c'.inB.get m = c.inB.get m

theorem gets_run {l : Fin LANES} {A B : Nat → Nat} (hA : ∀ i < DIGIT, pageStart (A i) = RAM)
    (hB : ∀ i < DIGIT, pageStart (B i) = RAM) {a b : BitVec 64} (k : Nat) : ∀ (s : Nat) {c c' : CPU D},
    s + k ≤ DIGIT → Maps c P → c.getinCnt = DIGIT * l + s → c.inA.get l = a >>> s → c.inB.get l = b >>> s →
    Exec (Calm mem Ok P G) c ((List.range' s k).map fun i => (.getIn, B i, A i)) c' →
    GetsDone mem Ok P G c c' l k (laneBits A B a b s k) := by
  induction k with
  | zero =>
    intro s c c' _ _ _ _ _ he
    cases he
    exact ⟨.refl c, .refl c.nand, rfl, rfl, fun h => absurd h (Nat.lt_irrefl 0), fun _ _ => rfl,
      fun _ _ => rfl⟩
  | succ k ih =>
    intro s c c' hk hm hcnt ha hb he
    rw [List.range'_succ, List.map_cons] at he
    cases he with
    | @cons _ c1 _ _ _ hcalm he =>
      have hf := hcalm.frame
      have hm1 := hm.keeps hf.keeps
      have hk' : s + k + 1 ≤ 64 := hk
      have hl2 : l.val < 2 := l.isLt
      have hcnt' : c.getinCnt = 64 * l.val + s := hcnt
      have hlane : getinLane c1.getinCnt = l := by
        refine lane_eq ?_
        rw [hf.getinCnt]
        show c.getinCnt / 64 = l.val
        omega
      rw [exec_getIn hm1 (hB s (by omega)) (hA s (by omega)) hlane] at he
      have hu : u32 (c1.getinCnt + 1) = DIGIT * l + (s + 1) := by
        rw [hf.getinCnt, hcnt']
        exact u32_of_lt (show 64 * l.val + s + 1 < 4294967296 by omega)
      have hdone := ih (s + 1) (c := c1.gotIn P l (B s) (A s)) (by omega)
        (hm1.keeps ⟨rfl, rfl, rfl⟩) hu (by simp [gotIn, hf.inA, ha, BitVec.shiftRight_add])
        (by simp [gotIn, hf.inB, hb, BitVec.shiftRight_add]) he
      have hbits : laneBits A B a b s (k + 1) =
          [(A s, (c1.inA.get l).getLsbD 0), (B s, (c1.inB.get l).getLsbD 0)] ++
            laneBits A B a b (s + 1) k := by
        simp [laneBits, List.range'_succ, hf.inA, hf.inB, ha, hb]
      have hgot : Keeps c1 (c1.gotIn P l (B s) (A s)) := ⟨rfl, rfl, rfl⟩
      refine ⟨hf.keeps.trans (hgot.trans hdone.keeps), hcalm.kept.trans hdone.kept, ?_, ?_, ?_, ?_,
        ?_⟩
      · rw [hdone.cnt]
        show u32 (c1.getinCnt + 1) + k = _
        rw [hu, hcnt]
        omega
      · rw [hdone.view, hbits, putBits_append, ← view_congr hf.preOffset hcalm.page]
        exact congrArg (putBits · _) (view_eq rfl)
      · intro _
        rcases Nat.eq_zero_or_pos k with rfl | hk0
        · cases he
          rfl
        · exact hdone.pre hk0
      · intro m hml
        rw [hdone.inA m hml, ← hf.inA]
        exact Vector.get_put_ne _ hml _
      · intro m hml
        rw [hdone.inB m hml, ← hf.inB]
        exact Vector.get_put_ne _ hml _

/-! ## `PUSH_OUT` and `RAISE` -/

/-- The top `s` bits of `o` are `bit 0, .., bit (s - 1)`. -/
def ShiftedIn (o : BitVec 64) (bit : Nat → Bool) (s : Nat) : Prop :=
  ∀ i < 64, 64 ≤ i + s → o.getLsbD i = bit (i + s - 64)

theorem ShiftedIn.push {o : BitVec 64} {bit : Nat → Bool} {s : Nat} (h : ShiftedIn o bit s) :
    ShiftedIn (o >>> 1 ||| BitVec.ofNat 64 (bit s).toNat <<< 63) bit (s + 1) := by
  intro i hi hs
  rw [BitVec.getLsbD_or, BitVec.getLsbD_ushiftRight, BitVec.getLsbD_shiftLeft]
  rcases Nat.lt_or_eq_of_le (Nat.le_of_lt_succ hi) with h63 | rfl
  · rw [h (1 + i) (by omega) (by omega)]
    simp [h63, show 1 + i + s - 64 = i + (s + 1) - 64 by omega]
  · have ho : o.getLsbD (1 + 63) = false := BitVec.getLsbD_of_ge o 64 (Nat.le_refl _)
    rw [ho, show 63 + (s + 1) - 64 = s by omega]
    cases bit s <;> decide

/-- The state after a `PUSH_OUT` for lane `l`. -/
def pushed (c : CPU D) (l : Fin LANES) (src : Nat) : CPU D :=
  { c with
    signal := false
    out := c.out.put l (c.out.get l >>> 1 |||
      BitVec.ofNat 64 (majorityVote (c.page.get (slot src))).toNat <<< 63) }

theorem laneOf_val (l : Fin LANES) : laneOf (l.val % 2 ^ 20) = l := by
  have hl : l.val < 2 := l.isLt
  apply Fin.ext
  show l.val % 1048576 % 2 = l.val
  omega

theorem exec_push (c : CPU D) (l : Fin LANES) (src : Nat) :
    c.exec (.pushOut, l, src) = c.pushed l src := by
  show ({ c with signal := false }).pushOut (l.val % 2 ^ 20) (src % 2 ^ 20) = _
  unfold pushOut
  simp only [laneOf_val, read_slot]
  rfl

/-- `PUSH_OUT`s of lane `l` have run. -/
structure PushesDone (mem : D → AndMemory.Mem 8) (Ok : D → Prop) (P : Nat) (G : List Nat)
    (c c' : CPU D) (l : Fin LANES) : Prop where
  keeps : Keeps c c'
  kept : Kept mem Ok P G c.nand c'.nand
  page : c'.page = c.page
  pre : c'.preOffset = c.preOffset
  out : ∀ m, m ≠ l → c'.out.get m = c.out.get m

theorem pushes_run {l : Fin LANES} {S : Nat → Nat} {b : Nat → Bool} (k : Nat) :
    ∀ (s : Nat) {c c' : CPU D}, (∀ i < s + k, majorityVote (c.page.get (slot (S i))) = b i) →
    ShiftedIn (c.out.get l) b s →
    Exec (Calm mem Ok P G) c ((List.range' s k).map fun i => (.pushOut, (l : Nat), S i)) c' →
    PushesDone mem Ok P G c c' l ∧ ShiftedIn (c'.out.get l) b (s + k) := by
  induction k with
  | zero =>
    intro s c c' _ ho he
    cases he
    exact ⟨⟨.refl c, .refl c.nand, rfl, rfl, fun _ _ => rfl⟩, ho⟩
  | succ k ih =>
    intro s c c' hbit ho he
    rw [List.range'_succ, List.map_cons] at he
    cases he with
    | @cons _ c1 _ _ _ hcalm he =>
      have hf := hcalm.frame
      rw [exec_push] at he
      have hout : (c1.pushed l (S s)).out.get l =
          c.out.get l >>> 1 ||| BitVec.ofNat 64 (b s).toNat <<< 63 := by
        simp [pushed, hf.out, hcalm.page, ← hbit s (by omega)]
      obtain ⟨hdone, hend⟩ := ih (s + 1) (c := c1.pushed l (S s))
        (fun i hi => (congrArg (fun p : Vector Byte PAGE_SIZ => majorityVote (p.get (slot (S i))))
          hcalm.page).trans (hbit i (by omega))) (hout ▸ ho.push) he
      have hpushed : Keeps c1 (c1.pushed l (S s)) := ⟨rfl, rfl, rfl⟩
      refine ⟨⟨hf.keeps.trans (hpushed.trans hdone.keeps), hcalm.kept.trans hdone.kept,
        hdone.page.trans hcalm.page, hdone.pre.trans hf.preOffset, fun m hml => ?_⟩, ?_⟩
      · rw [hdone.out m hml, ← hf.out]
        exact Vector.get_put_ne _ hml _
      · rw [← Nat.add_assoc, Nat.add_right_comm]
        exact hend

/-- The state after the `RAISE` of a lane that does not end the round. -/
def raised (c : CPU D) (l : Fin LANES) (src : Nat) : CPU D :=
  { c with signal := false, isJmp := c.isJmp.put l (majorityVote (c.page.get (slot src))) }

theorem exec_raise (c : CPU D) {l : Fin LANES} (hl : l.val ≠ LANES - 1) (src : Nat) :
    c.exec (.raise, l, src) = c.raised l src := by
  show ({ c with signal := false }).raise (l.val % 2 ^ 20) (src % 2 ^ 20) = _
  have hmod : l.val % 2 ^ 20 % LANES ≠ LANES - 1 := fun he => hl (by
    rw [← he]
    exact (congrArg Fin.val (laneOf_val l)).symm)
  unfold raise
  simp only [laneOf_val, read_slot, if_neg hmod]
  rfl

end

end CPU

end NandServer
