import HsqOverNand.Server.Proof.Flat

/-!
# Faulty bit columns

`Noisy`: a device that stores and returns anything in up to three bit columns of the calculation area.
`columns_tolerated`: whatever it does there, every round computes `b - a`, because no operation mixes
bit columns and `majorityVote` outvotes three of them.
-/

set_option autoImplicit false

namespace NandServer

open Netlist NandInterface

/-- Up to three faulty bit columns, and what call `n` stores and returns in them at address `a`. -/
structure Faults where
  mask : Byte
  few : (List.range 8).countP (mask.getLsbD ·) ≤ 3
  stored : (n a : Nat) → Byte
  returned : (n a : Nat) → Byte

structure Noisy where
  mem : AndMemory.Mem 8
  size : Nat
  faults : Faults
  /-- Calls so far. -/
  calls : Nat

/-- `bad` in the columns of `mask`, `good` in the others. -/
def blend (mask good bad : Byte) : Byte := good &&& ~~~mask ||| bad &&& mask

namespace Noisy

/-- The ROM area is not affected. -/
def spoil (d : Noisy) (a : Nat) (good bad : Byte) : Byte :=
  if RAM ≤ a then blend d.faults.mask good bad else good

/-- The memory `m` after a call on `n` bytes from `off`. -/
def store (d : Noisy) (m : AndMemory.Mem 8) (off n : Nat) : Noisy :=
  { d with
    mem := fun a => if off ≤ a ∧ a < off + n then d.spoil a (m a) (d.faults.stored d.calls a) else m a
    calls := d.calls + 1 }

end Noisy

instance : NandInterface Noisy where
  erase d offset length :=
    (true, { d with mem := AndMemory.erase d.mem offset length, calls := d.calls + 1 })
  read {n} d offset _ := (true, .ofFn fun i : Fin n =>
    d.spoil (offset + i) (d.mem (offset + i)) (d.faults.returned d.calls (offset + i)),
    d.store d.mem offset n)
  write {n} d offset buffer := (true, d.store (AndMemory.program d.mem offset buffer) offset n)
  size d := d.size

namespace Noisy

theorem getLsbD_blend {mask good bad : Byte} {j : Nat} (hj : mask.getLsbD j = false) :
    (blend mask good bad).getLsbD j = good.getLsbD j := by
  rw [blend, BitVec.getLsbD_or, BitVec.getLsbD_and, BitVec.getLsbD_and, hj, Bool.and_false,
    Bool.or_false, BitVec.getLsbD_not, hj]
  rcases Nat.lt_or_ge j 8 with h8 | h8
  · rw [decide_eq_true h8, Bool.not_false, Bool.and_self, Bool.and_true]
  · rw [BitVec.getLsbD_of_ge good j h8, Bool.false_and]

theorem getLsbD_spoil {d : Noisy} {a : Nat} {good bad : Byte} {j : Nat}
    (hj : d.faults.mask.getLsbD j = false) : (d.spoil a good bad).getLsbD j = good.getLsbD j := by
  unfold spoil
  split
  · exact getLsbD_blend hj
  · rfl

theorem spoil_rom {d : Noisy} {a : Nat} (ha : a < RAM) (good bad : Byte) : d.spoil a good bad = good :=
  if_neg (Nat.not_le.2 ha)

theorem store_getLsbD {d : Noisy} {m : AndMemory.Mem 8} {off n a j : Nat}
    (hj : d.faults.mask.getLsbD j = false) : ((d.store m off n).mem a).getLsbD j = (m a).getLsbD j := by
  unfold store
  simp only []
  split
  · exact getLsbD_spoil hj
  · rfl

theorem store_other {d : Noisy} {m : AndMemory.Mem 8} {off n a : Nat} (h : a < RAM ∨ off + n ≤ a) :
    (d.store m off n).mem a = m a := by
  unfold store
  simp only []
  split
  · exact spoil_rom (h.resolve_right (by omega)) _ _
  · rfl

/-- The columns that work. -/
def good (f : Faults) : List Nat := (List.range 8).filter fun j => !f.mask.getLsbD j

theorem mem_good {f : Faults} {j : Nat} : j ∈ good f ↔ j < 8 ∧ f.mask.getLsbD j = false := by
  rw [good, List.mem_filter, List.mem_range, Bool.not_eq_true']

theorem good_majority (f : Faults) : Majority (good f) where
  nodup := List.nodup_range.filter _
  lt _ hj := (mem_good.1 hj).1
  five := by
    have hfew := f.few
    have hsplit := List.length_eq_countP_add_countP (f.mask.getLsbD ·) (l := List.range 8)
    simp only [List.length_range, Bool.not_eq_true] at hsplit
    rw [good, ← List.countP_eq_length_filter]
    simp only [Bool.decide_eq_false] at hsplit
    omega

/-! ## The device of a round -/

section
variable {rom : List RomT} {size : Nat} {f : Faults}

/-- The states of a round with the faults `f`. -/
abbrev Ok (size : Nat) (f : Faults) (d : Noisy) : Prop := d.size = size ∧ d.faults = f

open CPU

/-- Storing above the ROM area keeps the ROM. -/
theorem holdsRom_store {d : Noisy} {m : AndMemory.Mem 8} {off n : Nat} (h : HoldsRom Noisy.mem rom d)
    (hm : ∀ a < ROM_SIZE, m a = d.mem a) : HoldsRom Noisy.mem rom (d.store m off n) := by
  refine h.of_eq fun a ha => ?_
  rw [store_other (.inl ha), hm a ha]

theorem pageOk {P : Nat} (hP : CalcPage size P) : PageOk (WithRom Noisy.mem (Ok size f) rom) P where
  write _ _ ho := ⟨ho.1, holdsRom_store ho.2 fun _ ha =>
    AndMemory.program_other (.inl (Nat.lt_of_lt_of_le ha hP.ram))⟩
  read _ _ ho := ⟨ho.1, holdsRom_store ho.2 fun _ _ => rfl⟩

theorem pageColumn (P : Nat) {j : Nat} (hj : j ∈ good f) :
    PageColumn Noisy.mem (WithRom Noisy.mem (Ok size f) rom) P j where
  write d buf ho i hi := by
    have hj : d.faults.mask.getLsbD j = false := ho.1.2 ▸ (mem_good.1 hj).2
    exact (store_getLsbD hj).trans (AndMemory.getLsbD_program hi j)
  read d buf ho i hi := by
    have hj : d.faults.mask.getLsbD j = false := ho.1.2 ▸ (mem_good.1 hj).2
    show ((Vector.ofFn fun i : Fin PAGE_SIZ => d.spoil (P + i) (d.mem (P + i))
      (d.faults.returned d.calls (P + i)))[i]).getLsbD j = _
    rw [Vector.getElem_ofFn]
    exact getLsbD_spoil hj
  read_mem d _ ho i _ := by
    have hj : d.faults.mask.getLsbD j = false := ho.1.2 ▸ (mem_good.1 hj).2
    exact store_getLsbD hj

theorem romDevice : RomDevice (WithRom Noisy.mem (Ok size f) rom) rom where
  ok d _ p _ _ ho := ⟨ho.1, holdsRom_store ho.2 fun _ _ => rfl⟩
  rom d buf p hp hal ho i hi := by
    have hle := romPage_le hp hal
    have hlt : p + i < RAM := Nat.lt_of_lt_of_le (Nat.add_lt_add_left hi p) hle
    show (Vector.ofFn fun i : Fin PAGE_SIZ => d.spoil (p + i) (d.mem (p + i))
      (d.faults.returned d.calls (p + i)))[i] = _
    rw [Vector.getElem_ofFn, spoil_rom hlt]
    exact ho.2 (p + i) hlt

/-- **The good columns are AND flash.** -/
theorem calcDevice : CalcDevice Noisy.mem (WithRom Noisy.mem (Ok size f) rom) rom size (good f) where
  majority := good_majority f
  page P hP := ⟨pageOk hP, fun j hj => pageColumn P hj, romDevice, fun d buf p hp hal ho j hj i hi =>
    store_getLsbD (ho.1.2 ▸ (mem_good.1 hj).2)⟩
  write_other d buf P hP ho a ha := (store_other (.inr ha)).trans (AndMemory.program_other (.inr ha))
  read_other d buf P hP ho a ha := store_other (.inr ha)
  fetch_other d buf p hp hal ho a ha := store_other (.inr ((romPage_le hp hal).trans ha))
  erase_ok d ho := ⟨ho.1, ho.2.of_eq fun a ha => AndMemory.erase_other (.inl ha)⟩
  erase d ho a ha hlt := AndMemory.erase_in ha (by omega)

theorem boot : BootDevice Noisy.mem (·.size = size) (·.size = size) size where
  size_eq _ ho := ho
  read d buf ho := by
    refine ⟨ho, Vector.ext fun a ha => ?_, fun a ha => store_other (.inl ha)⟩
    show (Vector.ofFn fun i : Fin ROM_SIZE => d.spoil (0 + i) (d.mem (0 + i))
      (d.faults.returned d.calls (0 + i)))[a] = _
    rw [Vector.getElem_ofFn, AndMemory.getElem_readOut ha, Nat.zero_add, spoil_rom ha]
  erase d ho := ⟨rfl, ho, fun a ha => AndMemory.erase_in (Nat.zero_le a) (by omega)⟩
  write d buf ho := by
    refine ⟨ho, fun a ha => ?_⟩
    exact (store_other (.inl ha)).trans (AndMemory.program_zero ha)
  eraseCalc d ho := ⟨ho, fun a ha => AndMemory.erase_other (.inl ha)⟩

end

end Noisy

/-! ## Rounds with faults -/

/-- The faults and the inputs of a round. -/
structure FaultyRound where
  faults : Faults
  inA : Vector (BitVec 64) LANES
  inB : Vector (BitVec 64) LANES

namespace CPU

/-- Before a round. -/
def start (c : CPU Noisy) (r : FaultyRound) : CPU Noisy :=
  { c.setIn r.inA r.inB with nand := { c.nand with faults := r.faults } }

def faultyRounds (c : CPU Noisy) (rs : List FaultyRound) : CPU Noisy :=
  rs.foldl (fun c r => (c.start r).round) c

/-- Between two rounds, whatever the faults of the next. -/
abbrev NoisyReady (rom : List RomT) (size k : Nat) (c : CPU Noisy) : Prop :=
  Ready Noisy.mem (WithRom Noisy.mem (·.size = size) rom) rom size k c

section
variable {rom : List RomT} {net : Netlist} {cells : List Cell} {last : Int} {l0 l1 : Lane} {size : Nat}
  (hc : RoundCode rom net cells last l0 l1) (hs : SizeOk size)
include hc hs

theorem NoisyReady.round {k : Nat} {c : CPU Noisy} (h : NoisyReady rom size k c) (r : FaultyRound) :
    ∃ c', runUntilSignal c.romSize (c.start r) = (c.romSize, c') ∧
      NoisyReady rom size ((k + 1) % pages size) c' ∧ Subtracts r.inA r.inB c' := by
  have hstart : Ready Noisy.mem (WithRom Noisy.mem (Noisy.Ok size r.faults) rom) rom size k (c.start r) :=
    ⟨⟨h.pc, h.nandSize, h.romSize, h.pageOffset, h.lt, h.preOffset⟩, ⟨⟨h.ok.1, rfl⟩, h.ok.2⟩, h.blank⟩
  obtain ⟨c', hrun, hready, hsub⟩ := round_ready hc hs Noisy.calcDevice hstart (Nat.le_refl _)
  rw [h.romSize]
  exact ⟨c', hrun, hready.imp fun ho => ⟨ho.1.1, ho.2⟩, hsub⟩

theorem NoisyReady.rounds : ∀ (rs : List FaultyRound) {k : Nat} {c : CPU Noisy},
    NoisyReady rom size k c → ∃ k', NoisyReady rom size k' (c.faultyRounds rs)
  | [], k, _, h => ⟨k, h⟩
  | r :: rs, k, c, h => by
    obtain ⟨c', hrun, hready, -⟩ := NoisyReady.round hc hs h r
    have hround : (c.start r).round = c' := congrArg Prod.snd hrun
    obtain ⟨k', hk⟩ := NoisyReady.rounds rs hready
    rw [← hround] at hk
    exact ⟨k', hk⟩

end

/-- **Three faulty bit columns do no harm**, in any round after any others. -/
theorem columns_tolerated (g : Globals) (garbage : Vector Byte ROM_SIZE) (dev : Noisy)
    (hs : SizeOk dev.size) (past : List FaultyRound) (r : FaultyRound) :
    ∃ c g', CPU.new g garbage dev = some (c, g') ∧ ∃ c',
      runUntilSignal c.romSize ((c.faultyRounds past).start r) = (c.romSize, c') ∧
        Subtracts r.inA r.inB c' := by
  obtain ⟨rom, g', net, cells, last, l0, l1, hc, hinit⟩ := romInit_spec
  obtain ⟨c, hnew, hr⟩ := new_ready Noisy.boot hs
    (fun d _ a ha hlt => AndMemory.erase_in ha (by omega)) hc.linked.size hinit g garbage (d := dev) rfl
  obtain ⟨k, hk⟩ := NoisyReady.rounds hc hs past hr
  obtain ⟨c', hrun, -, hsub⟩ := NoisyReady.round hc hs hk r
  rw [hk.romSize, ← hr.romSize] at hrun
  exact ⟨c, g', hnew, c', hrun, hsub⟩

/-- Columns 0, 2 and 4 are faulty. -/
def threeColumns : Faults := ⟨0x15, by decide, fun _ _ => 0xa5, fun n a => .ofNat 8 (n + a)⟩

theorem columns_tolerated_three : ∃ c g',
    CPU.new ⟨0, 0⟩ (.replicate ROM_SIZE 0) ⟨fun _ => 0x5a, 786432, threeColumns, 0⟩ = some (c, g') ∧
      ∃ c', runUntilSignal c.romSize ((c.faultyRounds []).start
        ⟨threeColumns, .replicate LANES 1, .replicate LANES 2⟩) = (c.romSize, c') ∧
        Subtracts (.replicate LANES 1) (.replicate LANES 2) c' :=
  columns_tolerated ⟨0, 0⟩ (.replicate ROM_SIZE 0) ⟨fun _ => 0x5a, 786432, threeColumns, 0⟩
    ⟨by decide, by decide, by decide⟩ [] ⟨threeColumns, .replicate LANES 1, .replicate LANES 2⟩

end CPU

end NandServer
