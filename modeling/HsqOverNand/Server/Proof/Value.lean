import HsqOverNand.Server.Proof.Generate

/-!
# What the network of a round computes

`lane_value`: in every valuation of the netlist that gives a lane's input cells the bits of `a` and
`b`, its sum cells are the bits of `b - a` and its jump cell says `b - a <= 0`. `round_value`: the
valuation of the whole network, from the input bits of both lanes.
-/

set_option autoImplicit false

namespace NandServer

open Netlist Lookahead

/-! ## Values of a lane -/

/-- **The lane subtracts**, in any valuation of its netlist. -/
theorem lane_value {start : Nat} {net : Netlist} {ln : Lane} (h : LaneOk start net ln)
    {v : Nat → Bool} (hsat : Sat net.cells v) {a b : BitVec 64}
    (ha : ∀ i < DIGIT, v (start + 2 * i) = a.getLsbD i)
    (hb : ∀ i < DIGIT, v (start + 2 * i + 1) = b.getLsbD i) :
    (∀ i < DIGIT, v (ln.sum i).cell = (b - a).getLsbD i) ∧
      v ln.isJmp.cell = decide ((b - a).toInt ≤ 0) := by
  have hA : ∀ i < DIGIT, v (ln.ain i) = a.getLsbD i := fun i hi => by
    rw [(h.cells i hi).1, ha i hi]
  have hB : ∀ i < DIGIT, v (ln.bin i) = b.getLsbD i := fun i hi => by
    rw [(h.cells i hi).2, hb i hi]
  have hval : ∀ {s : Sig} {f : (Nat → Bool) → Bool}, s.inv = false → Den net s f → v s.cell = f v := by
    intro s f hs hd
    rw [← hd.2 v hsat, Sig.val, AndNet.lit, hs, Bool.bne_false]
  refine ⟨fun i hi => ?_, (hval h.isJmp.1 h.isJmp.2).trans (diffBit_nonPositive (by decide) hA hB)⟩
  exact (hval (h.sum i hi).1 (h.sum i hi).2).trans ((diffBit_congr hi hA hB).trans (diffBit_eq a b hi))

/-! ## The whole network -/

/-- An input bit of the lane whose input cells start at `start`. -/
def laneInit (start : Nat) (a b : BitVec 64) (i : Nat) : Bool :=
  if (i - start) % 2 = 0 then a.getLsbD ((i - start) / 2) else b.getLsbD ((i - start) / 2)

/-- The start values of the cells: input bits, and 1s. -/
def roundBits (a0 b0 a1 b1 : BitVec 64) (i : Nat) : Bool :=
  if i < 128 then laneInit 0 a0 b0 i
  else if 874 ≤ i ∧ i < 1002 then laneInit 874 a1 b1 i
  else true

theorem laneInit_a (start : Nat) (a b : BitVec 64) (i : Nat) :
    laneInit start a b (start + 2 * i) = a.getLsbD i := by
  rw [laneInit, if_pos (by omega), show (start + 2 * i - start) / 2 = i by omega]

theorem laneInit_b (start : Nat) (a b : BitVec 64) (i : Nat) :
    laneInit start a b (start + 2 * i + 1) = b.getLsbD i := by
  rw [laneInit, if_neg (by omega), show (start + 2 * i + 1 - start) / 2 = i by omega]

theorem roundBits_lane0 {a0 b0 a1 b1 : BitVec 64} {i : Nat} (h : i < 128) :
    roundBits a0 b0 a1 b1 i = laneInit 0 a0 b0 i := if_pos h

theorem roundBits_lane1 {a0 b0 a1 b1 : BitVec 64} {i : Nat} (h : 874 ≤ i ∧ i < 1002) :
    roundBits a0 b0 a1 b1 i = laneInit 874 a1 b1 i := by
  rw [roundBits, if_neg (by omega), if_pos h]

section
variable {rom : List RomT} {net : Netlist} {cells : List Cell} {last : Int} {l0 l1 : Lane}
  (hc : RoundCode rom net cells last l0 l1)
include hc

/-- The input cells of the two lanes. -/
theorem RoundCode.isInput {i : Nat} (h : i < 128 ∨ (874 ≤ i ∧ i < 1002)) : IsInput net i := by
  have half : ∀ {start k : Nat} {ln : Lane}, LaneOk start net ln → k < 128 → IsInput net (start + k) := by
    intro start k ln hl hk
    have hi : k / 2 < 64 := by omega
    obtain ⟨ha, hb⟩ := hl.cells _ hi
    obtain ⟨hia, hib⟩ := hl.input _ hi
    rcases Nat.mod_two_eq_zero_or_one k with h2 | h2
    · rwa [ha, show start + 2 * (k / 2) = start + k by omega] at hia
    · rwa [hb, show start + 2 * (k / 2) + 1 = start + k by omega] at hib
  rcases h with h | h
  · have := half hc.lane0 h
    rwa [Nat.zero_add] at this
  · have := half hc.lane1 (k := i - 874) (by omega)
    rwa [show 874 + (i - 874) = i by omega] at this

variable {a0 b0 a1 b1 : BitVec 64} {v : Nat → Bool}
  (hv : AndNet.Models (toNet net.cells) (roundBits a0 b0 a1 b1) v)
include hv

theorem RoundCode.value_input {i : Nat} (h : IsInput net i) : v i = roundBits a0 b0 a1 b1 i := by
  obtain ⟨cl, hcl, h1⟩ := h
  have hins := shape_of_mem hc.good.shapeOk (i := i) (by rw [cellOf_eq hcl]; exact h1)
  rw [hv i, toNet, hins]
  exact Bool.and_true _

theorem RoundCode.value_sat : Sat net.cells v := by
  intro i c hi hn
  have hone : roundBits a0 b0 a1 b1 i = true := by
    by_contra hne
    refine hn ?_
    have hin : i < 128 ∨ (874 ≤ i ∧ i < 1002) := by
      by_contra hout
      refine hne ?_
      rw [roundBits, if_neg (by omega), if_neg (by omega)]
    obtain ⟨cl, hcl, h1⟩ := hc.isInput hin
    rw [hi] at hcl
    cases hcl
    exact h1
  rw [hv i, hone, Bool.true_and, toNet, cellOf_eq hi, lits, List.all_map]
  rfl

/-- Both lanes subtract, each its own inputs. -/
theorem RoundCode.value :
    ((∀ i < DIGIT, v (l0.sum i).cell = (b0 - a0).getLsbD i) ∧
      v l0.isJmp.cell = decide ((b0 - a0).toInt ≤ 0)) ∧
    (∀ i < DIGIT, v (l1.sum i).cell = (b1 - a1).getLsbD i) ∧
      v l1.isJmp.cell = decide ((b1 - a1).toInt ≤ 0) := by
  have hsat := hc.value_sat hv
  have hin : ∀ {i : Nat}, i < 128 ∨ (874 ≤ i ∧ i < 1002) → v i = roundBits a0 b0 a1 b1 i :=
    fun h => hc.value_input hv (hc.isInput h)
  have hd : DIGIT = 64 := rfl
  refine ⟨lane_value hc.lane0 hsat (fun i hi => ?_) (fun i hi => ?_),
    lane_value hc.lane1 hsat (fun i hi => ?_) (fun i hi => ?_)⟩
  · rw [hin (.inl (by omega)), roundBits_lane0 (by omega), laneInit_a]
  · rw [hin (.inl (by omega)), roundBits_lane0 (by omega), laneInit_b]
  · rw [hin (.inr (by omega)), roundBits_lane1 (by omega), laneInit_a]
  · rw [hin (.inr (by omega)), roundBits_lane1 (by omega), laneInit_b]

end

end NandServer
