import Mathlib.Data.Fintype.Order
import Mathlib.Tactic.Ring

/-!
# Generate/propagate chains

`ripple G P r k`: what enters position `k` of a chain whose position `j` generates (`G j`) or
propagates (`P j`), when `r` enters position 0.

* `ripple_add`: a chain splits at any position; `ripple_eq_or`: it is the chain from `false`, or
  `r` propagated through everything.
* `ripple_blocks`: the chain of `n`-position blocks (`blockG`, `blockP`) has the value of the flat
  chain at the block boundaries, for any block size.
* `lookahead_eq_ripple`: the two-level sum of products is the chain.
* `getLsbD_sub_eq_ripple`: subtraction of bit vectors is a chain of borrows.
-/

set_option autoImplicit false

namespace Lookahead

/-- What enters position `k` when `r` enters position 0. -/
def ripple (G P : Nat → Bool) (r : Bool) : Nat → Bool
  | 0 => r
  | k + 1 => G k || (P k && ripple G P r k)

variable {G P : Nat → Bool} {r : Bool}

@[simp] theorem ripple_zero : ripple G P r 0 = r := rfl

theorem ripple_succ (k : Nat) : ripple G P r (k + 1) = (G k || (P k && ripple G P r k)) := rfl

theorem ripple_congr {G' P' : Nat → Bool} {k : Nat} (hG : ∀ j < k, G j = G' j)
    (hP : ∀ j < k, P j = P' j) : ripple G P r k = ripple G' P' r k := by
  induction k with
  | zero => rfl
  | succ k ih =>
    rw [ripple_succ, ripple_succ, hG k (by omega), hP k (by omega),
      ih (fun j hj => hG j (by omega)) (fun j hj => hP j (by omega))]

/-- A chain splits at position `a`. -/
theorem ripple_add (a k : Nat) :
    ripple G P r (a + k) = ripple (fun j => G (a + j)) (fun j => P (a + j)) (ripple G P r a) k := by
  induction k with
  | zero => rfl
  | succ k ih => rw [← Nat.add_assoc, ripple_succ, ripple_succ, ih]

/-- The product of the first `k` propagates. -/
def allP (P : Nat → Bool) : Nat → Bool
  | 0 => true
  | k + 1 => P k && allP P k

/-- A chain is its own generate, or `r` propagated all the way. -/
theorem ripple_eq_or (k : Nat) : ripple G P r k = (ripple G P false k || (allP P k && r)) := by
  induction k with
  | zero => simp [allP]
  | succ k ih =>
    rw [ripple_succ, ripple_succ, ih, allP]
    cases G k <;> cases P k <;> simp

/-! ## Blocks -/

/-- Generate of the `k`-th block of `n` positions. -/
def blockG (n : Nat) (G P : Nat → Bool) (k : Nat) : Bool :=
  ripple (fun j => G (n * k + j)) (fun j => P (n * k + j)) false n

/-- Propagate of the `k`-th block of `n` positions. -/
def blockP (n : Nat) (P : Nat → Bool) (k : Nat) : Bool := allP (fun j => P (n * k + j)) n

/-- At a block boundary the chain of blocks has the value of the flat chain. -/
theorem ripple_blocks (n k : Nat) :
    ripple (blockG n G P) (blockP n P) r k = ripple G P r (n * k) := by
  induction k with
  | zero => rfl
  | succ k ih =>
    rw [ripple_succ, ih, Nat.mul_succ, ripple_add (n * k) n, blockG, blockP]
    exact (ripple_eq_or n).symm

/-- Inside a block the chain starts from the block's own incoming value. -/
theorem ripple_in_block {n : Nat} (i : Nat) :
    ripple (fun j => G (n * (i / n) + j)) (fun j => P (n * (i / n) + j))
      (ripple (blockG n G P) (blockP n P) r (i / n)) (i % n) = ripple G P r i := by
  rw [ripple_blocks, ← ripple_add, Nat.div_add_mod]

/-! ## Sum of products -/

/-- Some position below `k` generates and everything between propagates, or `r` goes through. -/
theorem ripple_iff (k : Nat) : ripple G P r k = true ↔
    (∃ j < k, G j = true ∧ ∀ m, j < m → m < k → P m = true) ∨ ((∀ m < k, P m = true) ∧ r = true) := by
  induction k with
  | zero => simp
  | succ k ih =>
    rw [ripple_succ, Bool.or_eq_true, Bool.and_eq_true, ih]
    constructor
    · rintro (h | ⟨hp, ⟨j, hj, hg, hm⟩ | ⟨hm, hr⟩⟩)
      · exact .inl ⟨k, by omega, h, fun m h1 h2 => by omega⟩
      · refine .inl ⟨j, by omega, hg, fun m h1 h2 => ?_⟩
        rcases Nat.lt_succ_iff_lt_or_eq.1 h2 with h | rfl
        · exact hm m h1 h
        · exact hp
      · refine .inr ⟨fun m h => ?_, hr⟩
        rcases Nat.lt_succ_iff_lt_or_eq.1 h with h | rfl
        · exact hm m h
        · exact hp
    · rintro (⟨j, hj, hg, hm⟩ | ⟨hm, hr⟩)
      · rcases Nat.lt_succ_iff_lt_or_eq.1 hj with h | rfl
        · exact .inr ⟨hm k h (by omega), .inl ⟨j, h, hg, fun m h1 h2 => hm m h1 (by omega)⟩⟩
        · exact .inl hg
      · exact .inr ⟨hm k (by omega), .inr ⟨fun m h => hm m (by omega), hr⟩⟩

/-- The look-ahead sum of products, its loops running downwards. -/
theorem lookahead_eq_ripple (k : Nat) :
    (((List.range k).reverse.any fun j =>
        (List.range' (j + 1) (k - 1 - j)).reverse.all P && G j) ||
      ((List.range k).reverse.all P && r)) = ripple G P r k := by
  rw [Bool.eq_iff_iff, ripple_iff]
  simp only [Bool.or_eq_true, Bool.and_eq_true, List.any_eq_true, List.all_eq_true,
    List.mem_reverse, List.mem_range, List.mem_range'_1]
  constructor
  · rintro (⟨j, hj, hp, hg⟩ | h)
    · exact .inl ⟨j, hj, hg, fun m h1 h2 => hp m ⟨by omega, by omega⟩⟩
    · exact .inr h
  · rintro (⟨j, hj, hg, hp⟩ | h)
    · exact .inl ⟨j, hj, fun m hm => hp m (by omega) (by omega), hg⟩
    · exact .inr h

/-! ## Subtraction -/

/-- The borrows of `b - a`: generated by `a & ~b`, propagated by equal bits. -/
theorem ripple_eq_not_carry {w : Nat} (a b : BitVec w) (i : Nat) (hi : i ≤ w) :
    ripple (fun j => a.getLsbD j && !b.getLsbD j) (fun j => !(a.getLsbD j ^^ b.getLsbD j)) false i =
      !BitVec.carry i b (~~~a) true := by
  induction i with
  | zero => simp
  | succ i ih =>
    rw [ripple_succ, ih (by omega), BitVec.carry_succ, BitVec.getLsbD_not]
    have : i < w := by omega
    cases a.getLsbD i <;> cases b.getLsbD i <;> cases BitVec.carry i b (~~~a) true <;> simp [this]

/-- Bit `i` of a difference. -/
theorem getLsbD_sub_eq_ripple {w : Nat} (a b : BitVec w) {i : Nat} (hi : i < w) :
    (b - a).getLsbD i = ((a.getLsbD i ^^ b.getLsbD i) ^^
      ripple (fun j => a.getLsbD j && !b.getLsbD j) (fun j => !(a.getLsbD j ^^ b.getLsbD j)) false
        i) := by
  rw [ripple_eq_not_carry a b i (by omega), BitVec.sub_eq_add_neg, BitVec.neg_eq_not_add,
    ← BitVec.add_assoc]
  have h := BitVec.getLsbD_add_add_bool hi b (~~~a) true
  have one : BitVec.setWidth w (BitVec.ofBool true) = 1#w := by
    apply BitVec.eq_of_toNat_eq
    simp
  rw [one] at h
  rw [h, BitVec.getLsbD_not]
  cases a.getLsbD i <;> cases b.getLsbD i <;> cases BitVec.carry i b (~~~a) true <;> simp [hi]

end Lookahead
