import Mathlib.Data.List.Pairwise
import Mathlib.Data.Nat.Bitwise

/-!
# Fields of a register

A `Field` is a range of bits with its mask. `put` clears the bits of some fields at once and puts values
there, as driver code does: where the fields are apart and the values fit, each one then has its value
(`read_put`), and every field that is apart from them keeps its own (`read_put_apart`).
-/

set_option autoImplicit false

namespace BitField

structure Field (w : Nat) where
  bits : BitVec w
  lsb : Nat
  width : Nat
  mask : ∀ i, i < w → bits.getLsbD i = (decide (lsb ≤ i) && decide (i < lsb + width))
  fits : lsb + width ≤ w

namespace Field

variable {w : Nat}

def read (f : Field w) (x : BitVec w) : Nat := ((x &&& f.bits) >>> f.lsb).toNat

/-- A bit of the field. -/
def covers (f : Field w) (i : Nat) : Bool := decide (f.lsb ≤ i) && decide (i < f.lsb + f.width)

def Apart (f g : Field w) : Prop := f.lsb + f.width ≤ g.lsb ∨ g.lsb + g.width ≤ f.lsb

instance (f g : Field w) : Decidable (f.Apart g) := inferInstanceAs (Decidable (_ ∨ _))

def masks (fs : List (Field w × Nat)) : BitVec w := fs.foldr (fun f m => f.1.bits ||| m) 0

def values (fs : List (Field w × Nat)) : BitVec w := fs.foldr (fun f v => (BitVec.ofNat w f.2 <<< f.1.lsb) ||| v) 0

def put (fs : List (Field w × Nat)) (x : BitVec w) : BitVec w := (x &&& ~~~ masks fs) ||| values fs

/-! ## Bit by bit -/

theorem covers_iff {f : Field w} {i : Nat} : f.covers i = true ↔ f.lsb ≤ i ∧ i < f.lsb + f.width := by
  simp [covers]

theorem covers_lt {f : Field w} {i : Nat} (h : f.covers i = true) : i < w :=
  Nat.lt_of_lt_of_le (covers_iff.1 h).2 f.fits

theorem Apart.covers {f g : Field w} {i : Nat} (h : f.Apart g) (hf : f.covers i = true) : g.covers i = false := by
  have hlow := covers_iff.1 hf
  rw [Bool.eq_false_iff]
  intro hg
  have hhigh := covers_iff.1 hg
  rcases h with h | h
  · omega
  · omega

theorem testBit_read (f : Field w) (x : BitVec w) (k : Nat) :
    (f.read x).testBit k = (decide (k < f.width) && x.getLsbD (f.lsb + k)) := by
  show ((x &&& f.bits) >>> f.lsb).getLsbD k = _
  rw [BitVec.getLsbD_ushiftRight, BitVec.getLsbD_and]
  rcases Nat.lt_or_ge (f.lsb + k) w with h | h
  · rw [f.mask _ h, Bool.and_comm]
    simp
  · rw [BitVec.getLsbD_of_ge _ _ h, Bool.false_and, Bool.and_false]

theorem getLsbD_masks (fs : List (Field w × Nat)) {i : Nat} (hi : i < w) :
    (masks fs).getLsbD i = fs.any fun f => f.1.covers i := by
  induction fs with
  | nil => exact BitVec.getLsbD_zero
  | cons f fs ih =>
    show (f.1.bits ||| masks fs).getLsbD i = _
    rw [BitVec.getLsbD_or, f.1.mask i hi, ih]
    rfl

theorem getLsbD_value (f : Field w) {v : Nat} (hv : v < 2 ^ f.width) (i : Nat) :
    (BitVec.ofNat w v <<< f.lsb).getLsbD i = (f.covers i && v.testBit (i - f.lsb)) := by
  have hfits := f.fits
  rw [BitVec.getLsbD_shiftLeft, BitVec.getLsbD_ofNat, covers]
  rcases Nat.lt_or_ge i f.lsb with hlow | hlow
  · simp [hlow]
  rcases Nat.lt_or_ge i (f.lsb + f.width) with hhigh | hhigh
  · simp [hlow, hhigh, show i < w by omega, show ¬ i < f.lsb by omega, show i - f.lsb < w by omega]
  · have hbit : v.testBit (i - f.lsb) = false :=
      Nat.testBit_lt_two_pow (Nat.lt_of_lt_of_le hv (Nat.pow_le_pow_right (by decide) (by omega)))
    simp [hbit]

theorem getLsbD_values {fs : List (Field w × Nat)} (hfs : ∀ f ∈ fs, f.2 < 2 ^ f.1.width) (i : Nat) :
    (values fs).getLsbD i = fs.any fun f => f.1.covers i && f.2.testBit (i - f.1.lsb) := by
  induction fs with
  | nil => exact BitVec.getLsbD_zero
  | cons f fs ih =>
    show ((BitVec.ofNat w f.2 <<< f.1.lsb) ||| values fs).getLsbD i = _
    rw [BitVec.getLsbD_or, getLsbD_value f.1 (hfs f (.head _)), ih fun g hg => hfs g (.tail _ hg)]
    rfl

/-! ## What is read after a `put` -/

section
variable {fs : List (Field w × Nat)} (hfs : ∀ f ∈ fs, f.2 < 2 ^ f.1.width)
include hfs

/-- The other fields are not touched. -/
theorem read_put_apart {g : Field w} (hg : ∀ f ∈ fs, g.Apart f.1) (x : BitVec w) : g.read (put fs x) = g.read x := by
  apply Nat.eq_of_testBit_eq
  intro k
  rw [testBit_read, testBit_read]
  rcases Nat.lt_or_ge k g.width with hk | hk
  · have hcov : g.covers (g.lsb + k) = true := covers_iff.2 ⟨Nat.le_add_right _ _, by omega⟩
    have hlt := covers_lt hcov
    have hnone : ∀ f ∈ fs, f.1.covers (g.lsb + k) = false := fun f hf => (hg f hf).covers hcov
    have hmasks : (masks fs).getLsbD (g.lsb + k) = false := by
      rw [getLsbD_masks fs hlt, List.any_eq_false]
      intro f hf
      simp [hnone f hf]
    have hvalues : (values fs).getLsbD (g.lsb + k) = false := by
      rw [getLsbD_values hfs, List.any_eq_false]
      intro f hf
      simp [hnone f hf]
    unfold put
    rw [BitVec.getLsbD_or, BitVec.getLsbD_and, BitVec.getLsbD_not, hmasks, hvalues]
    simp [hlt]
  · rw [decide_eq_false (Nat.not_lt.2 hk), Bool.false_and, Bool.false_and]

/-- A field has the value that was put there. -/
theorem read_put (hapart : fs.Pairwise fun f g => f.1.Apart g.1) {f : Field w} {v : Nat} (hf : (f, v) ∈ fs)
    (x : BitVec w) : f.read (put fs x) = v := by
  have hsymm : Std.Symm fun f g : Field w × Nat => f.1.Apart g.1 := ⟨fun _ _ h => Or.symm h⟩
  apply Nat.eq_of_testBit_eq
  intro k
  rw [testBit_read]
  rcases Nat.lt_or_ge k f.width with hk | hk
  · have hcov : f.covers (f.lsb + k) = true := covers_iff.2 ⟨Nat.le_add_right _ _, by omega⟩
    have hlt := covers_lt hcov
    have hmasks : (masks fs).getLsbD (f.lsb + k) = true := by
      rw [getLsbD_masks fs hlt, List.any_eq_true]
      exact ⟨_, hf, hcov⟩
    have hvalues : (values fs).getLsbD (f.lsb + k) = v.testBit k := by
      rw [getLsbD_values hfs, Bool.eq_iff_iff, List.any_eq_true]
      constructor
      · intro ⟨g, hg, hbit⟩
        simp only [Bool.and_eq_true] at hbit
        have hsame : g = (f, v) := by
          by_contra hne
          have happ : f.Apart g.1 := hapart.forall hf hg (Ne.symm hne)
          rw [happ.covers hcov] at hbit
          cases hbit.1
        rw [hsame, Nat.add_sub_cancel_left] at hbit
        exact hbit.2
      · intro hbit
        refine ⟨_, hf, ?_⟩
        rw [hcov, Nat.add_sub_cancel_left, hbit]
        rfl
    unfold put
    rw [BitVec.getLsbD_or, BitVec.getLsbD_and, BitVec.getLsbD_not, hmasks, hvalues]
    simp [hk]
  · have hzero : v.testBit k = false :=
      Nat.testBit_lt_two_pow (Nat.lt_of_lt_of_le (hfs _ hf) (Nat.pow_le_pow_right (by decide) hk))
    rw [decide_eq_false (Nat.not_lt.2 hk), Bool.false_and, hzero]

end

end Field

end BitField
