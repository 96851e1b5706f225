import Mathlib.Algebra.Ring.Basic
import Mathlib.Tactic.IntervalCases

/-!
# Positional notation

The digits of `Nat.toDigits b n`, read from the left in any semiring, give `n` (`foldl_toDigits`), and
each of them is a digit of the base (`isDigit_of_mem`). Bases up to 16.
-/

set_option autoImplicit false

namespace Digits

/-- The value of a digit, letters of either case included; 36 is no digit. -/
def digitVal (c : Char) : Nat :=
  if 48 ≤ c.toNat ∧ c.toNat ≤ 57 then c.toNat - 48
  else if 97 ≤ c.toNat ∧ c.toNat ≤ 122 then c.toNat - 87
  else if 65 ≤ c.toNat ∧ c.toNat ≤ 90 then c.toNat - 55
  else 36

def isDigit (b : Nat) (c : Char) : Bool := decide (digitVal c < b)

theorem digitVal_digitChar {d : Nat} (hd : d < 16) : digitVal d.digitChar = d := by
  interval_cases d <;> rfl

/-- A digit of a base up to ten is its distance from `'0'`. -/
theorem toNat_of_isDigit {b : Nat} {c : Char} (hb : b ≤ 10) (hc : isDigit b c = true) :
    c.toNat = 48 + digitVal c := by
  have hlt : digitVal c < b := of_decide_eq_true hc
  unfold digitVal at hlt ⊢
  split_ifs at hlt ⊢ <;> omega

section
variable {b : Nat} (hb : 1 < b) (hb' : b ≤ 16)
include hb hb'

theorem isDigit_of_mem {c : Char} {n : Nat} (hc : c ∈ Nat.toDigits b n) : isDigit b c = true := by
  induction n using Nat.strong_induction_on with
  | _ n ih =>
    have hchar : ∀ d, d < b → isDigit b d.digitChar = true := fun d hd => by
      rw [isDigit, digitVal_digitChar (hd.trans_le hb')]
      exact decide_eq_true hd
    rw [Nat.toDigits_eq_if hb] at hc
    split at hc
    · rename_i hn
      rw [List.mem_singleton.1 hc]
      exact hchar n hn
    · rename_i hn
      rcases List.mem_append.1 hc with hc | hc
      · exact ih (n / b) (Nat.div_lt_self (by omega) hb) hc
      · rw [List.mem_singleton.1 hc]
        exact hchar _ (Nat.mod_lt _ (by omega))

theorem foldl_toDigits {R : Type} [Semiring R] (n : Nat) :
    (Nat.toDigits b n).foldl (fun (r : R) c => r * b + digitVal c) 0 = n := by
  induction n using Nat.strong_induction_on with
  | _ n ih =>
    have hlow : digitVal (n % b).digitChar = n % b :=
      digitVal_digitChar ((Nat.mod_lt _ (by omega)).trans_le hb')
    rw [Nat.toDigits_eq_if hb]
    split
    · rename_i hn
      rw [Nat.mod_eq_of_lt hn] at hlow
      simp [hlow]
    · rename_i hn
      rw [List.foldl_append, ih (n / b) (Nat.div_lt_self (by omega) hb)]
      simp only [List.foldl_cons, List.foldl_nil, hlow]
      rw [← Nat.cast_mul, ← Nat.cast_add, Nat.div_add_mod']

end

end Digits
