import Mathlib.Data.Fintype.Order
import Mathlib.Tactic.Ring

/-!
# AND-accumulating memories

A memory of `w`-bit cells whose bits only fall: `erase` sets a range to all ones, `program` ANDs a
buffer into a range, `readOut` copies a range. Bit columns never mix (`getLsbD_program`), a program
of what a range already holds changes nothing (`program_readOut`), and every operation leaves the
cells outside its range alone (`erase_other`, `program_other`).

Buffers are vectors; `Vector.put` assigns to one place.
-/

set_option autoImplicit false

namespace Vector

section
variable {α : Type} {n : Nat}

/-- `v[i] = x` -/
def put (v : Vector α n) (i : Fin n) (x : α) : Vector α n := v.set i x

theorem get_put (v : Vector α n) (i j : Fin n) (x : α) :
    (v.put i x).get j = if i.val = j.val then x else v.get j :=
  getElem_set i.isLt j.isLt

@[simp] theorem get_put_self (v : Vector α n) (i : Fin n) (x : α) : (v.put i x).get i = x := by
  rw [get_put, if_pos rfl]

theorem get_put_ne (v : Vector α n) {i j : Fin n} (h : j ≠ i) (x : α) : (v.put i x).get j = v.get j := by
  rw [get_put, if_neg fun he => h (Fin.ext he.symm)]

end

end Vector

namespace AndMemory

/-- The contents of a memory, by address. -/
abbrev Mem (w : Nat) := Nat → BitVec w

variable {w : Nat}

def erase (m : Mem w) (off len : Nat) : Mem w :=
  fun a => if off ≤ a ∧ a < off + len then .allOnes w else m a

def program {n : Nat} (m : Mem w) (off : Nat) (buf : Vector (BitVec w) n) : Mem w :=
  fun a => if h : a - off < n ∧ off ≤ a then m a &&& buf[a - off] else m a

def readOut (m : Mem w) (off n : Nat) : Vector (BitVec w) n := .ofFn fun i => m (off + i)

/-- Every cell of a range is erased. -/
def Blank (m : Mem w) (off len : Nat) : Prop := ∀ i < len, m (off + i) = .allOnes w

section
variable {m : Mem w} {off len n a : Nat} {buf : Vector (BitVec w) n}

@[simp] theorem erase_in (h1 : off ≤ a) (h2 : a < off + len) :
    erase m off len a = .allOnes w := by simp [erase, h1, h2]

theorem erase_other (h : a < off ∨ off + len ≤ a) : erase m off len a = m a := by
  unfold erase
  split
  · omega
  · rfl

@[simp] theorem program_in {i : Nat} (h : i < n) :
    program m off buf (off + i) = m (off + i) &&& buf[i] := by
  simp [program, h]

/-- The range at 0. -/
theorem program_zero {i : Nat} (h : i < n) : program m 0 buf i = m i &&& buf[i] := by
  unfold program
  rw [dif_pos ⟨by omega, Nat.zero_le i⟩]
  rfl

theorem program_other (h : a < off ∨ off + n ≤ a) : program m off buf a = m a := by
  unfold program
  split
  · omega
  · rfl

@[simp] theorem getElem_readOut {i : Nat} (h : i < n) : (readOut m off n)[i] = m (off + i) := by
  simp [readOut]

/-- Bit columns do not mix. -/
theorem getLsbD_program {i : Nat} (h : i < n) (j : Nat) :
    (program m off buf (off + i)).getLsbD j = ((m (off + i)).getLsbD j && buf[i].getLsbD j) := by
  rw [program_in h, BitVec.getLsbD_and]

/-- A program that clears no bit changes nothing. -/
theorem program_eq_self (h : ∀ i (hi : i < n), m (off + i) &&& buf[i] = m (off + i)) :
    program m off buf = m := by
  funext a
  by_cases ha : off ≤ a ∧ a < off + n
  · obtain ⟨i, rfl⟩ := Nat.exists_eq_add_of_le ha.1
    have hi : i < n := by omega
    rw [program_in hi, h i hi]
  · exact program_other (by omega)

theorem program_readOut : program m off (readOut m off n) = m :=
  program_eq_self fun i hi => by rw [getElem_readOut hi, BitVec.and_self]

/-- On a blank range a program stores its buffer. -/
theorem program_blank (h : Blank m off n) {i : Nat} (hi : i < n) :
    program m off buf (off + i) = buf[i] := by
  rw [program_in hi, h i hi, BitVec.allOnes_and]

end

end AndMemory
