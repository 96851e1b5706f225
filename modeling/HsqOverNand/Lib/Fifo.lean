import Mathlib.Data.List.Basic

/-!
# Bounded queues with a history

A `Fifo` of a depth remembers what was put in and what was taken out. It never holds more than its
depth, and what came out, then what it holds, is what went in: in order, each once (`flow`). A full one
does not take anything, an empty one gives nothing.
-/

set_option autoImplicit false

structure Fifo (α : Type) (depth : Nat) where
  queue : List α
  inn : List α
  out : List α
  flow : out ++ queue = inn
  le : queue.length ≤ depth

namespace Fifo

variable {α : Type} {depth : Nat}

def empty : Fifo α depth := ⟨[], [], [], rfl, Nat.zero_le _⟩

def level (f : Fifo α depth) : Nat := f.queue.length

theorem put_flow (f : Fifo α depth) (x : α) : f.out ++ (f.queue ++ [x]) = f.inn ++ [x] := by
  rw [← List.append_assoc, f.flow]

theorem put_le (f : Fifo α depth) (x : α) (h : f.queue.length < depth) :
    (f.queue ++ [x]).length ≤ depth := by
  rw [List.length_append]
  exact h

def put (f : Fifo α depth) (x : α) : Fifo α depth :=
  if h : f.queue.length < depth then ⟨f.queue ++ [x], f.inn ++ [x], f.out, put_flow f x, put_le f x h⟩
  else f

theorem take_flow (f : Fifo α depth) (x : α) (q : List α) (h : f.queue = x :: q) :
    (f.out ++ [x]) ++ q = f.inn := by
  rw [← f.flow, h, List.append_assoc]
  rfl

theorem take_le (f : Fifo α depth) (x : α) (q : List α) (h : f.queue = x :: q) : q.length ≤ depth := by
  have hle := f.le
  rw [h, List.length_cons] at hle
  omega

def take (f : Fifo α depth) : Option (α × Fifo α depth) :=
  match h : f.queue with
  | [] => none
  | x :: q => some (x, ⟨q, f.inn, f.out ++ [x], take_flow f x q h, take_le f x q h⟩)

/-- Someone takes an element, if there is one. -/
def drain (f : Fifo α depth) : Fifo α depth := f.take.elim f Prod.snd

section
variable {f : Fifo α depth} {x : α}

theorem put_inn (h : f.level < depth) : (f.put x).inn = f.inn ++ [x] :=
  congrArg inn (dif_pos h : f.put x = ⟨_, _, _, put_flow f x, put_le f x h⟩)

@[simp] theorem put_out : (f.put x).out = f.out := by
  unfold put
  split <;> rfl

theorem level_put_le : (f.put x).level ≤ f.level + 1 := by
  unfold put level
  split
  · show (f.queue ++ [x]).length ≤ f.queue.length + 1
    rw [List.length_append]
    exact Nat.le_refl _
  · exact Nat.le_succ _

theorem level_le_put : f.level ≤ (f.put x).level := by
  unfold put level
  split
  · show f.queue.length ≤ (f.queue ++ [x]).length
    rw [List.length_append]
    exact Nat.le_add_right _ _
  · exact Nat.le_refl _

/-- Every take finds the oldest element. -/
theorem take_spec {f' : Fifo α depth} (h : f.take = some (x, f')) :
    f'.out = f.out ++ [x] ∧ f'.inn = f.inn ∧ f.level = f'.level + 1 := by
  unfold take at h
  split at h
  · cases h
  · rename_i y q hq
    cases h
    refine ⟨rfl, rfl, ?_⟩
    exact congrArg List.length hq

theorem take_of_pos (h : 0 < f.level) : ∃ x f', f.take = some (x, f') := by
  cases htake : f.take with
  | some r => exact ⟨r.1, r.2, rfl⟩
  | none =>
    unfold take at htake
    split at htake
    · rename_i hq
      rw [level, hq] at h
      cases h
    · cases htake

theorem drain_inn : f.drain.inn = f.inn := by
  unfold drain
  cases htake : f.take with
  | none => rfl
  | some r => exact (take_spec htake).2.1

theorem level_drain_le : f.drain.level ≤ f.level := by
  unfold drain
  cases htake : f.take with
  | none => exact Nat.le_refl _
  | some r =>
    rw [(take_spec htake).2.2]
    exact Nat.le_succ _

/-- What came out is the beginning of what went in, and what is left is what follows. -/
theorem out_eq_take : f.out = f.inn.take f.out.length := by
  rw [← f.flow, List.take_left]

theorem queue_eq_drop : f.queue = f.inn.drop f.out.length := by
  rw [← f.flow, List.drop_left]

end

end Fifo
