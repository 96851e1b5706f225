import Mathlib.Data.List.Basic

/-!
# Polling loops

A host makes `n` transfers with a channel whose other side only makes room. It samples the room, makes
at most that many transfers without looking again, and samples again; after `limit` samples without
room the next one is the last (`timeout`).

`Inv` is what every step keeps: no transfer without room (`room`), although the sample is old by then,
and a timeout only after `limit + 1` samples without room in a row (`idle`). `todo` bounds the host's
steps that are left (`Step.todo`).
-/

set_option autoImplicit false

namespace Polling

structure Channel (σ : Type) where
  /-- How many transfers are possible. -/
  room : σ → Nat
  /-- Transfer `i`. -/
  move : Nat → σ → σ → Prop
  other : σ → σ → Prop
  room_move : ∀ {i c c'}, move i c c' → room c ≤ room c' + 1
  room_other : ∀ {c c'}, other c c' → room c ≤ room c'

inductive Pc
  | poll
  /-- The sample still allows `k` transfers. -/
  | burst (k : Nat)
  | done
  | timeout

/-- What the host does to the channel, with the room it finds. -/
inductive Access
  | poll (room : Nat)
  | move (room : Nat)

structure State (σ : Type) where
  pc : Pc
  moved : Nat
  /-- Samples without room since the last one with room. -/
  idle : Nat
  chan : σ
  log : List Access

variable {σ : Type}

/-- A step of the host (`true`) or of the other side. -/
inductive Step (C : Channel σ) (limit n : Nat) (s : State σ) : Bool → State σ → Prop
  | wait : s.pc = .poll → s.moved < n → C.room s.chan = 0 → s.idle < limit →
      Step C limit n s true { s with idle := s.idle + 1, log := s.log ++ [.poll 0] }
  | giveUp : s.pc = .poll → s.moved < n → C.room s.chan = 0 → limit ≤ s.idle →
      Step C limit n s true { s with pc := .timeout, idle := s.idle + 1, log := s.log ++ [.poll 0] }
  | ready : s.pc = .poll → s.moved < n → 0 < C.room s.chan → Step C limit n s true
      { s with pc := .burst (C.room s.chan), idle := 0, log := s.log ++ [.poll (C.room s.chan)] }
  | finish : s.pc = .poll → n ≤ s.moved → Step C limit n s true { s with pc := .done }
  | move (k : Nat) (chan : σ) : s.pc = .burst (k + 1) → s.moved < n → C.move s.moved s.chan chan →
      Step C limit n s true { s with
        pc := .burst k, moved := s.moved + 1, chan := chan, log := s.log ++ [.move (C.room s.chan)] }
  | again (k : Nat) : s.pc = .burst k → k = 0 ∨ n ≤ s.moved → Step C limit n s true { s with pc := .poll }
  | ended : s.pc = .done ∨ s.pc = .timeout → Step C limit n s true s
  | other (chan : σ) : C.other s.chan chan → Step C limit n s false { s with chan := chan }

structure Inv (C : Channel σ) (limit n : Nat) (s : State σ) : Prop where
  burst : ∀ k, s.pc = .burst k → k ≤ C.room s.chan ∧ s.idle = 0
  moved : s.moved ≤ n
  idle : ∃ pre, s.log = pre ++ List.replicate s.idle (.poll 0)
  room : ∀ r, .move r ∈ s.log → 0 < r
  done : s.pc = .done → s.moved = n
  timeout : s.pc = .timeout → limit < s.idle

def start (c : σ) : State σ := ⟨.poll, 0, 0, c, []⟩

/-- The host samples. -/
def State.sample (C : Channel σ) (limit n : Nat) (s : State σ) : State σ :=
  if s.moved < n then
    if C.room s.chan = 0 then
      { s with
        pc := if limit < s.idle + 1 then .timeout else .poll
        idle := s.idle + 1
        log := s.log ++ [.poll 0] }
    else { s with pc := .burst (C.room s.chan), idle := 0, log := s.log ++ [.poll (C.room s.chan)] }
  else { s with pc := .done }

section
variable {C : Channel σ} {limit n : Nat} {s s' : State σ} {host : Bool}

theorem Step.sample (hpc : s.pc = .poll) : Step C limit n s true (s.sample C limit n) := by
  unfold State.sample
  split
  · rename_i hlt
    split
    · rename_i hfull
      split
      · rename_i hidle
        exact .giveUp hpc hlt hfull (Nat.le_of_lt_succ hidle)
      · rename_i hidle
        rw [← hpc]
        exact .wait hpc hlt hfull (Nat.lt_of_succ_le (Nat.not_lt.1 hidle))
    · rename_i hroom
      exact .ready hpc hlt (Nat.pos_of_ne_zero hroom)
  · rename_i hend
    exact .finish hpc (Nat.not_lt.1 hend)

theorem Inv.start (c : σ) : Inv C limit n (start c) where
  burst := fun _ h => by cases h
  moved := Nat.zero_le _
  idle := ⟨[], rfl⟩
  room := fun _ h => by cases h
  done := fun h => by cases h
  timeout := fun h => by cases h

theorem Inv.room_append (h : Inv C limit n s) {a : Access} (ha : ∀ r, a = .move r → 0 < r) :
    ∀ r, .move r ∈ s.log ++ [a] → 0 < r := by
  intro r hm
  rcases List.mem_append.1 hm with hm | hm
  · exact h.room r hm
  · exact ha r (List.mem_singleton.1 hm).symm

/-- One more sample without room. -/
theorem Inv.idle_append (h : Inv C limit n s) :
    ∃ pre, s.log ++ [.poll 0] = pre ++ List.replicate (s.idle + 1) (.poll 0) := by
  obtain ⟨pre, hpre⟩ := h.idle
  exact ⟨pre, by rw [hpre, List.append_assoc, List.replicate_succ']⟩

theorem Inv.step (h : Inv C limit n s) (hs : Step C limit n s host s') : Inv C limit n s' := by
  have hpoll : ∀ x r, Access.poll x = .move r → 0 < r := fun _ _ he => by cases he
  cases hs with
  | wait hpc hlt hfull hidle =>
    exact { h with
      burst := fun k hk => by cases hpc.symm.trans hk
      idle := h.idle_append
      room := h.room_append (hpoll 0)
      timeout := fun ht => by cases hpc.symm.trans ht }
  | giveUp hpc hlt hfull hidle =>
    exact { h with
      burst := fun k hk => by cases hk
      idle := h.idle_append
      room := h.room_append (hpoll 0)
      done := fun hd => by cases hd
      timeout := fun _ => Nat.lt_succ_of_le hidle }
  | ready hpc hlt hpos =>
    exact { h with
      burst := fun k hk => by
        cases hk
        exact ⟨Nat.le_refl _, rfl⟩
      idle := ⟨_, (List.append_nil _).symm⟩
      room := h.room_append (hpoll _)
      done := fun hd => by cases hd
      timeout := fun ht => by cases ht }
  | finish hpc hle =>
    exact { h with
      burst := fun k hk => by cases hk
      done := fun _ => Nat.le_antisymm h.moved hle
      timeout := fun ht => by cases ht }
  | move k chan hpc hlt hmove =>
    obtain ⟨hk, hidle⟩ := h.burst _ hpc
    exact { h with
      burst := fun k' hk' => by
        cases hk'
        have hless := C.room_move hmove
        exact ⟨by show k ≤ C.room chan; omega, hidle⟩
      moved := hlt
      idle := ⟨_, by rw [hidle]; exact (List.append_nil _).symm⟩
      -- the room was sampled at least `k + 1`, and the other side only makes more
      room := h.room_append fun r hr => by
        cases hr
        omega
      done := fun hd => by cases hd
      timeout := fun ht => by cases ht }
  | again k hpc hstop =>
    exact { h with
      burst := fun k hk => by cases hk
      done := fun hd => by cases hd
      timeout := fun ht => by cases ht }
  | ended hpc => exact h
  | other chan hother =>
    exact { h with burst := fun k hk => ⟨Nat.le_trans (h.burst k hk).1 (C.room_other hother), (h.burst k hk).2⟩ }

/-! ## Termination -/

/-- The host's steps that are left. -/
def State.todo (limit n : Nat) (s : State σ) : Nat :=
  match s.pc with
  | .poll => (n - s.moved) * (limit + 3) + (limit - s.idle) + 2
  | .burst k =>
    if 0 < k ∧ s.moved < n then (n - s.moved - 1) * (limit + 3) + limit + 4
    else (n - s.moved) * (limit + 3) + limit + 3
  | .done | .timeout => 0

theorem State.over_of_todo (h : s.todo limit n = 0) : s.pc = .done ∨ s.pc = .timeout := by
  unfold State.todo at h
  split at h
  · omega
  · split at h <;> omega
  · exact .inl ‹_›
  · exact .inr ‹_›

theorem Step.todo (hs : Step C limit n s host s') :
    s'.todo limit n ≤ if host then s.todo limit n - 1 else s.todo limit n := by
  have hsucc : s.moved < n →
      (n - s.moved) * (limit + 3) = (n - s.moved - 1) * (limit + 3) + (limit + 3) := by
    intro hlt
    obtain ⟨m, hm⟩ := Nat.exists_eq_add_of_lt hlt
    rw [show n - s.moved = m + 1 by omega, Nat.add_sub_cancel, Nat.succ_mul]
  cases hs with
  | wait hpc hlt hfull hidle =>
    rw [if_pos rfl]
    simp only [State.todo, hpc]
    omega
  | giveUp hpc hlt hfull hidle =>
    rw [if_pos rfl]
    simp only [State.todo, hpc]
    omega
  | ready hpc hlt hpos =>
    rw [if_pos rfl]
    simp only [State.todo, hpc, hpos, hlt, and_self, if_true]
    have := hsucc hlt
    omega
  | finish hpc hle =>
    rw [if_pos rfl]
    simp only [State.todo, hpc]
    omega
  | move k chan hpc hlt hmove =>
    rw [if_pos rfl]
    have := hsucc hlt
    simp only [State.todo, hpc, hlt, Nat.succ_pos, and_self, if_true]
    rw [show n - (s.moved + 1) = n - s.moved - 1 by omega]
    split
    · rename_i hk
      obtain ⟨m, hm⟩ := Nat.exists_eq_add_of_lt hk.2
      rw [show n - s.moved - 1 = m + 1 by omega, Nat.add_sub_cancel, Nat.succ_mul]
      omega
    · omega
  | again k hpc hstop =>
    rw [if_pos rfl]
    simp only [State.todo, hpc]
    rw [if_neg (by omega)]
    omega
  | ended hpc =>
    have hzero : s.todo limit n = 0 := by
      rcases hpc with hpc | hpc <;> simp only [State.todo, hpc]
    rw [if_pos rfl]
    omega
  | other chan hother => exact Nat.le_refl _

end

end Polling
