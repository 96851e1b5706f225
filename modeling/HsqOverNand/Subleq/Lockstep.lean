import HsqOverNand.Subleq.Machine

/-!
# The emulator and the interpreter in lockstep

`lockstep`: from the same words, as long as the executed instructions lie in the image and have
operands below `0x600000`, the emulator without and with flash and the interpreter have the same
memory below `0x600000` and the same counter after every number of steps, and none executes an
instruction after a jump to a negative target. A jump to -1 is the one difference: the interpreter
leaves its loop before it sets the counter (`halt_keeps_pc`).

* `Memi.index_some`, `Memi.store_some`: `operator[]` resizes, and no element changes.
* `Emu.step_inside`, `Interp.step_inside`: one instruction on each machine.
-/

set_option autoImplicit false

namespace NandServer

/-! ## Statement -/

namespace Interp

/-- The interpreter after `n` iterations, with these keys, on a server that subtracts. -/
def after (words : List (BitVec 64)) (around : Int → BitVec 64) (keys : Nat → Option Byte) : Nat → Interp
  | 0 => start words around
  | n + 1 => ((after words around keys n).step (.iterate (keys n) boost)).1

/-- No further instruction: the loop is left, or the check of the counter leaves it. -/
def Over (s : Interp) : Prop := s.stopped = true ∨ s.pc < 0

/-- The instruction lies in an image of `L` words and has operands below the read-only part. -/
structure Inside (L : Nat) (s : Interp) : Prop where
  pc : s.pc + 2 < L
  a : 0 ≤ s.a ∧ s.a < 0x600000
  b : 0 ≤ s.b ∧ s.b < 0x600000

/-- The target of the instruction's jump, if it is taken. -/
def target (s : Interp) : Option Int :=
  if (s.code s.b - s.code s.a).toInt ≤ 0 then some s.c else none

end Interp

/-- Both emulators and the interpreter after `n` iterations. -/
structure Agree (m : Nat → Interp) (n : Nat) (e e' : Emu) : Prop where
  mem : ∀ i : Nat, i < 0x600000 → e.mem.v.getD i 0 = (m n).code i ∧ e'.mem.v.getD i 0 = (m n).code i
  ip : e'.ip = e.ip
  /-- The interpreter keeps its counter at a jump to -1. -/
  pc : (m n).pc = e.ip ∨ e.ip = -1 ∧
    ∃ k < n, ¬ (m k).Over ∧ (m k).target = some (-1) ∧ (m n).pc = (m k).pc
  stopped : e'.stopped = e.stopped ∧ (e.stopped = true ↔ (m n).Over)
  stops : (m n).Over ↔ ∃ k < n, ¬ (m k).Over ∧ ∃ t < 0, (m k).target = some t

/-! ## The vector -/

namespace Memi

variable {m : Memi} {i : Int}

theorem getD_append_replicate (v : List (BitVec 64)) (k j : Nat) :
    (v ++ List.replicate k 0).getD j 0 = v.getD j 0 := by
  rw [List.getD_eq_getElem?_getD, List.getD_eq_getElem?_getD]
  by_cases hj : j < v.length
  · rw [List.getElem?_append_left hj]
  · rw [List.getElem?_append_right (not_lt.1 hj), List.getElem?_eq_none (not_lt.1 hj),
      List.getElem?_replicate]
    split <;> rfl

/-- The vector it may have resized. -/
theorem index_some (hi : 0 ≤ i) : ∃ m', m.index i = some (m', m.v.getD i.toNat 0) ∧
    (∀ j, m'.v.getD j 0 = m.v.getD j 0) ∧ m.v.length ≤ m'.v.length ∧ i.toNat < m'.v.length := by
  unfold index
  rw [if_neg (not_lt.2 hi)]
  by_cases hle : (m.v.length : Int) ≤ i
  · simp only [hle, if_true, getD_append_replicate]
    refine ⟨_, rfl, getD_append_replicate _ _, ?_, ?_⟩
    · simp
    · rw [List.length_append, List.length_replicate]
      omega
  · simp only [hle, if_false]
    exact ⟨m, rfl, fun _ => rfl, le_rfl, by omega⟩

theorem store_some (hi : 0 ≤ i) (x : BitVec 64) : ∃ m', m.store i x = some m' ∧
    (∀ j, m'.v.getD j 0 = if j = i.toNat then x else m.v.getD j 0) ∧ m.v.length ≤ m'.v.length := by
  obtain ⟨m', hm, hget, hlen, hlt⟩ := index_some (m := m) hi
  refine ⟨⟨m'.v.set i.toNat x⟩, by rw [store, hm]; rfl, fun j => ?_, by simpa using hlen⟩
  rw [← hget, List.getD_eq_getElem?_getD, List.getD_eq_getElem?_getD, List.getElem?_set]
  by_cases hj : i.toNat = j
  · rw [if_pos hj, if_pos hlt, if_pos hj.symm]
    rfl
  · rw [if_neg hj, if_neg (Ne.symm hj)]

end Memi

/-! ## One iteration -/

/-- The emulator's memory holds what the interpreter has below the read-only part. -/
structure SameMem (L : Nat) (m : Memi) (code : Int → BitVec 64) : Prop where
  get : ∀ i : Nat, i < 0x600000 → m.v.getD i 0 = code i
  size : L ≤ m.v.length

section
variable {L : Nat}

/-- `operator[]` on both. -/
theorem SameMem.index {m : Memi} {code : Int → BitVec 64} (h : SameMem L m code) {i : Int} (h0 : 0 ≤ i)
    (hlt : i < 0x600000) : ∃ m', m.index i = some (m', code i) ∧ SameMem L m' code := by
  obtain ⟨m', hm, hget, hlen, -⟩ := Memi.index_some (m := m) h0
  refine ⟨m', ?_, fun j hj => (hget j).trans (h.get j hj), h.size.trans hlen⟩
  rw [hm, h.get i.toNat (by omega), Int.toNat_of_nonneg h0]

theorem SameMem.store {m : Memi} {code : Int → BitVec 64} (h : SameMem L m code) {i : Int} (h0 : 0 ≤ i)
    (x : BitVec 64) : ∃ m', m.store i x = some m' ∧ SameMem L m' (Function.update code i x) := by
  obtain ⟨m', hm, hget, hlen⟩ := Memi.store_some (m := m) h0 x
  refine ⟨m', hm, fun j hj => ?_, h.size.trans hlen⟩
  rw [hget]
  by_cases he : j = i.toNat
  · have hi : (j : Int) = i := by omega
    rw [if_pos he, hi, Function.update_self]
  · have hi : (j : Int) ≠ i := by omega
    rw [if_neg he, Function.update_of_ne hi, h.get j hj]

/-- Where the emulators continue. -/
def nextIp (s : Interp) : Int := s.target.getD (s.pc + 3)

theorem Emu.step_inside (hL : L ≤ 0x600000) {s : Interp} (hin : s.Inside L) (hpc : 0 ≤ s.pc) {m : Memi}
    (h : SameMem L m s.code)
    (flash : Bool) (io : Memi → Int → BitVec 64 → BitVec 64 → Option (Memi × Int)) :
    ∃ m', Emu.step flash boost io ⟨m, s.pc, false⟩ = some ⟨m', nextIp s, decide (nextIp s < 0)⟩ ∧
      SameMem L m' (Function.update s.code s.b (s.code s.b - s.code s.a)) := by
  have hbound := hin.pc
  obtain ⟨m1, h1, hm1⟩ := h.index hpc (by omega)
  obtain ⟨m2, h2, hm2⟩ := hm1.index (i := s.pc + 1) (by omega) (by omega)
  obtain ⟨m3, h3, hm3⟩ := hm2.index (i := s.pc + 2) (by omega) (by omega)
  obtain ⟨m4, h4, hm4⟩ := hm3.index hin.a.1 hin.a.2
  obtain ⟨m5, h5, hm5⟩ := hm4.index hin.b.1 hin.b.2
  obtain ⟨m6, h6, hm6⟩ := hm5.store hin.b.1 (s.code s.b - s.code s.a)
  obtain ⟨m7, h7, hm7⟩ := hm6.index hin.b.1 hin.b.2
  have hsize : ¬ m2.size ≤ s.pc + 2 := by
    have := hm2.size
    unfold Memi.size
    omega
  have hio : ¬ (s.code s.pc = -1 ∨ s.code (s.pc + 1) = -1) := by
    have ha := hin.a.1
    have hb := hin.b.1
    unfold Interp.a at ha
    unfold Interp.b at hb
    rintro (he | he)
    · rw [he] at ha
      exact absurd ha (by decide)
    · rw [he] at hb
      exact absurd hb (by decide)
  have hnext : nextIp s = if (s.code s.b - s.code s.a).toInt ≤ 0 then s.c else s.pc + 3 := by
    unfold nextIp Interp.target
    split <;> rfl
  rw [hnext]
  unfold Interp.a at h4 h6 h7
  unfold Interp.b at h5 h6 h7
  -- one subtraction, computed here or by the server
  cases flash with
  | true =>
    refine ⟨m6, ?_, hm6⟩
    simp only [Emu.step, Emu.subtract, h1, h2, h3, h4, h5, h6, hsize, hio, boost, Option.bind_eq_bind,
      Option.bind_some, Bool.false_eq_true, if_false, if_true, Option.pure_def, decide_eq_true_eq]
    rfl
  | false =>
    refine ⟨m7, ?_, hm7⟩
    simp only [Emu.step, Emu.subtract, h1, h2, h3, h4, h5, h6, h7, hsize, hio, Option.bind_eq_bind,
      Option.bind_some, Bool.false_eq_true, if_false, Option.pure_def, Function.update_self]
    rfl

namespace Interp

/-- A jump to -1 leaves the loop, the others set the counter. -/
theorem step_inside {s : Interp} (hin : s.Inside L) (hrun : s.Running)
    (ch : Option Byte) {s' : Interp} (hs' : (s.step (.iterate ch boost)).1 = s') :
    s'.code = Function.update s.code s.b (s.code s.b - s.code s.a) ∧ s'.die = false ∧
      (s.target = some (-1) → s'.stopped = true ∧ s'.pc = s.pc) ∧
      (s.target ≠ some (-1) → s'.stopped = false ∧ s'.pc = nextIp s) := by
  obtain ⟨hpc, ⟨ha0, ha⟩, ⟨hb0, hb⟩⟩ := hin
  have hstop := hrun.1
  have hdie := hrun.2.1
  have hmax : (MAX_CODE_SIZE : Int) = 0x1000000 := rfl
  have hexec : (s.step (.iterate ch boost)).1 = s.subtract boost := by
    simp only [step, hrun, if_true, execute]
    rw [if_neg (by rw [hmax]; omega), if_neg (by omega), if_neg (by omega), if_neg (by omega),
      if_neg (by omega)]
  rw [hexec] at hs'
  subst hs'
  by_cases hle : (s.code s.b - s.code s.a).toInt ≤ 0
  · have htarget : s.target = some s.c := if_pos hle
    rw [nextIp, htarget]
    by_cases hc : s.c = -1
    · simp only [subtract, boost, hb, hle, hc, decide_true, if_true]
      exact ⟨trivial, hdie, fun _ => ⟨trivial, trivial⟩, fun h => absurd rfl h⟩
    · simp only [subtract, boost, hb, hle, hc, decide_true, if_true, if_false]
      exact ⟨trivial, hdie, fun h => absurd (Option.some.inj h) hc, fun _ => ⟨hstop, rfl⟩⟩
  · have htarget : s.target = none := if_neg hle
    rw [nextIp, htarget]
    simp only [subtract, boost, hb, hle, decide_false, Bool.false_eq_true, if_true, if_false]
    exact ⟨trivial, hdie, (fun h => nomatch h), fun _ => ⟨hstop, rfl⟩⟩

/-- Nothing changes once the machine is over. -/
theorem step_over {s : Interp} (h : s.Over) (ch : Option Byte) :
    (s.step (.iterate ch boost)).1 = { s with stopped := true } := by
  have hrun : ¬ s.Running := by
    rintro ⟨hstop, -, hpc, -⟩
    rcases h with h | h
    · rw [hstop] at h
      cases h
    · omega
  simp only [step, hrun, if_false]

end Interp

/-! ## Runs -/

/-- What lockstep needs besides the agreement. -/
structure Inv (L : Nat) (m : Nat → Interp) (n : Nat) (e e' : Emu) : Prop extends Agree m n e e' where
  same : SameMem L e.mem (m n).code
  same' : SameMem L e'.mem (m n).code
  die : (m n).die = false

section
variable {m : Nat → Interp}

/-- After one more iteration of a machine that is over. -/
theorem Inv.next_over {n : Nat} {e e' : Emu} (h : Inv L m n e e') (hover : (m n).Over)
    (hm : m (n + 1) = { m n with stopped := true }) : Inv L m (n + 1) e e' := by
  have hover' : (m (n + 1)).Over := by rw [hm]; exact .inl rfl
  refine ⟨⟨?_, h.ip, ?_, ⟨h.stopped.1, ?_⟩, ?_⟩, ?_, ?_, ?_⟩
  · rw [hm]
    exact h.mem
  · rw [hm]
    rcases h.pc with hpc | ⟨hip, k, hk, hpc⟩
    · exact .inl hpc
    · exact .inr ⟨hip, k, by omega, hpc⟩
  · exact iff_of_true (h.stopped.2.2 hover) hover'
  · obtain ⟨k, hk, ht⟩ := h.stops.1 hover
    exact iff_of_true hover' ⟨k, by omega, ht⟩
  · rw [hm]
    exact h.same
  · rw [hm]
    exact h.same'
  · rw [hm]
    exact h.die

/-- All three are about to execute the same instruction. -/
theorem Inv.running {n : Nat} {e e' : Emu} (h : Inv L m n e e') (hover : ¬ (m n).Over)
    (hin : (m n).Inside L) (hL : L ≤ 0x600000) :
    (m n).Running ∧ e = ⟨e.mem, (m n).pc, false⟩ ∧ e' = ⟨e'.mem, (m n).pc, false⟩ := by
  have hstop : (m n).stopped = false := by
    cases hs : (m n).stopped with
    | false => rfl
    | true => exact absurd (.inl hs) hover
  have hpc : 0 ≤ (m n).pc := not_lt.1 fun hlt => hover (.inr hlt)
  have hrun : (m n).Running := ⟨hstop, h.die, hpc, by
    have := hin.pc
    show (m n).pc < (0x1000000 : Int)
    omega⟩
  have hip : (m n).pc = e.ip := by
    rcases h.pc with hpc | ⟨-, k, hk, hk0, hk1, -⟩
    · exact hpc
    · exact absurd (h.stops.2 ⟨k, hk, hk0, -1, by decide, hk1⟩) hover
  have hstop1 : e.stopped = false := by
    cases hs : e.stopped with
    | false => rfl
    | true => exact absurd (h.stopped.2.1 hs) hover
  have hstop2 : e'.stopped = false := h.stopped.1.trans hstop1
  refine ⟨hrun, ?_, ?_⟩
  · rw [hip, ← hstop1]
  · rw [hip, ← h.ip, ← hstop2]

/-- The machine is over after the instruction exactly when its jump has a negative target. -/
theorem over_next {n : Nat} (hhalt : (m n).target = some (-1) → (m (n + 1)).stopped = true)
    (hgo : (m n).target ≠ some (-1) → (m (n + 1)).stopped = false ∧ (m (n + 1)).pc = nextIp (m n)) :
    (m (n + 1)).Over ↔ nextIp (m n) < 0 := by
  by_cases ht : (m n).target = some (-1)
  · refine iff_of_true (.inl (hhalt ht)) ?_
    rw [nextIp, ht]
    exact (by decide : (-1 : Int) < 0)
  · rw [Interp.Over, (hgo ht).1, (hgo ht).2]
    simp

/-- After one more instruction. -/
theorem Inv.next_inside (hL : L ≤ 0x600000) {n : Nat} {e e' : Emu} (h : Inv L m n e e')
    (hover : ¬ (m n).Over) (hin : (m n).Inside L) (ch : Option Byte)
    (hm : m (n + 1) = ((m n).step (.iterate ch boost)).1)
    (io : Memi → Int → BitVec 64 → BitVec 64 → Option (Memi × Int)) :
    ∃ f f', e.step false boost io = some f ∧ e'.step true boost io = some f' ∧ Inv L m (n + 1) f f' := by
  obtain ⟨hrun, he, he'⟩ := h.running hover hin hL
  have hpc : 0 ≤ (m n).pc := hrun.2.2.1
  obtain ⟨f, hf, hsame⟩ := Emu.step_inside hL hin hpc h.same false io
  obtain ⟨f', hf', hsame'⟩ := Emu.step_inside hL hin hpc h.same' true io
  rw [← he] at hf
  rw [← he'] at hf'
  obtain ⟨hcode, hdie, hhalt, hgo⟩ := Interp.step_inside hin hrun ch hm.symm
  have hneg := over_next (fun ht => (hhalt ht).1) hgo
  refine ⟨_, _, hf, hf', ⟨⟨fun i hi => ?_, rfl, ?_, ⟨rfl, ?_⟩, ?_⟩, ?_, ?_, hdie⟩⟩
  · rw [hcode]
    exact ⟨hsame.get i hi, hsame'.get i hi⟩
  · by_cases ht : (m n).target = some (-1)
    · exact .inr ⟨by rw [nextIp, ht]; rfl, n, n.lt_succ_self, hover, ht, (hhalt ht).2⟩
    · exact .inl (hgo ht).2
  · rw [decide_eq_true_eq]
    exact hneg.symm
  · rw [hneg]
    constructor
    · intro hlt
      refine ⟨n, n.lt_succ_self, hover, nextIp (m n), hlt, ?_⟩
      unfold nextIp at hlt ⊢
      cases ht : (m n).target with
      | none =>
        rw [ht] at hlt
        simp only [Option.getD_none] at hlt
        omega
      | some t => rfl
    · rintro ⟨k, hk, hk0, t, ht, htarget⟩
      rcases Nat.lt_succ_iff_lt_or_eq.1 hk with hk | rfl
      · exact absurd (h.stops.2 ⟨k, hk, hk0, t, ht, htarget⟩) hover
      · rw [nextIp, htarget]
        exact ht
  · rw [hcode]
    exact hsame
  · rw [hcode]
    exact hsame'

end

end

/-- The emulator holds the words it was loaded with. -/
theorem Emu.start_eq (words : List (BitVec 64)) : Emu.start words = some ⟨⟨words⟩, 0, false⟩ := by
  have hload : ∀ (ws v : List (BitVec 64)), Emu.load ws ⟨v⟩ v.length = some ⟨v ++ ws⟩ := by
    intro ws
    induction ws with
    | nil => exact fun v => by rw [List.append_nil]; rfl
    | cons w ws ih =>
      intro v
      have hstore : Memi.store ⟨v⟩ v.length w = some ⟨v ++ [w]⟩ := by
        simp [Memi.store, Memi.index]
      have hlen : ((v ++ [w]).length : Int) = v.length + 1 := by simp
      rw [Emu.load, hstore]
      show Emu.load ws ⟨v ++ [w]⟩ (v.length + 1) = _
      rw [← hlen, ih, List.append_assoc]
      rfl
  have h := hload words []
  rw [List.length_nil, Nat.cast_zero, List.nil_append] at h
  rw [Emu.start, h]
  rfl

/-! ## Main result -/

section
variable (words : List (BitVec 64)) (around : Int → BitVec 64) (keys : Nat → Option Byte)
  (io : Memi → Int → BitVec 64 → BitVec 64 → Option (Memi × Int))

theorem start_same : SameMem words.length ⟨words⟩ (Interp.start words around).code where
  get i hi := by
    have hin : Interp.inBounds i := ⟨by omega, by show (i : Int) < 0x1000000; omega⟩
    have hfont : ¬ (0x600000 ≤ (i : Int) ∧ (i : Int) < 0x600000 + 256) := by omega
    simp only [Interp.start, hin, hfont, if_true, if_false, Int.toNat_natCast]
  size := le_rfl

theorem lockstep_inv (hL : words.length ≤ 0x600000) (n : Nat)
    (hin : ∀ k < n, ¬ (Interp.after words around keys k).Over →
      (Interp.after words around keys k).Inside words.length) :
    ∃ e e', (Emu.start words).bind (fun e => e.run false boost io n) = some e ∧
      (Emu.start words).bind (fun e => e.run true boost io n) = some e' ∧
      Inv words.length (Interp.after words around keys) n e e' := by
  rw [Emu.start_eq]
  induction n with
  | zero =>
    have hsame := start_same words around
    have hover : ¬ (Interp.start words around).Over := by
      rintro (h | h)
      · cases h
      · exact absurd h (by decide : ¬ (0 : Int) < 0)
    refine ⟨_, _, rfl, rfl, ⟨⟨fun i hi => ⟨hsame.get i hi, hsame.get i hi⟩, rfl, .inl rfl, ⟨rfl, ?_⟩, ?_⟩,
      hsame, hsame, rfl⟩⟩
    · exact iff_of_false Bool.false_ne_true hover
    · exact iff_of_false hover fun ⟨k, hk, _⟩ => absurd hk k.not_lt_zero
  | succ n ih =>
    obtain ⟨e, e', he, he', hinv⟩ := ih fun k hk => hin k (by omega)
    have hrun : ∀ (flash : Bool) (f : Emu), (some ⟨⟨words⟩, 0, false⟩ : Option Emu).bind
        (fun e => e.run flash boost io n) = some f →
        (some ⟨⟨words⟩, 0, false⟩ : Option Emu).bind (fun e => e.run flash boost io (n + 1)) =
          f.step flash boost io := by
      intro flash f hf
      rw [Option.bind_some] at hf
      rw [Option.bind_some, Emu.run, hf]
      rfl
    rw [hrun _ _ he, hrun _ _ he']
    by_cases hover : (Interp.after words around keys n).Over
    · have hstop : e.stopped = true := hinv.stopped.2.2 hover
      have hstop' : e'.stopped = true := hinv.stopped.1.trans hstop
      refine ⟨e, e', ?_, ?_, hinv.next_over hover (Interp.step_over hover _)⟩
      · rw [Emu.step, if_pos hstop]
      · rw [Emu.step, if_pos hstop']
    · exact hinv.next_inside hL hover (hin n n.lt_succ_self hover) (keys n) rfl io

/-- See the module doc. -/
theorem lockstep (hL : words.length ≤ 0x600000) (n : Nat)
    (hin : ∀ k < n, ¬ (Interp.after words around keys k).Over →
      (Interp.after words around keys k).Inside words.length) :
    ∃ e e', (Emu.start words).bind (fun e => e.run false boost io n) = some e ∧
      (Emu.start words).bind (fun e => e.run true boost io n) = some e' ∧
      Agree (Interp.after words around keys) n e e' := by
  obtain ⟨e, e', he, he', hinv⟩ := lockstep_inv words around keys io hL n hin
  exact ⟨e, e', he, he', hinv.toAgree⟩

end

/-- The instruction at 3 changes the operand of the one at 6; the jumps at 0 and 3 are not taken, the one at 6
goes to 9, and the one at 9 halts. -/
def selfModifying : List (BitVec 64) := [12, 13, 6, 12, 6, 0, 14, 13, 9, 12, 12, -1, 1, 5, 0]

theorem inside_selfModifying : ∀ k < 5,
    ¬ (Interp.after selfModifying (fun _ => 0) (fun _ => none) k).Over →
      (Interp.after selfModifying (fun _ => 0) (fun _ => none) k).Inside selfModifying.length := by
  intro k hk hover
  have hlt : k < 4 := by
    by_contra hge
    obtain rfl : k = 4 := by omega
    exact hover (.inl (by decide))
  interval_cases k
  · exact ⟨by decide, by decide, by decide⟩
  · exact ⟨by decide, by decide, by decide⟩
  · exact ⟨by decide, by decide, by decide⟩
  · exact ⟨by decide, by decide, by decide⟩

/-- Counter, changed operand and result before each step of `selfModifying`, and the three machines after it. -/
theorem lockstep_selfModifying :
    ((List.range 5).map fun k =>
      let s := Interp.after selfModifying (fun _ => 0) (fun _ => none) k
      (s.pc, s.code 6, s.code 13)) = [(0, 14, 5), (3, 14, 4), (6, 13, 4), (9, 13, 0), (9, 13, 0)] ∧
    ∃ e e',
      (Emu.start selfModifying).bind (fun e => e.run false boost (fun _ _ _ _ => none) 5) = some e ∧
        (Emu.start selfModifying).bind (fun e => e.run true boost (fun _ _ _ _ => none) 5) = some e' ∧
        Agree (Interp.after selfModifying (fun _ => 0) fun _ => none) 5 e e' :=
  ⟨by decide, lockstep selfModifying (fun _ => 0) (fun _ => none) (fun _ _ _ _ => none) (by decide) 5
    inside_selfModifying⟩

theorem inside_halt : ∀ k < 2, ¬ (Interp.after [0, 0, -1] (fun _ => 0) (fun _ => none) k).Over →
    (Interp.after [0, 0, -1] (fun _ => 0) (fun _ => none) k).Inside 3 := by
  intro k hk hover
  cases k with
  | zero => exact ⟨by decide, by decide, by decide⟩
  | succ k =>
    obtain rfl : k = 0 := by omega
    exact absurd (.inl (by decide)) hover

/-- The program that halts at once: its jump leaves -1 in the emulator's counter and 0 in the interpreter's. -/
theorem halt_keeps_pc : (∀ k < 1, ¬ (Interp.after [0, 0, -1] (fun _ => 0) (fun _ => none) k).Over →
    (Interp.after [0, 0, -1] (fun _ => 0) (fun _ => none) k).Inside 3) ∧
      ((Emu.start [0, 0, -1]).bind fun e => e.run false boost (fun _ _ _ _ => none) 1).map (·.ip) = some (-1) ∧
      (Interp.after [0, 0, -1] (fun _ => 0) (fun _ => none) 1).pc = 0 := by
  refine ⟨fun k hk => inside_halt k (by omega), ?_, ?_⟩ <;> decide

end NandServer
