import HsqOverNand.Subleq.Machine

/-!
# The indices of the interpreter

`in_bounds_iff`: in a run from any program image, with any keys, answers and interrupts, all indices
lie in the array if and only if every event is `Guarded`: no instruction starts in the last two words,
no console write has a negative `a`, no keyboard or Ctrl-C read a negative `b`, and an interrupt finds
`b` in range. `write_before_array`: a program whose first instruction is not.
-/

set_option autoImplicit false

namespace NandServer.Interp

/-! ## Statement -/

/-- What the checks of the loop leave open for an instruction. -/
def OperandsGuarded (s : Interp) : Prop :=
  s.a < MAX_CODE_SIZE → s.b < MAX_CODE_SIZE →
    if s.b = -1 then 0 ≤ s.a else s.a = -1 ∨ s.a = -2 → 0 ≤ s.b

/-- What the checks of the loop leave open for an event. -/
def Guarded (s : Interp) : LoopEvent → Prop
  | .iterate _ _ => s.Running → s.pc + 2 < MAX_CODE_SIZE ∧ s.OperandsGuarded
  | .sigint fetched b _ =>
    s.stopped = false → (fetched = true → s.Running → s.pc + 2 < MAX_CODE_SIZE) ∧
      (s.jmpbuf = true → inBounds b)

/-! ## One event -/

theorem dump_inBounds (ch : Option Byte) : ∀ i ∈ dump ch, inBounds i := by
  intro i hi
  unfold dump at hi
  split at hi
  · obtain ⟨n, hn, rfl⟩ := List.mem_map.1 hi
    have := List.mem_range.1 hn
    constructor
    · omega
    · show (0xba00 + n : Int) < 0x1000000
      omega
  · cases hi

theorem fetch_inBounds {s : Interp} (h : s.Running) :
    (∀ i ∈ s.fetch, inBounds i) ↔ s.pc + 2 < MAX_CODE_SIZE := by
  obtain ⟨-, -, h0, -⟩ := h
  simp only [fetch, List.forall_mem_cons, List.not_mem_nil, false_imp_iff, implies_true, and_true, inBounds]
  omega

theorem execute_inBounds (s : Interp) (ch : Option Byte) (flashClient : Request → Response) :
    (∀ i ∈ (s.execute ch flashClient).2, inBounds i) ↔ s.OperandsGuarded := by
  unfold execute OperandsGuarded
  split
  · rename_i hbig
    refine iff_of_true (fun _ hi => by cases hi) fun ha hb => ?_
    omega
  rename_i hsmall
  obtain ⟨ha, hb⟩ := not_or.1 hsmall
  simp only [not_le] at ha hb
  split
  · rename_i hwrite
    simp only [List.forall_mem_singleton, inBounds, ha, and_true, forall_const]
    exact ⟨fun h _ => h, fun h => h hb⟩
  rename_i hwrite
  have hone : ∀ l : List Int, (∀ i ∈ l, inBounds i) →
      ((∀ i ∈ l ++ [s.b], inBounds i) ↔ 0 ≤ s.b) := by
    intro l hl
    constructor
    · exact fun h => (h s.b (by simp)).1
    · intro h0 i hi
      rcases List.mem_append.1 hi with hi | hi
      · exact hl i hi
      · rw [List.mem_singleton.1 hi]
        exact ⟨h0, hb⟩
  simp only [ha, hb, forall_const]
  split
  · rename_i hkey
    rw [hone _ (dump_inBounds ch)]
    simp [hkey]
  rename_i hkey
  split
  · rename_i hctrlc
    rw [← List.nil_append [s.b], hone [] (fun _ hi => by cases hi)]
    simp [hctrlc]
  rename_i hctrlc
  split
  · refine iff_of_true (fun _ hi => by cases hi) fun h => ?_
    omega
  · rename_i hneg
    refine iff_of_true (fun i hi => ?_) fun h => ?_
    · simp only [List.mem_cons, List.not_mem_nil, or_false] at hi
      unfold inBounds
      omega
    · omega

theorem step_inBounds (s : Interp) (e : LoopEvent) : (∀ i ∈ (s.step e).2, inBounds i) ↔ s.Guarded e := by
  cases e with
  | iterate ch flashClient =>
    unfold step Guarded
    dsimp only
    split
    · rename_i hrun
      rw [List.forall_mem_append, fetch_inBounds hrun, execute_inBounds]
      simp [hrun]
    · rename_i hrun
      simp [hrun]
  | sigint fetched b pc =>
    unfold step Guarded
    dsimp only
    cases hstop : s.stopped with
    | true => simp
    | false =>
      have hacc : (∀ i ∈ (if fetched = true ∧ s.Running then s.fetch else []), inBounds i) ↔
          (fetched = true → s.Running → s.pc + 2 < MAX_CODE_SIZE) := by
        split
        · rename_i h
          rw [fetch_inBounds h.2]
          simp [h.1, h.2]
        · rename_i h
          refine iff_of_true (fun _ hi => by cases hi) fun hf hr => absurd ⟨hf, hr⟩ h
      cases hjmp : s.jmpbuf with
      | true =>
        simp only [Bool.false_eq_true, if_false, if_true, List.forall_mem_append, hacc, true_imp_iff]
        simp
      | false =>
        simp only [Bool.false_eq_true, if_false, hacc, true_imp_iff, false_imp_iff, and_true]

/-! ## Runs -/

/-- See the module doc. -/
theorem in_bounds_iff (words : List (BitVec 64)) (around : Int → BitVec 64) (es : List LoopEvent) :
    (∀ k e, es[k]? = some e →
      ∀ i ∈ (((start words around).run (es.take k)).step e).2, inBounds i) ↔
      ∀ k e, es[k]? = some e → ((start words around).run (es.take k)).Guarded e :=
  forall_congr' fun _ => forall_congr' fun e => imp_congr_right fun _ => step_inBounds _ e

/-- The program `-1 -1 0` writes `code[-1]` to the console. -/
theorem write_before_array :
    ¬ ∀ i ∈ ((start [-1, -1, 0] fun _ => 0).step (.iterate none boost)).2, inBounds i := by
  rw [step_inBounds]
  intro h
  have hguard := (h (by decide)).2 (by decide) (by decide)
  rw [if_pos (by decide)] at hguard
  revert hguard
  decide

end NandServer.Interp
