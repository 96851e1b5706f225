import HsqOverNand.Lib.Runs
import HsqOverNand.Subleq.Machine

/-!
# The upper memory of the interpreter

The cells from `0x600000` on, with the character table at their start. The subtraction does not store
there; the keyboard read, the Ctrl-C check and the interrupt store wherever `b` points (`unguarded`).

* `step_upper`: one event keeps the upper memory if and only if it is `Harmless`.
* `upper_kept_iff`: a run keeps it if and only if all its events are.
* `check_overwrites`: a Ctrl-C check that clears an entry of the table.
-/

set_option autoImplicit false

namespace NandServer.Interp

/-! ## Statement -/

def Upper (x : Int) : Prop := 0x600000 ≤ x ∧ x < MAX_CODE_SIZE

instance (x : Int) : Decidable (Upper x) := inferInstanceAs (Decidable (_ ∧ _))

/-- The upper memory. -/
def upper (s : Interp) (x : { x // Upper x }) : BitVec 64 := s.code x

/-- The store of an event that no `b < 0x600000` guards. -/
def unguarded (s : Interp) : LoopEvent → Option (Int × BitVec 64)
  | .iterate ch _ =>
    if s.Running ∧ s.a < MAX_CODE_SIZE ∧ s.b < MAX_CODE_SIZE ∧ s.b ≠ -1 then
      if s.a = -1 then some (s.b, ch.elim (-1) (·.zeroExtend 64))
      else if s.a = -2 then some (s.b, if s.ctrlc then 1 else 0)
      else none
    else none
  | .sigint _ b _ => if s.stopped = false ∧ s.jmpbuf = true then some (b, 3) else none

/-- Such a store goes below the upper memory, or stores what is there. -/
def Harmless (s : Interp) (e : LoopEvent) : Prop := ∀ p ∈ s.unguarded e, Upper p.1 → s.code p.1 = p.2

/-! ## One event -/

theorem key_code (s : Interp) (b : Int) (ch : Option Byte) :
    (s.key b ch).code = Function.update s.code b (ch.elim (-1) (·.zeroExtend 64)) := by
  cases ch with
  | none => rfl
  | some ch =>
    unfold key
    dsimp only
    split <;> rfl

/-- The guard of the subtraction. -/
theorem subtract_upper (s : Interp) (flashClient : Request → Response) {x : Int} (hx : Upper x) :
    (s.subtract flashClient).code x = s.code x := by
  have hcode : (s.subtract flashClient).code = if s.b < 0x600000 then
      Function.update s.code s.b (flashClient ⟨s.code s.a, s.code s.b⟩).c else s.code := by
    unfold subtract
    dsimp only
    split <;> split <;> (try split) <;> rfl
  rw [hcode]
  split
  · rename_i hb
    exact Function.update_of_ne (fun he => absurd (he ▸ hx.1) (by omega)) _ _
  · rfl

/-- What an event leaves in a cell of the upper memory. -/
theorem step_code (s : Interp) (e : LoopEvent) {x : Int} (hx : Upper x) : (s.step e).1.code x =
    (s.unguarded e).elim (s.code x) fun p => Function.update s.code p.1 p.2 x := by
  cases e with
  | sigint fetched b pc =>
    simp only [step, unguarded]
    cases hstop : s.stopped with
    | true => simp
    | false =>
      cases hjmp : s.jmpbuf with
      | true => simp [key_code]
      | false => simp
  | iterate ch flashClient =>
    by_cases hrun : s.Running
    · have hstep : (s.step (.iterate ch flashClient)).1 = (s.execute ch flashClient).1 := by
        simp only [step, hrun, if_true]
      rw [hstep]
      unfold execute
      split
      · rename_i hbig
        rw [unguarded, if_neg (by omega)]
        rfl
      rename_i hsmall
      split
      · rename_i hwrite
        rw [unguarded, if_neg (by omega)]
        rfl
      rename_i hwrite
      have hun : s.unguarded (.iterate ch flashClient) = if s.a = -1 then
          some (s.b, ch.elim (-1) (·.zeroExtend 64)) else if s.a = -2 then
            some (s.b, if s.ctrlc then 1 else 0) else none :=
        if_pos ⟨hrun, by omega, by omega, hwrite⟩
      rw [hun]
      by_cases hkey : s.a = -1
      · rw [if_pos hkey, if_pos hkey]
        exact congrFun (key_code _ _ _) x
      rw [if_neg hkey, if_neg hkey]
      by_cases hctrlc : s.a = -2
      · rw [if_pos hctrlc, if_pos hctrlc]
        rfl
      rw [if_neg hctrlc, if_neg hctrlc]
      split
      · rfl
      · exact subtract_upper s flashClient hx
    · simp [step, unguarded, hrun]

theorem step_upper (s : Interp) (e : LoopEvent) : (s.step e).1.upper = s.upper ↔ s.Harmless e := by
  have hcell : (s.step e).1.upper = s.upper ↔ ∀ x, Upper x → (s.step e).1.code x = s.code x :=
    ⟨fun h x hx => congrFun h ⟨x, hx⟩, fun h => funext fun x => h x.1 x.2⟩
  rw [hcell]
  unfold Harmless
  cases hun : s.unguarded e with
  | none =>
    refine iff_of_true (fun x hx => ?_) fun p hp => by cases hp
    rw [step_code s e hx, hun]
    rfl
  | some p =>
    constructor
    · intro h q hq hup
      cases hq
      rw [← h p.1 hup, step_code s e hup, hun]
      exact Function.update_self ..
    · intro h x hx
      rw [step_code s e hx, hun]
      show Function.update s.code p.1 p.2 x = s.code x
      by_cases he : x = p.1
      · subst he
        rw [Function.update_self, h p rfl hx]
      · exact Function.update_of_ne he _ _

/-! ## Runs -/

/-- The character table. -/
theorem start_table (words : List (BitVec 64)) (around : Int → BitVec 64) {i : Nat} (hi : i < 256) :
    (start words around).code (0x600000 + i) = BitVec.ofNat 64 i := by
  have hin : inBounds (0x600000 + i) := ⟨by omega, by show (0x600000 + i : Int) < 0x1000000; omega⟩
  unfold start
  dsimp only
  rw [if_pos hin, if_pos (by omega), add_sub_cancel_left]
  exact BitVec.ofInt_natCast 64 i

/-- **The upper memory is read-only as long as no unguarded store names it.** -/
theorem upper_kept_iff (words : List (BitVec 64)) (around : Int → BitVec 64) (es : List LoopEvent) :
    (∀ i : Nat, i < 256 → (start words around).code (0x600000 + i) = BitVec.ofNat 64 i) ∧
      ((∀ k, ((start words around).run (es.take k)).upper = (start words around).upper) ↔
        ∀ k e, es[k]? = some e → ((start words around).run (es.take k)).Harmless e) := by
  refine ⟨fun i hi => start_table words around hi, (Runs.kept_iff _ es).trans ?_⟩
  exact forall_congr' fun _ => forall_congr' fun e => imp_congr_right fun _ => step_upper _ e

/-- The program `-2 0x600001 0` stores the Ctrl-C flag over the `1` of the table. -/
theorem check_overwrites :
    ((start [-2, 0x600001, 0] fun _ => 0).run [.iterate none boost]).code 0x600001 = 0 ∧
      (start [-2, 0x600001, 0] fun _ => 0).code 0x600001 = 1 := by
  have hup : Upper 0x600001 := by decide
  refine ⟨(step_code _ _ hup).trans ?_, start_table _ _ (i := 1) (by decide)⟩
  rfl

end NandServer.Interp
