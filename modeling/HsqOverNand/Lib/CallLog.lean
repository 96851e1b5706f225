import Mathlib.Data.Fintype.Order

/-!
# Logs of calls

A log lists events, the oldest first. `Each R log`: every event of the log stands in `R` to the
events before it (`each_concat`: one event at a time). Events that open and close one resource:
`isOpen` is what the log leaves, and a log that opens only what is closed, closes only what is open
and leaves it closed is a sequence of pairs (`paired_of_each`).
-/

set_option autoImplicit false

namespace CallLog

variable {ε : Type}

def Each (R : List ε → ε → Prop) (log : List ε) : Prop :=
  ∀ pre e post, log = pre ++ e :: post → R pre e

variable {R : List ε → ε → Prop} {log : List ε}

theorem each_nil : Each R [] := fun pre e post h => by simp at h

theorem each_concat {e : ε} : Each R (log ++ [e]) ↔ Each R log ∧ R log e := by
  constructor
  · intro h
    refine ⟨fun pre f post hl => h pre f (post ++ [e]) ?_, h log e [] rfl⟩
    rw [hl, List.append_assoc]
    rfl
  · rintro ⟨hlog, he⟩ pre f post hl
    rcases List.eq_nil_or_concat post with rfl | ⟨post', x, rfl⟩
    · obtain ⟨rfl, h⟩ := List.append_inj' hl rfl
      cases h
      exact he
    · rw [List.concat_eq_append, ← List.cons_append, ← List.append_assoc] at hl
      exact hlog pre f post' (List.append_inj' hl rfl).1

/-! ## Opening and closing -/

variable (opens closes : ε → Bool)

/-- Whether the last event that opens or closes is one that opens. -/
def isOpen (log : List ε) : Bool :=
  log.foldl (fun o e => if opens e then true else if closes e then false else o) false

@[simp] theorem isOpen_nil : isOpen opens closes [] = false := rfl

theorem isOpen_concat (log : List ε) (e : ε) : isOpen opens closes (log ++ [e]) =
    if opens e then true else if closes e then false else isOpen opens closes log := by
  rw [isOpen, List.foldl_concat]
  rfl

/-- An event that opens and one that closes, again and again. -/
inductive Paired : List ε → Prop
  | nil : Paired []
  | pair {l : List ε} {a b : ε} : Paired l → opens a = true → closes b = true → Paired (l ++ [a, b])

variable {opens closes}

theorem each_shape (h : Each (fun pre e => (opens e = true → isOpen opens closes pre = false) ∧
      (closes e = true → isOpen opens closes pre = true)) log) :
    (isOpen opens closes log = false → Paired opens closes (log.filter fun e => opens e || closes e)) ∧
    (isOpen opens closes log = true → ∃ l a, Paired opens closes l ∧ opens a = true ∧
      (log.filter fun e => opens e || closes e) = l ++ [a]) := by
  induction log using List.reverseRecOn with
  | nil => exact ⟨fun _ => .nil, fun h => by simp at h⟩
  | append_singleton log e ih =>
    obtain ⟨hlog, ho, hc⟩ := each_concat.1 h
    obtain ⟨ih0, ih1⟩ := ih hlog
    rw [isOpen_concat, List.filter_append]
    by_cases hopen : opens e = true
    · have hl := ho hopen
      refine ⟨fun hf => by simp [hopen] at hf, fun _ => ⟨_, e, ih0 hl, hopen, ?_⟩⟩
      simp [hopen]
    by_cases hclose : closes e = true
    · obtain ⟨l, a, hl, ha, hfl⟩ := ih1 (hc hclose)
      refine ⟨fun _ => ?_, fun hf => by simp [hopen, hclose] at hf⟩
      have := Paired.pair hl ha hclose
      simpa [hopen, hclose, hfl] using this
    · simp only [hopen, hclose, Bool.false_eq_true, if_false, List.filter_cons, List.filter_nil,
        Bool.or_false, List.append_nil]
      exact ⟨ih0, ih1⟩

/-- **Whatever is opened is closed exactly once.** -/
theorem paired_of_each (h : Each (fun pre e => (opens e = true → isOpen opens closes pre = false) ∧
      (closes e = true → isOpen opens closes pre = true)) log)
    (hend : isOpen opens closes log = false) :
    Paired opens closes (log.filter fun e => opens e || closes e) :=
  (each_shape h).1 hend

theorem Each.mono {R' : List ε → ε → Prop} (h : Each R log) (hr : ∀ pre e, R pre e → R' pre e) :
    Each R' log :=
  fun pre e post hl => hr pre e (h pre e post hl)

end CallLog
