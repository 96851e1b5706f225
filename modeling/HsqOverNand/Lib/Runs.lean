import Mathlib.Algebra.BigOperators.Group.Finset.Basic

/-!
# Runs of machines with events

`step s e = some t`: event `e` can happen in `s` and leads to `t`; `run` takes a list of events.
`only ok` keeps the steps whose events meet `ok` in the state they happen in, `Along ok` are the runs all
of whose steps do. Where every event can happen a run is a `foldl` (`kept_iff`).

A machine of parties that each hold a multiset of obligations: `conserve` is the step of a law "what
went out and what the parties hold is what came in" when one party moves.
-/

set_option autoImplicit false

namespace Runs

section
variable {S E : Type} {step : S → E → Option S}

def run (step : S → E → Option S) : S → List E → Option S
  | s, [] => some s
  | s, e :: es => (step s e).bind fun t => run step t es

theorem run_append (es fs : List E) (s : S) :
    run step s (es ++ fs) = (run step s es).bind fun t => run step t fs := by
  induction es generalizing s with
  | nil => rfl
  | cons e es ih =>
    rw [List.cons_append, run, run, Option.bind_assoc]
    exact congrArg _ (funext ih)

/-- What every step keeps, every run keeps. -/
theorem inv_run (inv : S → Prop) (hstep : ∀ s e t, inv s → step s e = some t → inv t) :
    ∀ (es : List E) {s t : S}, inv s → run step s es = some t → inv t
  | [], _, _, hs, h => by
    cases h
    exact hs
  | e :: es, s, _, hs, h => by
    obtain ⟨u, he, hes⟩ := Option.bind_eq_some_iff.1 h
    exact inv_run inv hstep es (hstep s e u hs he) hes

def only (ok : S → E → Prop) [∀ s e, Decidable (ok s e)] (step : S → E → Option S) (s : S) (e : E) :
    Option S := if ok s e then step s e else none

theorem only_eq_some {ok : S → E → Prop} [∀ s e, Decidable (ok s e)] {s t : S} {e : E} :
    only ok step s e = some t ↔ ok s e ∧ step s e = some t := by
  unfold only
  split
  · rename_i h
    exact ⟨fun hs => ⟨h, hs⟩, And.right⟩
  · rename_i h
    exact ⟨fun hs => (nomatch hs), fun hs => absurd hs.1 h⟩

/-- The events lead from `s` to the last state, and each one meets `ok` in the state it happens in. -/
inductive Along (ok : S → E → Prop) (step : S → E → Option S) (s : S) : List E → S → Prop
  | nil : Along ok step s [] s
  | snoc {es : List E} {t u : S} {e : E} (h : Along ok step s es t) (hok : ok t e)
    (hs : step t e = some u) : Along ok step s (es ++ [e]) u

/-- What the steps of such a run keep. -/
theorem Along.inv {ok : S → E → Prop} {s t : S} {es : List E} (inv : S → Prop)
    (hstep : ∀ t e u, inv t → ok t e → step t e = some u → inv u) (hs : inv s)
    (h : Along ok step s es t) : inv t := by
  induction h with
  | nil => exact hs
  | snoc _ hok he ih => exact hstep _ _ _ ih hok he

theorem Along.run {ok : S → E → Prop} {s t : S} {es : List E} (h : Along ok step s es t) :
    run step s es = some t := by
  induction h with
  | nil => rfl
  | snoc _ _ he ih => rw [run_append, ih, Option.bind_some, Runs.run, he, Option.bind_some, Runs.run]

theorem Along.trans {ok : S → E → Prop} {s t u : S} {es fs : List E} (h : Along ok step s es t)
    (h' : Along ok step t fs u) : Along ok step s (es ++ fs) u := by
  induction h' with
  | nil =>
    rw [List.append_nil]
    exact h
  | snoc _ hok he ih =>
    rw [← List.append_assoc]
    exact .snoc ih hok he

/-- A run of events that meet the condition in every state. -/
theorem Along.of_run {ok : S → E → Prop} : ∀ (es : List E) {s t : S}, (∀ e ∈ es, ∀ s, ok s e) →
    Runs.run step s es = some t → Along ok step s es t
  | [], _, _, _, h => by
    cases h
    exact .nil
  | e :: es, s, _, hok, h => by
    obtain ⟨u, he, hes⟩ := Option.bind_eq_some_iff.1 h
    have hfirst : Along ok step s [e] u := Along.nil.snoc (hok e (.head es) s) he
    exact hfirst.trans (Along.of_run es (fun f hf => hok f (.tail e hf)) hes)

/-- Events that meet another condition as well, by what the steps keep. -/
theorem Along.imp {ok ok' : S → E → Prop} {s t : S} {es : List E} (inv : S → Prop)
    (hstep : ∀ t e u, inv t → ok t e → step t e = some u → inv u)
    (himp : ∀ t e, inv t → ok t e → ok' t e) (hs : inv s) (h : Along ok step s es t) :
    Along ok' step s es t := by
  induction h with
  | nil => exact .nil
  | snoc h hok he ih => exact .snoc ih (himp _ _ (h.inv inv hstep hs) hok) he

end

section
variable {S E β : Type} {step : S → E → S} {f : S → β}

/-- A part of the state is the same all along a run if and only if no step of it changes the part. -/
theorem kept_iff (s : S) (es : List E) : (∀ k, f ((es.take k).foldl step s) = f s) ↔
    ∀ k e, es[k]? = some e → f (step ((es.take k).foldl step s) e) = f ((es.take k).foldl step s) := by
  have hnext : ∀ k e, es[k]? = some e →
      (es.take (k + 1)).foldl step s = step ((es.take k).foldl step s) e := by
    intro k e he
    rw [List.take_add_one, he, List.foldl_append]
    rfl
  constructor
  · intro h k e he
    rw [← hnext k e he, h, h]
  · intro h k
    induction k with
    | zero => rfl
    | succ k ih =>
      cases he : es[k]? with
      | none =>
        rw [List.take_add_one, he, Option.toList_none, List.append_nil]
        exact ih
      | some e => rw [hnext k e he, h k e he, ih]

/-- Each `host` event uses up one of at most `todo s` steps. -/
theorem todo_foldl (todo : S → Nat) (host : E → Bool)
    (hstep : ∀ s e, todo (step s e) ≤ if host e then todo s - 1 else todo s) :
    ∀ (es : List E) (s : S), todo (es.foldl step s) ≤ todo s - es.countP host
  | [], _ => Nat.le_refl _
  | e :: es, s => by
    have hrest := todo_foldl todo host hstep es (step s e)
    have he := hstep s e
    rw [List.foldl_cons, List.countP_cons]
    cases hhost : host e with
    | true =>
      rw [hhost, if_pos rfl] at he
      rw [if_pos rfl]
      omega
    | false =>
      rw [hhost, if_neg Bool.false_ne_true] at he
      rw [if_neg Bool.false_ne_true]
      omega

end

section
variable {ι M P : Type} [Fintype ι] [DecidableEq ι] [AddCancelCommMonoid M]

theorem sum_update (held : P → M) (parties : ι → P) (i : ι) (p : P) :
    ∑ j, held (Function.update parties i p j) = held p + ∑ j ∈ Finset.univ.erase i, held (parties j) := by
  rw [← Finset.add_sum_erase Finset.univ _ (Finset.mem_univ i), Function.update_self]
  refine congrArg _ (Finset.sum_congr rfl fun j hj => ?_)
  rw [Function.update_of_ne (Finset.ne_of_mem_erase hj)]

theorem conserve {held : P → M} {parties : ι → P} {i : ι} {p : P} {out out' inn inn' : M}
    (h : out + ∑ j, held (parties j) = inn)
    (hmove : out' + held p + inn = out + held (parties i) + inn') :
    out' + ∑ j, held (Function.update parties i p j) = inn' := by
  rw [sum_update]
  rw [← Finset.add_sum_erase Finset.univ _ (Finset.mem_univ i)] at h
  generalize ∑ j ∈ Finset.univ.erase i, held (parties j) = rest at h ⊢
  refine add_right_cancel (b := inn) ?_
  calc out' + (held p + rest) + inn
      = out' + held p + inn + rest := by ac_rfl
    _ = out + held (parties i) + inn' + rest := by rw [hmove]
    _ = inn' + (out + (held (parties i) + rest)) := by ac_rfl
    _ = inn' + inn := by rw [h]

end

end Runs
