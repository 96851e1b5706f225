import Mathlib.Data.Fintype.Order
import Mathlib.Tactic.Ring

/-!
# AND networks and their timed execution

A network gives every node the AND of its literals (nodes read in a polarity) and of a start value:
`v c = init c && (N c).all (lit v)`. On a well-founded network there is exactly one such valuation
(`models_unique`, `exists_models`).

A timed network writes the literals of a node one step at a time; `accum T init v t c` is what node
`c` has accumulated after step `t` when its literals have their final values. A node whose last
write is over holds its value (`accum_final`), so a step that reads finished nodes adds the
literals' final values (`accum_step`).
-/

set_option autoImplicit false

namespace AndNet

variable {ι : Type}

/-- A node read in a polarity (`true`: complemented). -/
abbrev Lit (ι : Type) := ι × Bool

abbrev Net (ι : Type) := ι → List (Lit ι)

def lit (v : ι → Bool) (l : Lit ι) : Bool := v l.1 != l.2

/-- `a` is read by `b`. -/
def Feeds (N : Net ι) (a b : ι) : Prop := ∃ l ∈ N b, l.1 = a

def Models (N : Net ι) (init v : ι → Bool) : Prop := ∀ c, v c = (init c && (N c).all (lit v))

theorem all_lit_congr {ls : List (Lit ι)} {v v' : ι → Bool} (h : ∀ l ∈ ls, v l.1 = v' l.1) :
    ls.all (lit v) = ls.all (lit v') := by
  rw [Bool.eq_iff_iff, List.all_eq_true, List.all_eq_true]
  exact forall₂_congr fun l hl => by rw [lit, lit, h l hl]

/-- The valuation of a well-founded network is unique. -/
theorem models_unique {N : Net ι} (hwf : WellFounded (Feeds N)) {init v v' : ι → Bool}
    (h : Models N init v) (h' : Models N init v') : v = v' := by
  funext c
  induction c using hwf.induction with
  | _ c ih => rw [h c, h' c, all_lit_congr fun l hl => ih l.1 ⟨l, hl, rfl⟩]

/-- A well-founded network has a valuation. -/
theorem exists_models {N : Net ι} (hwf : WellFounded (Feeds N)) (init : ι → Bool) :
    ∃ v, Models N init v := by
  let step (c : ι) (rec : ∀ a, Feeds N a c → Bool) : Bool :=
    init c && (N c).attach.all fun l => rec l.1.1 ⟨l.1, l.2, rfl⟩ != l.1.2
  refine ⟨hwf.fix step, fun c => ?_⟩
  rw [hwf.fix_eq]
  show (init c && (N c).attach.all fun l => hwf.fix step l.1.1 != l.1.2) = _
  congr 1
  rw [Bool.eq_iff_iff, List.all_eq_true, List.all_eq_true]
  constructor
  · exact fun h l hl => h ⟨l, hl⟩ (List.mem_attach _ _)
  · exact fun h l _ => h l.1 l.2

/-- A relation without a cycle among finitely many nodes is well-founded. -/
theorem wellFounded_of_acyclic [Finite ι] {r : ι → ι → Prop}
    (h : ∀ c, ¬ Relation.TransGen r c c) : WellFounded r := by
  have : Std.Irrefl (Relation.TransGen r) := ⟨h⟩
  exact Subrelation.wf Relation.TransGen.single
    (Finite.wellFounded_of_trans_of_irrefl (Relation.TransGen r))

/-! ## Timed execution -/

/-- Literals with the step they are written at. -/
abbrev Timed (ι : Type) := ι → List (Lit ι × Int)

/-- Node `c` after step `t`. -/
def accum (T : Timed ι) (init v : ι → Bool) (t : Int) (c : ι) : Bool :=
  init c && (T c).all fun w => decide (t < w.2) || lit v w.1

section
variable {T : Timed ι} {init v : ι → Bool} {t : Int} {c : ι}

theorem accum_start (h : ∀ w ∈ T c, t < w.2) : accum T init v t c = init c := by
  have : ((T c).all fun w => decide (t < w.2) || lit v w.1) = true :=
    List.all_eq_true.2 fun w hw => by simp [h w hw]
  rw [accum, this, Bool.and_true]

/-- After its last write a node holds its value. -/
theorem accum_final {N : Net ι} (hv : Models N init v) (hp : ((T c).map (·.1)).Perm (N c))
    (h : ∀ w ∈ T c, w.2 ≤ t) : accum T init v t c = v c := by
  rw [hv c, accum]
  congr 1
  rw [Bool.eq_iff_iff, List.all_eq_true, List.all_eq_true]
  constructor
  · intro ha l hl
    obtain ⟨w, hw, rfl⟩ := List.mem_map.1 (hp.mem_iff.2 hl)
    have hlit := ha w hw
    rw [Bool.or_eq_true, decide_eq_true_eq] at hlit
    exact hlit.resolve_left (not_lt.2 (h w hw))
  · intro ha w hw
    simp [ha w.1 (hp.mem_iff.1 (List.mem_map_of_mem hw))]

/-- One step adds the literals written at it. -/
theorem accum_step : accum T init v t c =
    (accum T init v (t - 1) c && (T c).all fun w => decide (w.2 ≠ t) || lit v w.1) := by
  rw [accum, accum, Bool.and_assoc]
  congr 1
  rw [Bool.eq_iff_iff, Bool.and_eq_true, List.all_eq_true, List.all_eq_true, List.all_eq_true,
    ← forall₂_and]
  refine forall₂_congr fun w _ => ?_
  simp only [Bool.or_eq_true, decide_eq_true_eq]
  constructor
  · rintro (h | h)
    · exact ⟨.inl (by omega), .inl (by omega)⟩
    · exact ⟨.inr h, .inr h⟩
  · rintro ⟨h1 | h1, h2 | h2⟩
    · exact .inl (by omega)
    · exact .inr h2
    · exact .inr h1
    · exact .inr h1

/-- A step at which one literal is written. -/
theorem accum_step_one {l : Lit ι} (hl : (l, t) ∈ T c) (hone : ∀ w ∈ T c, w.2 = t → w.1 = l) :
    accum T init v t c = (accum T init v (t - 1) c && lit v l) := by
  rw [accum_step]
  congr 1
  rw [Bool.eq_iff_iff, List.all_eq_true]
  constructor
  · intro hall
    simpa using hall _ hl
  · intro hv w hw
    by_cases ht : w.2 = t
    · rw [hone w hw ht, hv, Bool.or_true]
    · simp [ht]

/-- A step at which nothing is written. -/
theorem accum_step_none (h : ∀ w ∈ T c, w.2 ≠ t) : accum T init v t c = accum T init v (t - 1) c := by
  have hall : ((T c).all fun w => decide (w.2 ≠ t) || lit v w.1) = true :=
    List.all_eq_true.2 fun w hw => by simp [h w hw]
  rw [accum_step, hall, Bool.and_true]

end

end AndNet
