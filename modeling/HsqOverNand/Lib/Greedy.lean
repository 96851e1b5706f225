import Mathlib.Data.Int.Interval
import Mathlib.Data.List.Perm.Subperm
import Mathlib.Tactic.Ring

/-!
# Greedy slots

Jobs of length one share a machine; each may only run after its release time. `finish` runs them in
the given order, each as early as it can. `finish_le`: in the order of the release times this ends no
later than any other assignment of distinct slots.
-/

set_option autoImplicit false

namespace Greedy

/-- The last slot used, from `t` on. -/
def finish : Int → List Int → Int
  | t, [] => t
  | t, r :: rs => finish (max r t + 1) rs

/-- A bound from every point on: the jobs left there need a slot each. -/
theorem finish_le_of_rest {m : Int} : ∀ (rs : List Int) (t : Int), t + rs.length ≤ m →
    (∀ pre r post, rs = pre ++ r :: post → r + 1 + post.length ≤ m) → finish t rs ≤ m
  | [], t, ht, _ => by
    rw [List.length_nil, Int.natCast_zero, Int.add_zero] at ht
    exact ht
  | r :: rs, t, ht, h => by
    unfold finish
    have hr := h [] r rs rfl
    rw [List.length_cons] at ht
    refine finish_le_of_rest rs _ (by omega) fun pre r' post he => ?_
    exact h (r :: pre) r' post (by rw [he, List.cons_append])

/-- Distinct integers after `a` and up to `b`. -/
theorem length_le_of_nodup {l : List Int} {a b : Int} (hd : l.Nodup) (h : ∀ x ∈ l, a < x ∧ x ≤ b)
    (hab : a ≤ b) : a + l.length ≤ b := by
  have hsub : l.toFinset ⊆ Finset.Ioc a b := fun x hx => Finset.mem_Ioc.2 (h x (List.mem_toFinset.1 hx))
  have hcard := Finset.card_le_card hsub
  rw [List.toFinset_card_of_nodup hd, Int.card_Ioc] at hcard
  omega

/-- The jobs released at `r` or later, counted in an order by release times. -/
theorem length_le_countP {pre post : List Int} {r : Int} (hs : (pre ++ r :: post).Pairwise (· ≤ ·)) :
    post.length + 1 ≤ (pre ++ r :: post).countP fun x => decide (r ≤ x) := by
  have hpost : ∀ x ∈ r :: post, decide (r ≤ x) = true := by
    intro x hx
    cases hx with
    | head => exact decide_eq_true (le_refl r)
    | tail _ hx => exact decide_eq_true ((List.pairwise_cons.1 (List.pairwise_append.1 hs).2.1).1 x hx)
  have hcount := List.countP_eq_length.2 hpost
  rw [List.length_cons] at hcount
  rw [List.countP_append, hcount]
  omega

/-- **Greedy is optimal**: `jobs` are any release times and slots, `rs` the same release times in
order. -/
theorem finish_le {rs : List Int} {jobs : List (Int × Int)} {t m : Int} (hs : rs.Pairwise (· ≤ ·))
    (hp : (jobs.map Prod.fst).Perm rs) (hd : (jobs.map Prod.snd).Nodup)
    (hj : ∀ j ∈ jobs, j.1 < j.2 ∧ t < j.2 ∧ j.2 ≤ m) (ht : t ≤ m) : finish t rs ≤ m := by
  refine finish_le_of_rest rs t ?_ fun pre r post he => ?_
  · have hall := length_le_of_nodup hd (fun x hx => by
      obtain ⟨j, hmem, rfl⟩ := List.mem_map.1 hx
      exact (hj j hmem).2) ht
    rw [List.length_map] at hall
    rwa [← hp.length_eq, List.length_map]
  · subst he
    have hcount := length_le_countP hs
    rw [← hp.countP_eq, List.countP_map, List.countP_eq_length_filter] at hcount
    -- The jobs released at `r` or later sit in distinct slots after `r`.
    have hlate := length_le_of_nodup (a := r) (b := m)
      (hd.sublist ((List.filter_sublist (p := (fun x => decide (r ≤ x)) ∘ Prod.fst)).map _)) ?_ ?_
    · rw [List.length_map] at hlate
      omega
    · intro x hx
      obtain ⟨j, hmem, rfl⟩ := List.mem_map.1 hx
      obtain ⟨hin, hr⟩ := List.mem_filter.1 hmem
      obtain ⟨h1, -, h2⟩ := hj j hin
      have hr : r ≤ j.1 := of_decide_eq_true hr
      exact ⟨by omega, h2⟩
    · obtain ⟨j, hmem, hjr⟩ := 
        List.mem_map.1 (hp.mem_iff.2 (List.mem_append_right pre (List.mem_cons_self ..)))
      obtain ⟨h1, -, h2⟩ := hj j hmem
      omega

end Greedy
