import Mathlib.Data.Finset.Card
import Mathlib.Data.Finset.Image

/-!
# Who was here lately

A history lists who came and when. `live`: those whose latest visit is less than a window ago;
`recent`: those with any visit in the window, the same when the clock does not go back
(`live_eq_recent`).

A table with one entry a visitor `Tracks` a history when every entry holds the visitor's latest visit
and no live visitor is missing. Then its entries in the window are as many as the live visitors
(`Tracks.countP`). A visit keeps it so when it renews the entry of the visitor (`Tracks.renew`), or
enters him in place of entries out of the window (`Tracks.enter`).
-/

set_option autoImplicit false

namespace Recent

variable {κ : Type} [DecidableEq κ]

def latest (h : List (κ × Nat)) (k : κ) : Option Nat :=
  h.foldl (fun t c => if c.1 = k then some c.2 else t) none

def live (window : Nat) (h : List (κ × Nat)) (now : Nat) : Finset κ :=
  (h.map Prod.fst).toFinset.filter fun k => (latest h k).any fun t => now - t < window

def recent (window : Nat) (h : List (κ × Nat)) (now : Nat) : Finset κ :=
  ((h.filter fun c => now - c.2 < window).map Prod.fst).toFinset

/-- The clock does not go back. -/
def Ordered (h : List (κ × Nat)) : Prop := h.Pairwise fun c d => c.2 ≤ d.2

variable {window now t : Nat} {h : List (κ × Nat)} {k k' : κ}

theorem latest_append : latest (h ++ [(k, t)]) k' = if k = k' then some t else latest h k' := by
  unfold latest
  rw [List.foldl_concat]

@[simp] theorem latest_append_self : latest (h ++ [(k, t)]) k = some t := by
  rw [latest_append, if_pos rfl]

theorem latest_append_ne (hne : k' ≠ k) : latest (h ++ [(k, t)]) k' = latest h k' := by
  rw [latest_append, if_neg hne.symm]

theorem mem_of_latest (hl : latest h k = some t) : (k, t) ∈ h := by
  induction h using List.reverseRecOn with
  | nil => cases hl
  | append_singleton h c ih =>
    rw [latest_append] at hl
    split at hl
    · rename_i he
      cases hl
      exact List.mem_append_right _ (List.mem_singleton.2 (by rw [← he]))
    · exact List.mem_append_left _ (ih hl)

theorem mem_live : k ∈ live window h now ↔ ∃ t, latest h k = some t ∧ now - t < window := by
  unfold live
  rw [Finset.mem_filter, List.mem_toFinset, Option.any_eq_true]
  constructor
  · rintro ⟨-, t, hl, ht⟩
    exact ⟨t, hl, of_decide_eq_true ht⟩
  · rintro ⟨t, hl, ht⟩
    exact ⟨List.mem_map_of_mem (mem_of_latest hl), t, hl, decide_eq_true ht⟩

theorem mem_recent : k ∈ recent window h now ↔ ∃ t, (k, t) ∈ h ∧ now - t < window := by
  unfold recent
  simp only [List.mem_toFinset, List.mem_map, List.mem_filter, decide_eq_true_eq]
  constructor
  · rintro ⟨c, ⟨hc, ht⟩, rfl⟩
    exact ⟨c.2, hc, ht⟩
  · rintro ⟨t, hc, ht⟩
    exact ⟨(k, t), ⟨hc, ht⟩, rfl⟩

/-- The latest visit is the last one. -/
theorem le_latest (ho : Ordered h) (hc : (k, t) ∈ h) : ∃ t', latest h k = some t' ∧ t ≤ t' := by
  induction h using List.reverseRecOn with
  | nil => cases hc
  | append_singleton h c ih =>
    obtain ⟨hh, -, hlast⟩ := List.pairwise_append.1 ho
    by_cases he : k = c.1
    · refine ⟨c.2, by rw [he]; exact latest_append_self, ?_⟩
      rcases List.mem_append.1 hc with hc | hc
      · exact hlast _ hc c (List.mem_singleton_self c)
      · rw [← List.mem_singleton.1 hc]
    · rcases List.mem_append.1 hc with hc | hc
      · obtain ⟨t', hl, hle⟩ := ih hh hc
        exact ⟨t', (latest_append_ne he).trans hl, hle⟩
      · exact absurd (congrArg Prod.fst (List.mem_singleton.1 hc)) he

theorem live_eq_recent (ho : Ordered h) : live window h now = recent window h now := by
  ext k
  rw [mem_live, mem_recent]
  constructor
  · rintro ⟨t, hl, ht⟩
    exact ⟨t, mem_of_latest hl, ht⟩
  · rintro ⟨t, hc, ht⟩
    obtain ⟨t', hl, hle⟩ := le_latest ho hc
    exact ⟨t', hl, by omega⟩

/-- Time only ends visits. -/
theorem live_mono {now' : Nat} (hle : now ≤ now') : live window h now' ⊆ live window h now := by
  intro k hk
  obtain ⟨t, hl, ht⟩ := mem_live.1 hk
  exact mem_live.2 ⟨t, hl, by omega⟩

/-! ## Renamed visitors -/

section
variable {κ' : Type} [DecidableEq κ'] {f : κ → κ'}

theorem latest_map (hf : Function.Injective f) :
    latest (h.map fun c => (f c.1, c.2)) (f k) = latest h k := by
  induction h using List.reverseRecOn with
  | nil => rfl
  | append_singleton h c ih =>
    rw [List.map_append, List.map_singleton, latest_append, ih]
    show _ = latest (h ++ [(c.1, c.2)]) k
    rw [latest_append]
    by_cases he : c.1 = k
    · rw [if_pos he, if_pos (congrArg f he)]
    · rw [if_neg he, if_neg fun hk => he (hf hk)]

theorem live_map (hf : Function.Injective f) :
    live window (h.map fun c => (f c.1, c.2)) now = (live window h now).image f := by
  ext k'
  rw [Finset.mem_image]
  constructor
  · intro hk
    obtain ⟨t, hl, ht⟩ := mem_live.1 hk
    obtain ⟨c, -, he⟩ := List.mem_map.1 (mem_of_latest hl)
    obtain rfl : f c.1 = k' := congrArg Prod.fst he
    exact ⟨c.1, mem_live.2 ⟨t, (latest_map hf).symm.trans hl, ht⟩, rfl⟩
  · rintro ⟨k, hk, rfl⟩
    obtain ⟨t, hl, ht⟩ := mem_live.1 hk
    exact mem_live.2 ⟨t, (latest_map hf).trans hl, ht⟩

end

/-! ## Tables -/

structure Tracks (window : Nat) (h : List (κ × Nat)) (now : Nat) (table : List (κ × Nat)) : Prop where
  nodup : (table.map Prod.fst).Nodup
  latest : ∀ e ∈ table, latest h e.1 = some e.2
  live : ∀ k ∈ live window h now, k ∈ table.map Prod.fst

namespace Tracks

variable {table : List (κ × Nat)}

theorem nil : Tracks window ([] : List (κ × Nat)) now [] where
  nodup := List.nodup_nil
  latest := fun _ he => by cases he
  live := fun _ hk => by cases hk

theorem mono {now' : Nat} (ht : Tracks window h now table) (hle : now ≤ now') :
    Tracks window h now' table :=
  { ht with live := fun k hk => ht.live k (live_mono hle hk) }

/-- The entries in the window. -/
theorem countP (ht : Tracks window h now table) :
    table.countP (fun e => decide (now - e.2 < window)) = (Recent.live window h now).card := by
  have hnodup : ((table.filter fun e => decide (now - e.2 < window)).map Prod.fst).Nodup :=
    ht.nodup.sublist (List.filter_sublist.map Prod.fst)
  rw [List.countP_eq_length_filter, ← List.length_map Prod.fst, ← List.toFinset_card_of_nodup hnodup]
  refine congrArg Finset.card (Finset.ext fun k => ?_)
  rw [List.mem_toFinset, mem_live]
  constructor
  · intro hk
    obtain ⟨e, he, rfl⟩ := List.mem_map.1 hk
    obtain ⟨he, hlt⟩ := List.mem_filter.1 he
    exact ⟨e.2, ht.latest e he, of_decide_eq_true hlt⟩
  · rintro ⟨t, hl, hlt⟩
    obtain ⟨e, he, rfl⟩ := List.mem_map.1 (ht.live k (mem_live.2 ⟨t, hl, hlt⟩))
    obtain rfl : e.2 = t := Option.some.inj ((ht.latest e he).symm.trans hl)
    exact List.mem_map_of_mem (List.mem_filter.2 ⟨he, decide_eq_true hlt⟩)

/-- The live visitors after a visit are this one and those before. -/
theorem live_visit (hk : k' ∈ Recent.live window (h ++ [(k, t)]) now) :
    k' = k ∨ k' ∈ Recent.live window h now := by
  obtain ⟨s, hl, hs⟩ := mem_live.1 hk
  by_cases he : k' = k
  · exact .inl he
  · exact .inr (mem_live.2 ⟨s, (latest_append_ne he).symm.trans hl, hs⟩)

theorem renew (ht : Tracks window h now table) (hk : k ∈ table.map Prod.fst) :
    Tracks window (h ++ [(k, now)]) now (table.map fun e => if e.1 = k then (k, now) else e) := by
  have hkeys : (table.map fun e => if e.1 = k then (k, now) else e).map Prod.fst = table.map Prod.fst := by
    rw [List.map_map]
    refine List.map_congr_left fun e _ => ?_
    show (if e.1 = k then (k, now) else e).1 = e.1
    split
    · rename_i he
      exact he.symm
    · rfl
  refine ⟨by rw [hkeys]; exact ht.nodup, fun e he => ?_, fun k' hk' => ?_⟩
  · obtain ⟨e, hmem, rfl⟩ := List.mem_map.1 he
    split
    · exact latest_append_self
    · rename_i hne
      exact (latest_append_ne hne).trans (ht.latest e hmem)
  · rw [hkeys]
    rcases live_visit hk' with rfl | hk'
    · exact hk
    · exact ht.live k' hk'

theorem enter (ht : Tracks window h now table) (gone kept : List (κ × Nat)) {table' : List (κ × Nat)}
    (hperm : table.Perm (gone ++ kept)) (hgone : ∀ e ∈ gone, window ≤ now - e.2)
    (hk : k ∉ table.map Prod.fst) (hperm' : table'.Perm ((k, now) :: kept)) :
    Tracks window (h ++ [(k, now)]) now table' := by
  have hkept : ∀ e ∈ kept, e ∈ table := fun e he => hperm.mem_iff.2 (List.mem_append_right _ he)
  have hkeys : (table'.map Prod.fst).Perm (k :: kept.map Prod.fst) := hperm'.map Prod.fst
  refine ⟨?_, fun e he => ?_, fun k' hk' => ?_⟩
  · rw [hkeys.nodup_iff, List.nodup_cons]
    refine ⟨fun hmem => hk ?_, ?_⟩
    · obtain ⟨e, he, rfl⟩ := List.mem_map.1 hmem
      exact List.mem_map_of_mem (hkept e he)
    · have hnodup := (hperm.map Prod.fst).nodup_iff.1 ht.nodup
      rw [List.map_append] at hnodup
      exact (List.nodup_append.1 hnodup).2.1
  · rcases List.mem_cons.1 (hperm'.mem_iff.1 he) with rfl | he
    · exact latest_append_self
    · have hne : e.1 ≠ k := fun hek => hk (hek ▸ List.mem_map_of_mem (hkept e he))
      exact (latest_append_ne hne).trans (ht.latest e (hkept e he))
  · refine hkeys.mem_iff.2 ?_
    rcases live_visit hk' with rfl | hk'
    · exact List.mem_cons_self
    · -- an entry that went is not in the window
      obtain ⟨e, he, rfl⟩ := List.mem_map.1 (ht.live k' hk')
      obtain ⟨t, hl, hlt⟩ := mem_live.1 hk'
      obtain rfl : e.2 = t := Option.some.inj ((ht.latest e he).symm.trans hl)
      rcases List.mem_append.1 (hperm.mem_iff.1 he) with he | he
      · exact absurd (hgone e he) (by omega)
      · exact List.mem_cons_of_mem _ (List.mem_map_of_mem he)

end Tracks

end Recent
