import HsqOverNand.Lib.Recent
import HsqOverNand.Server.Proof.Worker

/-!
# The client tracker (`src/server/server.cpp`, `ClientTracker`)

`active_exact`: whatever the calls, the table has at most 32 entries, no two of one client, and only an
entry that is a second old goes to another client; if the clock does not go back and never more than 32
clients are active, every call returns the number of active clients.

The table then tracks the calls (`Recent.Tracks`); what a call does is one of four cases (`Touched`).
`run_tracked`: the table of a pool is that of the datagrams it accepted.
-/

set_option autoImplicit false

namespace NandServer

namespace Pool

/-! ## Statement -/

/-- The table after these calls, each with its client and its clock reading. -/
def table (calls : List (Addr × Nat)) : List Ent :=
  calls.foldl (fun ent c => (touch ent c.1 c.2).2) []

/-- At each call at most `MAXC` clients have touched within a second. -/
def WithinCapacity (calls : List (Addr × Nat)) : Prop :=
  ∀ pre c post, calls = pre ++ c :: post → (Recent.recent SECOND (pre ++ [c]) c.2).card ≤ MAXC

/-- Each call returns the number of clients whose latest touch is less than a second old. -/
def Counts (calls : List (Addr × Nat)) : Prop :=
  ∀ pre c post, calls = pre ++ c :: post →
    (touch (table pre) c.1 c.2).1 = (Recent.live SECOND (pre ++ [c]) c.2).card

/-- The table, and what another call does to it. -/
structure TableOk (ent : List Ent) : Prop where
  length : ent.length ≤ MAXC
  nodup : (ent.map Ent.key).Nodup
  /-- An entry stays with its client, or is a second old. -/
  kept : ∀ (a : Addr) (now i : Nat) (e : Ent), ent[i]? = some e →
    ∃ e', (touch ent a now).2[i]? = some e' ∧ (e'.key = e.key ∨ SECOND ≤ now - e.seen)

/-! ## One call -/

/-- Seen less than a second ago. -/
def Ent.fresh (e : Ent) (now : Nat) : Bool := now - e.seen < SECOND

def renew (ent : List Ent) (k : BitVec 64) (now : Nat) : List Ent :=
  ent.map fun e => if e.key = k then { e with seen := now } else e

theorem renew_of_notMem {ent : List Ent} {k : BitVec 64} {now : Nat} (hk : k ∉ ent.map Ent.key) :
    renew ent k now = ent := by
  unfold renew
  refine (List.map_congr_left fun e he => ?_).trans (List.map_id ent)
  refine if_neg fun hek => hk ?_
  rw [← hek]
  exact List.mem_map_of_mem he

/-- What a call does. -/
inductive Touched (ent : List Ent) (k : BitVec 64) (now : Nat) : Nat × List Ent → Prop
  | renewed : k ∈ ent.map Ent.key →
      Touched ent k now ((renew ent k now).countP (·.fresh now), renew ent k now)
  | reused (pre : List Ent) (e : Ent) (post : List Ent) : k ∉ ent.map Ent.key → ent = pre ++ e :: post →
      e.fresh now = false → Touched ent k now (ent.countP (·.fresh now) + 1, pre ++ ⟨k, now⟩ :: post)
  | added : k ∉ ent.map Ent.key → ent.length < MAXC →
      Touched ent k now (ent.countP (·.fresh now) + 1, ent ++ [⟨k, now⟩])
  | dropped : k ∉ ent.map Ent.key → MAXC ≤ ent.length → (∀ e ∈ ent, e.fresh now = true) →
      Touched ent k now (ent.countP (·.fresh now) + 1, ent)

theorem touch_cases (ent : List Ent) (a : Addr) (now : Nat) : Touched ent a.key now (touch ent a now) := by
  by_cases hk : a.key ∈ ent.map Ent.key
  · have hany : (ent.any fun e => e.key = a.key) = true := by
      obtain ⟨e, he, hek⟩ := List.mem_map.1 hk
      exact List.any_eq_true.2 ⟨e, he, decide_eq_true hek⟩
    have ht : touch ent a now = ((renew ent a.key now).countP (·.fresh now), renew ent a.key now) := by
      unfold touch
      rw [if_pos hany]
      rfl
    rw [ht]
    exact .renewed hk
  · have hany : ¬ (ent.any fun e => e.key = a.key) = true := by
      intro hany
      obtain ⟨e, he, hek⟩ := List.any_eq_true.1 hany
      exact hk (List.mem_map.2 ⟨e, he, of_decide_eq_true hek⟩)
    have hmap : (ent.map fun e => if e.key = a.key then { e with seen := now } else e) = ent :=
      renew_of_notMem hk
    unfold touch
    dsimp only
    rw [if_neg hany, hmap]
    cases hfind : ent.findIdx? fun e => ¬ now - e.seen < SECOND with
    | some slot =>
      obtain ⟨hlt, hold, -⟩ := List.findIdx?_eq_some_iff_getElem.1 hfind
      have hsplit : ent = ent.take slot ++ ent[slot] :: ent.drop (slot + 1) := by
        rw [← List.drop_eq_getElem_cons hlt, List.take_append_drop]
      have hset : ent.set slot ⟨a.key, now⟩ = ent.take slot ++ ⟨a.key, now⟩ :: ent.drop (slot + 1) := by
        rw [List.set_eq_take_append_cons_drop, if_pos hlt]
      dsimp only
      rw [hset]
      exact .reused _ _ _ hk hsplit (by simpa [Ent.fresh] using hold)
    | none =>
      dsimp only
      have hfresh : ∀ e ∈ ent, e.fresh now = true := by
        intro e he
        have hnot := List.findIdx?_eq_none_iff.1 hfind e he
        simpa [Ent.fresh] using hnot
      split
      · rename_i hlt
        exact .added hk hlt
      · rename_i hge
        exact .dropped hk (Nat.not_lt.1 hge) hfresh

/-! ## Every run -/

theorem renew_keys (ent : List Ent) (k : BitVec 64) (now : Nat) :
    (renew ent k now).map Ent.key = ent.map Ent.key := by
  unfold renew
  rw [List.map_map]
  refine List.map_congr_left fun e _ => ?_
  show (if e.key = k then { e with seen := now } else e).key = e.key
  split <;> rfl

theorem touch_length {ent : List Ent} (hlen : ent.length ≤ MAXC) (a : Addr) (now : Nat) :
    (touch ent a now).2.length ≤ MAXC := by
  generalize htouch : touch ent a now = r
  cases htouch ▸ touch_cases ent a now with
  | renewed hk => exact (List.length_map _).trans_le hlen
  | reused pre e post hk hent hold =>
    rw [hent] at hlen
    simpa using hlen
  | added hk hlt =>
    rw [List.length_append]
    exact hlt
  | dropped hk hfull hfresh => exact hlen

theorem touch_nodup {ent : List Ent} (hnodup : (ent.map Ent.key).Nodup) (a : Addr) (now : Nat) :
    ((touch ent a now).2.map Ent.key).Nodup := by
  generalize htouch : touch ent a now = r
  cases htouch ▸ touch_cases ent a now with
  | renewed hk =>
    rw [renew_keys]
    exact hnodup
  | reused pre e post hk hent hold =>
    have hkeys : (a.key :: (pre ++ post).map Ent.key).Nodup := by
      refine List.nodup_cons.2 ⟨fun hmem => hk ?_, ?_⟩
      · rw [hent]
        simp only [List.map_append, List.map_cons, List.mem_append, List.mem_cons] at hmem ⊢
        tauto
      · refine hnodup.sublist (List.Sublist.map _ ?_)
        rw [hent]
        exact (List.Sublist.refl pre).append (List.sublist_cons_self e post)
    have hperm : ((pre ++ ⟨a.key, now⟩ :: post).map Ent.key).Perm (a.key :: (pre ++ post).map Ent.key) :=
      List.perm_middle.map Ent.key
    exact hperm.nodup_iff.2 hkeys
  | added hk hlt =>
    rw [List.map_append, List.map_singleton]
    refine List.nodup_append.2 ⟨hnodup, List.nodup_singleton _, fun x hx y hy he => hk ?_⟩
    have hkey : x = a.key := he.trans (List.mem_singleton.1 hy)
    exact hkey ▸ hx
  | dropped hk hfull hfresh => exact hnodup

theorem touch_kept (ent : List Ent) (a : Addr) (now i : Nat) (e : Ent) (he : ent[i]? = some e) :
    ∃ e', (touch ent a now).2[i]? = some e' ∧ (e'.key = e.key ∨ SECOND ≤ now - e.seen) := by
  generalize htouch : touch ent a now = r
  cases htouch ▸ touch_cases ent a now with
  | renewed hk =>
    refine ⟨if e.key = a.key then { e with seen := now } else e, ?_, .inl ?_⟩
    · simp only [renew, List.getElem?_map, he, Option.map_some]
    · split <;> rfl
  | reused pre old post hk hent hold =>
    rw [hent] at he
    by_cases hlt : i < pre.length
    · rw [List.getElem?_append_left hlt] at he
      exact ⟨e, (List.getElem?_append_left hlt).trans he, .inl rfl⟩
    · obtain ⟨j, rfl⟩ := Nat.exists_eq_add_of_le (Nat.not_lt.1 hlt)
      have hright : ∀ x : Ent, (pre ++ x :: post)[pre.length + j]? = (x :: post)[j]? := fun x => by
        rw [List.getElem?_append_right (Nat.le_add_right ..), Nat.add_sub_cancel_left]
      rw [hright] at he
      rw [hright]
      cases j with
      | zero =>
        -- the slot of `old`
        cases he
        refine ⟨⟨a.key, now⟩, rfl, .inr ?_⟩
        simpa [Ent.fresh] using hold
      | succ j => exact ⟨e, he, .inl rfl⟩
  | added hk hlt =>
    refine ⟨e, ?_, .inl rfl⟩
    rw [List.getElem?_append_left (List.getElem?_eq_some_iff.1 he).1]
    exact he
  | dropped hk hfull hfresh => exact ⟨e, he, .inl rfl⟩

theorem table_append (calls : List (Addr × Nat)) (c : Addr × Nat) :
    table (calls ++ [c]) = (touch (table calls) c.1 c.2).2 := List.foldl_concat _ _ _ _

theorem table_ok (calls : List (Addr × Nat)) : TableOk (table calls) := by
  induction calls using List.reverseRecOn with
  | nil => exact ⟨Nat.zero_le _, List.nodup_nil, touch_kept _⟩
  | append_singleton calls c ih =>
    rw [table_append]
    exact ⟨touch_length ih.length _ _, touch_nodup ih.nodup _ _, touch_kept _⟩

/-! ## Within capacity -/

theorem Addr.key_port (a : Addr) : a.key.setWidth 16 = a.port := by
  ext i hi
  simp [Addr.key]

theorem Addr.key_ip (a : Addr) : (a.key >>> 16).setWidth 32 = a.ip := by
  ext i hi
  have hport : a.port.getLsbD (16 + i) = false := BitVec.getLsbD_of_ge _ _ (by omega)
  simp only [Addr.key, BitVec.getElem_setWidth, BitVec.getLsbD_ushiftRight, BitVec.getLsbD_or,
    BitVec.getLsbD_shiftLeft, BitVec.getLsbD_setWidth, hport, Bool.and_false, Bool.or_false,
    Nat.add_sub_cancel_left, show 16 + i < 64 by omega, show ¬ 16 + i < 16 by omega, show i < 64 by omega]
  simp [hi]

theorem Addr.key_injective : Function.Injective Addr.key := by
  intro a b h
  have hip : a.ip = b.ip := by rw [← a.key_ip, h, b.key_ip]
  have hport : a.port = b.port := by rw [← a.key_port, h, b.key_port]
  cases a
  cases b
  cases hip
  cases hport
  rfl

def Ent.visit (e : Ent) : BitVec 64 × Nat := (e.key, e.seen)

/-- The calls by the keys of the clients. -/
def keyed (calls : List (Addr × Nat)) : List (BitVec 64 × Nat) := calls.map fun c => (c.1.key, c.2)

theorem visit_keys (ent : List Ent) : (ent.map Ent.visit).map Prod.fst = ent.map Ent.key := List.map_map ..

theorem card_live_keyed (calls : List (Addr × Nat)) (now : Nat) :
    (Recent.live SECOND (keyed calls) now).card = (Recent.live SECOND calls now).card := by
  unfold keyed
  rw [Recent.live_map Addr.key_injective, Finset.card_image_of_injective _ Addr.key_injective]

section
variable {ent : List Ent} {h : List (BitVec 64 × Nat)} {now : Nat}

/-- A client is only dropped above the capacity. -/
theorem lt_card_of_dropped {k : BitVec 64} (ht : Recent.Tracks SECOND h now (ent.map Ent.visit))
    (hk : k ∉ ent.map Ent.key) (hfresh : ∀ e ∈ ent, e.fresh now = true) :
    ent.length < (Recent.live SECOND (h ++ [(k, now)]) now).card := by
  have hnodup : (k :: ent.map Ent.key).Nodup := List.nodup_cons.2 ⟨hk, by rw [← visit_keys]; exact ht.nodup⟩
  have hsub : (k :: ent.map Ent.key).toFinset ⊆ Recent.live SECOND (h ++ [(k, now)]) now := by
    intro k' hk'
    rw [Recent.mem_live]
    rcases List.mem_cons.1 (List.mem_toFinset.1 hk') with rfl | hk'
    · exact ⟨now, Recent.latest_append_self, by rw [Nat.sub_self]; decide⟩
    · obtain ⟨e, he, rfl⟩ := List.mem_map.1 hk'
      have hne : e.key ≠ k := fun hek => hk (hek ▸ List.mem_map_of_mem he)
      refine ⟨e.seen, (Recent.latest_append_ne hne).trans ?_, of_decide_eq_true (hfresh e he)⟩
      exact ht.latest e.visit (List.mem_map_of_mem he)
  have hcard := Finset.card_le_card hsub
  rw [List.toFinset_card_of_nodup hnodup, List.length_cons, List.length_map] at hcard
  exact hcard

theorem touch_tracks (ht : Recent.Tracks SECOND h now (ent.map Ent.visit)) (a : Addr)
    (hcap : (Recent.live SECOND (h ++ [(a.key, now)]) now).card ≤ MAXC) :
    Recent.Tracks SECOND (h ++ [(a.key, now)]) now ((touch ent a now).2.map Ent.visit) ∧
      (touch ent a now).1 = (touch ent a now).2.countP (·.fresh now) := by
  have hnew : (⟨a.key, now⟩ : Ent).fresh now = true := by
    simp [Ent.fresh, SECOND]
  generalize htouch : touch ent a now = r
  cases htouch ▸ touch_cases ent a now with
  | renewed hk =>
    refine ⟨?_, rfl⟩
    have hmap : (renew ent a.key now).map Ent.visit =
        (ent.map Ent.visit).map fun e => if e.1 = a.key then (a.key, now) else e := by
      unfold renew
      rw [List.map_map, List.map_map]
      refine List.map_congr_left fun e _ => ?_
      show (if e.key = a.key then { e with seen := now } else e).visit =
        if e.key = a.key then (a.key, now) else e.visit
      split
      · rename_i he
        exact Prod.ext he rfl
      · rfl
    rw [hmap]
    exact ht.renew (by rw [visit_keys]; exact hk)
  | reused pre e post hk hent hold =>
    rw [← visit_keys] at hk
    constructor
    · refine ht.enter [e.visit] ((pre ++ post).map Ent.visit) ?_ ?_ hk ?_
      · rw [hent]
        exact List.perm_middle.map Ent.visit
      · intro x hx
        rw [List.mem_singleton.1 hx]
        simpa [Ent.fresh, Ent.visit] using hold
      · exact List.perm_middle.map Ent.visit
    · rw [hent, List.countP_append, List.countP_append, List.countP_cons, List.countP_cons, hold, hnew]
      simp
      omega
  | added hk hlt =>
    rw [← visit_keys] at hk
    constructor
    · refine ht.enter [] (ent.map Ent.visit) (List.Perm.refl _) ?_ hk ?_
      · exact fun x hx => by cases hx
      · rw [List.map_append]
        exact List.perm_append_singleton _ _
    · rw [List.countP_append, List.countP_singleton, if_pos hnew]
  | dropped hk hfull hfresh =>
    have hlt := lt_card_of_dropped ht hk hfresh
    omega

end

theorem touch_exact {calls : List (Addr × Nat)} {c : Addr × Nat} {ent : List Ent}
    (ht : Recent.Tracks SECOND (keyed calls) c.2 (ent.map Ent.visit))
    (hcap : (Recent.live SECOND (calls ++ [c]) c.2).card ≤ MAXC) :
    Recent.Tracks SECOND (keyed (calls ++ [c])) c.2 ((touch ent c.1 c.2).2.map Ent.visit) ∧
      (touch ent c.1 c.2).1 = (Recent.live SECOND (calls ++ [c]) c.2).card := by
  have hkeyed : keyed (calls ++ [c]) = keyed calls ++ [(c.1.key, c.2)] := List.map_append
  rw [← card_live_keyed, hkeyed] at hcap ⊢
  obtain ⟨ht', hcount⟩ := touch_tracks ht c.1 hcap
  refine ⟨ht', hcount.trans ?_⟩
  rw [← ht'.countP, List.countP_map]
  rfl

theorem table_tracks (calls : List (Addr × Nat)) (ho : Recent.Ordered calls) (hcap : WithinCapacity calls) :
    ∀ now, (∀ c ∈ calls, c.2 ≤ now) →
      Recent.Tracks SECOND (keyed calls) now ((table calls).map Ent.visit) := by
  induction calls using List.reverseRecOn with
  | nil => exact fun now _ => .nil
  | append_singleton calls c ih =>
    obtain ⟨ho', -, hlast⟩ := List.pairwise_append.1 ho
    have ht := ih ho' (fun pre d post he => hcap pre d (post ++ [c]) (by rw [he]; simp)) c.2
      fun d hd => hlast d hd c (List.mem_singleton_self c)
    intro now hnow
    rw [table_append]
    have hlive : (Recent.live SECOND (calls ++ [c]) c.2).card ≤ MAXC := by
      rw [Recent.live_eq_recent ho]
      exact hcap calls c [] rfl
    exact (touch_exact ht hlive).1.mono (hnow c (List.mem_append_right _ (List.mem_singleton_self c)))

/-! ## Main result -/

theorem counts (calls : List (Addr × Nat)) (ho : Recent.Ordered calls) (hcap : WithinCapacity calls) :
    Counts calls := by
  intro pre c post he
  subst he
  obtain ⟨ho', hpost, hbetween⟩ := List.pairwise_append.1 ho
  have hpre : WithinCapacity pre := fun pre' d post' he =>
    hcap pre' d (post' ++ c :: post) (by rw [he]; simp)
  have ht := table_tracks pre ho' hpre c.2 fun d hd => hbetween d hd c List.mem_cons_self
  have hoc : Recent.Ordered (pre ++ [c]) :=
    ho.sublist (List.Sublist.append_left (List.Sublist.cons_cons c (List.nil_sublist _)) pre)
  refine (touch_exact ht ?_).2
  rw [Recent.live_eq_recent hoc]
  exact hcap pre c post rfl

/-- See the module doc. -/
theorem active_exact (calls : List (Addr × Nat)) :
    TableOk (table calls) ∧ (Recent.Ordered calls → WithinCapacity calls → Counts calls) :=
  ⟨table_ok calls, counts calls⟩

theorem withinCapacity_of_length {calls : List (Addr × Nat)} (hlen : calls.length ≤ MAXC) :
    WithinCapacity calls := by
  intro pre c post he
  rw [he, List.length_append, List.length_cons] at hlen
  calc (Recent.recent SECOND (pre ++ [c]) c.2).card
      ≤ (((pre ++ [c]).filter fun d => c.2 - d.2 < SECOND).map Prod.fst).length := List.toFinset_card_le _
    _ ≤ (pre ++ [c]).length := by
      rw [List.length_map]
      exact List.length_filter_le _ _
    _ ≤ MAXC := by
      rw [List.length_append, List.length_singleton]
      omega

/-- The first client leaves, loses its entry to the third and comes back. -/
theorem active_exact_back :
    (touch (table [(⟨1, 1⟩, 0), (⟨1, 2⟩, 500000000), (⟨1, 3⟩, 1200000000)]) ⟨1, 1⟩ 1300000000).1 = 3 := by
  have h := (active_exact [(⟨1, 1⟩, 0), (⟨1, 2⟩, 500000000), (⟨1, 3⟩, 1200000000), (⟨1, 1⟩, 1300000000)]).2
    (by simp [Recent.Ordered]) (withinCapacity_of_length (by decide))
    [(⟨1, 1⟩, 0), (⟨1, 2⟩, 500000000), (⟨1, 3⟩, 1200000000)] (⟨1, 1⟩, 1300000000) [] rfl
  exact h.trans (by decide)

/-! ## The table of a pool -/

/-- The table is that of the clients whose requests were accepted. -/
def Shared.Tracked (s : Shared) : Prop :=
  ∃ calls, calls.map Prod.fst = s.accepted.map Datagram.src ∧ s.ent = table calls

section
variable {D : Type} {W now : Nat} {stop : Bool} {s : Shared}

theorem take_tracked (h : s.Tracked) (w : Worker D) : (w.take now s).2.1.Tracked := by
  unfold Worker.take
  split
  · exact h
  · rename_i d queue hq
    split
    · obtain ⟨calls, hcalls, hent⟩ := h
      refine ⟨calls ++ [(d.src, now)], ?_, ?_⟩
      · rw [List.map_append, List.map_append, hcalls]
        rfl
      · rw [table_append, ← hent]
        simp only [Function.update_self]
        rfl
    · exact h

variable [NandInterface D]

theorem step_tracked (h : s.Tracked) (numCpus : Nat) (w : Worker D) :
    (w.step numCpus now stop s).1.Tracked := by
  cases hphase : w.phase with
  | idle =>
    rw [Worker.step_of_idle hphase]
    exact take_tracked h _
  | first =>
    rw [Worker.step_of_first hphase]
    exact h
  | collect =>
    rw [Worker.step_of_collect hphase]
    split
    · exact take_tracked h w
    · exact h
  | wait =>
    rw [Worker.step_of_wait hphase]
    split
    · exact take_tracked h w
    · exact h
  | boost =>
    rw [Worker.step_of_boost hphase]
    exact h
  | cpu =>
    rw [Worker.step_of_cpu hphase]
    exact h
  | send i =>
    rw [Worker.step_of_send hphase]
    split
    · exact h
    · exact h

/-- In every run of the pool. -/
theorem run_tracked (cpus : Fin W → CPU D) (p : Fin W → Nat → Pending) (resp : Fin W → Nat → Response)
    (isboost : Bool) (es : List (Event W)) : ((start cpus p resp isboost).run es).shared.Tracked := by
  refine List.foldlRecOn (motive := fun t : Pool W D => t.shared.Tracked) es Pool.step ⟨[], rfl, rfl⟩
    fun t ht e _ => ?_
  cases e with
  | arrive d => exact ht
  | toggle => exact ht
  | work i now stop => exact step_tracked ht W (t.workers i)

end

end Pool

end NandServer
