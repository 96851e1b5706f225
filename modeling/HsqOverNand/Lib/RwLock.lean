import HsqOverNand.Lib.Runs

/-!
# Threads under a reader-writer lock

A thread runs a `Prog` on a part of its own: it takes the lock, shared or unique, acts, and gets an answer
from each act. Some acts are `exclusive`: they may disturb the parts of other threads (`other`), but not
parts that are `idle`. `Guarded` programs act only under the lock, exclusively only under the unique one,
and leave their part idle when they give it back.

`run_alone`: guarded threads end as each one does alone, whatever the order of their steps; some thread can
always go on, and there are as many steps as they take alone. `run_complete`: and so they all return.
-/

set_option autoImplicit false

namespace RwLock

inductive Mode
  | shared | unique
  deriving DecidableEq

/-- A program of acts `α` with answers `β`. -/
inductive Prog (α β ρ : Type)
  | ret (r : ρ)
  | lock (m : Mode) (k : Prog α β ρ)
  | unlock (k : Prog α β ρ)
  | act (a : α) (k : β → Prog α β ρ)

namespace Prog

variable {α β ρ ρ' C : Type}

def bind : Prog α β ρ → (ρ → Prog α β ρ') → Prog α β ρ'
  | ret r, f => f r
  | lock m k, f => lock m (k.bind f)
  | unlock k, f => unlock (k.bind f)
  | act a k, f => act a fun b => (k b).bind f

instance : Monad (Prog α β) where
  pure := ret
  bind := bind

/-- A scope that holds the lock. -/
def locked (m : Mode) (p : Prog α β ρ) : Prog α β ρ := lock m (p.bind fun r => unlock (ret r))

section
variable (own : α → C → β × C)

/-- The program by itself. -/
def alone : Prog α β ρ → C → ρ × C
  | ret r, c => (r, c)
  | lock _ k, c => k.alone c
  | unlock k, c => k.alone c
  | act a k, c => (k (own a c).1).alone (own a c).2

/-- How many steps it takes. -/
def steps : Prog α β ρ → C → Nat
  | ret _, _ => 0
  | lock _ k, c => k.steps c + 1
  | unlock k, c => k.steps c + 1
  | act a k, c => (k (own a c).1).steps (own a c).2 + 1

@[simp] theorem alone_pure (r : ρ) (c : C) : (pure r : Prog α β ρ).alone own c = (r, c) := rfl

@[simp] theorem alone_bind (p : Prog α β ρ) (f : ρ → Prog α β ρ') (c : C) :
    (p >>= f).alone own c = (f (p.alone own c).1).alone own (p.alone own c).2 := by
  show (p.bind f).alone own c = _
  induction p generalizing c with
  | ret r => rfl
  | lock m k ih => exact ih c
  | unlock k ih => exact ih c
  | act a k ih => exact ih _ _

@[simp] theorem alone_locked (m : Mode) (p : Prog α β ρ) (c : C) : (locked m p).alone own c = p.alone own c :=
  alone_bind own p (fun r => unlock (ret r)) c

end

section
variable {exclusive : α → Bool}

variable (exclusive) in
/-- All it does is to act, as the mode allows. -/
def Inside (m : Mode) : Prog α β ρ → Prop
  | ret _ => True
  | lock _ _ | unlock _ => False
  | act a k => (exclusive a = true → m = .unique) ∧ ∀ b, (k b).Inside m

variable {m : Mode} {p : Prog α β ρ}

theorem Inside.bind {f : ρ → Prog α β ρ'} (h : p.Inside exclusive m) (hf : ∀ r, (f r).Inside exclusive m) :
    (p >>= f).Inside exclusive m := by
  show (Prog.bind p f).Inside exclusive m
  induction p with
  | ret r => exact hf r
  | lock m k => exact h.elim
  | unlock k => exact h.elim
  | act a k ih => exact ⟨h.1, fun b => ih b (h.2 b)⟩

end

section
variable {own : α → C → β × C} {exclusive : α → Bool} {idle : C → Prop}

variable (own exclusive idle) in
/-- It keeps the rules of the lock, which it holds as `h` says. -/
def Guarded : Option Mode → Prog α β ρ → C → Prop
  | h, ret _, c => h = none ∧ idle c
  | h, lock m k, c => h = none ∧ idle c ∧ k.Guarded (some m) c
  | h, unlock k, c => h ≠ none ∧ idle c ∧ k.Guarded none c
  | h, act a k, c => h ≠ none ∧ (exclusive a = true → h = some .unique) ∧
      (k (own a c).1).Guarded h (own a c).2

variable {m : Mode} {p : Prog α β ρ} {c : C}

theorem Guarded.pure (r : ρ) (hc : idle c) : (pure r : Prog α β ρ).Guarded own exclusive idle none c := ⟨rfl, hc⟩

theorem Inside.guarded {f : ρ → Prog α β ρ'} (h : p.Inside exclusive m)
    (hf : (f (p.alone own c).1).Guarded own exclusive idle (some m) (p.alone own c).2) :
    (p >>= f).Guarded own exclusive idle (some m) c := by
  show (Prog.bind p f).Guarded own exclusive idle (some m) c
  induction p generalizing c with
  | ret r => exact hf
  | lock m k => exact h.elim
  | unlock k => exact h.elim
  | act a k ih => exact ⟨Option.some_ne_none m, fun he => congrArg some (h.1 he), ih _ (h.2 _) hf⟩

theorem Guarded.bind {h : Option Mode} {f : ρ → Prog α β ρ'} (hp : p.Guarded own exclusive idle h c)
    (hf : (f (p.alone own c).1).Guarded own exclusive idle none (p.alone own c).2) :
    (p >>= f).Guarded own exclusive idle h c := by
  show (Prog.bind p f).Guarded own exclusive idle h c
  induction p generalizing c h with
  | ret r =>
    obtain ⟨rfl, -⟩ := hp
    exact hf
  | lock m k ih => exact ⟨hp.1, hp.2.1, ih hp.2.2 hf⟩
  | unlock k ih => exact ⟨hp.1, hp.2.1, ih hp.2.2 hf⟩
  | act a k ih => exact ⟨hp.1, hp.2.1, ih _ hp.2.2 hf⟩

/-- A scope that acts as its lock allows. -/
theorem Inside.locked (h : p.Inside exclusive m) (hc : idle c) (hend : idle (p.alone own c).2) :
    (Prog.locked m p).Guarded own exclusive idle none c :=
  ⟨rfl, hc, h.guarded (f := fun r => unlock (ret r)) ⟨Option.some_ne_none m, hend, rfl, hend⟩⟩

end

end Prog

/-! ## Threads -/

structure Thread (α β ρ C : Type) where
  /-- How it holds the lock. -/
  held : Option Mode
  prog : Prog α β ρ
  part : C

section
variable {ι α β ρ C : Type} [Fintype ι] [DecidableEq ι]

/-- No thread holds the lock in a mode that rules `m` out. -/
def Free (s : ι → Thread α β ρ C) (m : Mode) : Prop :=
  ∀ j, (s j).held = none ∨ m = .shared ∧ (s j).held = some .shared

instance (s : ι → Thread α β ρ C) (m : Mode) : Decidable (Free s m) :=
  inferInstanceAs (Decidable (∀ _, _))

variable (own : ι → α → C → β × C) (other : ι → α → ι → C → C)

/-- Thread `i` takes a step; `none`: it has returned, or waits for the lock. -/
def step (s : ι → Thread α β ρ C) (i : ι) : Option (ι → Thread α β ρ C) :=
  match (s i).prog with
  | .ret _ => none
  | .lock m k => if Free s m then some (Function.update s i ⟨some m, k, (s i).part⟩) else none
  | .unlock k => some (Function.update s i ⟨none, k, (s i).part⟩)
  | .act a k =>
    let r := own i a (s i).part
    some fun j => if j = i then ⟨(s i).held, k r.1, r.2⟩ else { s j with part := other i a j (s j).part }

def start (progs : ι → Prog α β ρ) (parts : ι → C) (i : ι) : Thread α β ρ C := ⟨none, progs i, parts i⟩

variable (exclusive : α → Bool) (idle : C → Prop)

/-- Acts that are not exclusive disturb nobody, and idle parts are never disturbed. -/
structure Isolated : Prop where
  quiet : ∀ i a j c, j ≠ i → exclusive a = false → other i a j c = c
  idle : ∀ i a j c, idle c → other i a j c = c

/-- Every thread keeps the rules, and is on its way to where it gets alone. -/
structure Inv (progs : ι → Prog α β ρ) (parts : ι → C) (s : ι → Thread α β ρ C) : Prop where
  guarded : ∀ i, (s i).prog.Guarded (own i) exclusive idle (s i).held (s i).part
  single : ∀ i j, j ≠ i → (s i).held = some .unique → (s j).held = none
  alone : ∀ i, (s i).prog.alone (own i) (s i).part = (progs i).alone (own i) (parts i)

/-- The steps that are left. -/
def left (s : ι → Thread α β ρ C) : Nat := ∑ i, (s i).prog.steps (own i) (s i).part

variable {own other exclusive idle} {progs : ι → Prog α β ρ} {parts : ι → C} {s t : ι → Thread α β ρ C} {i : ι}

omit [Fintype ι] [DecidableEq ι] in
/-- A thread outside the lock has left its part idle. -/
theorem Inv.part_idle (h : Inv own exclusive idle progs parts s) (hi : (s i).held = none) : idle (s i).part := by
  have hg := h.guarded i
  rw [hi] at hg
  cases hp : (s i).prog with
  | ret r =>
    rw [hp] at hg
    exact hg.2
  | lock m k =>
    rw [hp] at hg
    exact hg.2.1
  | unlock k =>
    rw [hp] at hg
    exact absurd rfl hg.1
  | act a k =>
    rw [hp] at hg
    exact absurd rfl hg.1

omit [Fintype ι] in
/-- **Nobody is disturbed.** -/
theorem Inv.others (hi : Isolated other exclusive idle) (h : Inv own exclusive idle progs parts s) {a : α}
    {k : β → Prog α β ρ} (hp : (s i).prog = .act a k) (v : Thread α β ρ C) :
    (fun j => if j = i then v else { s j with part := other i a j (s j).part }) = Function.update s i v := by
  funext j
  rcases eq_or_ne j i with rfl | hne
  · rw [if_pos rfl, Function.update_self]
  · have hkept : other i a j (s j).part = (s j).part := by
      cases he : exclusive a with
      | false => exact hi.quiet i a j _ hne he
      | true =>
        have hg := h.guarded i
        rw [hp] at hg
        exact hi.idle i a j _ (h.part_idle (h.single i j hne (hg.2.1 he)))
    rw [if_neg hne, Function.update_of_ne hne, hkept]

/-! ## One step -/

omit [Fintype ι] in
theorem Inv.update (h : Inv own exclusive idle progs parts s) {v : Thread α β ρ C}
    (hg : v.prog.Guarded (own i) exclusive idle v.held v.part)
    (hv : v.held = some .unique → ∀ j, j ≠ i → (s j).held = none)
    (hs : v.held ≠ none → ∀ j, j ≠ i → (s j).held ≠ some .unique)
    (ha : v.prog.alone (own i) v.part = (s i).prog.alone (own i) (s i).part) :
    Inv own exclusive idle progs parts (Function.update s i v) where
  guarded j := by
    rcases eq_or_ne j i with rfl | hne
    · rw [Function.update_self]
      exact hg
    · rw [Function.update_of_ne hne]
      exact h.guarded j
  single j k hne hj := by
    rcases eq_or_ne j i with rfl | hji
    · rw [Function.update_self] at hj
      rw [Function.update_of_ne hne]
      exact hv hj k hne
    · rw [Function.update_of_ne hji] at hj
      rcases eq_or_ne k i with rfl | hki
      · rw [Function.update_self]
        by_contra hk
        exact hs hk j hji hj
      · rw [Function.update_of_ne hki]
        exact h.single j k hne hj
  alone j := by
    rcases eq_or_ne j i with rfl | hne
    · rw [Function.update_self]
      exact ha.trans (h.alone j)
    · rw [Function.update_of_ne hne]
      exact h.alone j

theorem left_update {v : Thread α β ρ C}
    (h : v.prog.steps (own i) v.part + 1 = (s i).prog.steps (own i) (s i).part) :
    left own (Function.update s i v) + 1 = left own s := by
  unfold left
  rw [← Finset.add_sum_erase Finset.univ _ (Finset.mem_univ i), ← Finset.add_sum_erase Finset.univ
    (fun j => (s j).prog.steps (own j) (s j).part) (Finset.mem_univ i), Function.update_self]
  have hrest : ∑ j ∈ Finset.univ.erase i,
        (Function.update s i v j).prog.steps (own j) (Function.update s i v j).part =
      ∑ j ∈ Finset.univ.erase i, (s j).prog.steps (own j) (s j).part :=
    Finset.sum_congr rfl fun j hj => by rw [Function.update_of_ne (Finset.ne_of_mem_erase hj)]
  rw [hrest]
  omega

theorem Inv.step (hi : Isolated other exclusive idle) (h : Inv own exclusive idle progs parts s)
    (hs : step own other s i = some t) :
    Inv own exclusive idle progs parts t ∧ left own t + 1 = left own s := by
  have hg := h.guarded i
  unfold RwLock.step at hs
  cases hp : (s i).prog with
  | ret r =>
    rw [hp] at hs
    cases hs
  | lock m k =>
    rw [hp] at hs hg
    simp only [Option.ite_none_right_eq_some, Option.some.injEq] at hs
    obtain ⟨hfree, rfl⟩ := hs
    refine ⟨h.update hg.2.2 ?_ ?_ (by rw [hp]; rfl), left_update (by rw [hp]; rfl)⟩
    · intro hm j _
      cases hm
      exact (hfree j).resolve_right fun hsh => nomatch hsh.1
    · intro _ j _ hj
      rcases hfree j with hn | ⟨-, hsh⟩
      · rw [hj] at hn
        cases hn
      · rw [hj] at hsh
        cases hsh
  | unlock k =>
    rw [hp] at hs hg
    cases hs
    refine ⟨h.update hg.2.2 ?_ (absurd rfl) (by rw [hp]; rfl), left_update (by rw [hp]; rfl)⟩
    intro hm
    cases hm
  | act a k =>
    rw [hp] at hs hg
    cases hs
    rw [h.others hi hp]
    refine ⟨h.update hg.2.2 ?_ ?_ (by rw [hp]; rfl), left_update (by rw [hp]; rfl)⟩
    · intro hu j hne
      exact h.single i j hne hu
    · intro hn j hne hj
      exact hn (h.single j i (Ne.symm hne) hj)

/-! ## Runs -/

omit [Fintype ι] [DecidableEq ι] in
theorem start_inv (hg : ∀ i, (progs i).Guarded (own i) exclusive idle none (parts i)) :
    Inv own exclusive idle progs parts (start progs parts) where
  guarded := hg
  single _ _ _ h := nomatch h
  alone _ := rfl

/-- A thread can go on, unless all have returned. -/
theorem Inv.progress (h : Inv own exclusive idle progs parts s) :
    (∃ i t, RwLock.step own other s i = some t) ∨ ∀ i, ∃ r, (s i).prog = .ret r := by
  unfold RwLock.step
  by_cases hheld : ∃ i, (s i).held ≠ none
  · obtain ⟨i, hi⟩ := hheld
    have hg := h.guarded i
    refine .inl ⟨i, ?_⟩
    cases hp : (s i).prog with
    | ret r =>
      rw [hp] at hg
      exact absurd hg.1 hi
    | lock m k =>
      rw [hp] at hg
      exact absurd hg.1 hi
    | unlock k => exact ⟨_, rfl⟩
    | act a k => exact ⟨_, rfl⟩
  · have hnone : ∀ i, (s i).held = none := fun i => Classical.not_not.1 fun hi => hheld ⟨i, hi⟩
    by_cases hret : ∀ i, ∃ r, (s i).prog = .ret r
    · exact .inr hret
    obtain ⟨i, hi⟩ := not_forall.1 hret
    have hg := h.guarded i
    rw [hnone i] at hg
    refine .inl ⟨i, ?_⟩
    cases hp : (s i).prog with
    | ret r => exact absurd ⟨r, hp⟩ hi
    | lock m k => exact ⟨_, if_pos fun j => .inl (hnone j)⟩
    | unlock k =>
      rw [hp] at hg
      exact absurd rfl hg.1
    | act a k =>
      rw [hp] at hg
      exact absurd rfl hg.1

omit [Fintype ι] [DecidableEq ι] in
/-- While a thread acts exclusively all the others are idle. -/
theorem Inv.others_idle (h : Inv own exclusive idle progs parts s) {a : α} {k : β → Prog α β ρ}
    (hp : (s i).prog = .act a k) (ha : exclusive a = true) {j : ι} (hne : j ≠ i) : idle (s j).part := by
  have hg := h.guarded i
  rw [hp] at hg
  exact h.part_idle (h.single i j hne (hg.2.1 ha))

theorem Inv.run (hi : Isolated other exclusive idle) : ∀ (is : List ι) {s : ι → Thread α β ρ C},
    Inv own exclusive idle progs parts s → Runs.run (RwLock.step own other) s is = some t →
    Inv own exclusive idle progs parts t ∧ is.length + left own t = left own s
  | [], _, h, hs => by
    cases hs
    exact ⟨h, Nat.zero_add _⟩
  | j :: is, s, h, hs => by
    obtain ⟨u, hu, hs⟩ := Option.bind_eq_some_iff.1 hs
    obtain ⟨hinv, hleft⟩ := h.step hi hu
    obtain ⟨hend, hlen⟩ := hinv.run hi is hs
    refine ⟨hend, ?_⟩
    rw [List.length_cons]
    omega

/-- **Guarded threads do what each one does alone.** -/
theorem run_alone (hi : Isolated other exclusive idle)
    (hg : ∀ i, (progs i).Guarded (own i) exclusive idle none (parts i)) {is : List ι}
    (h : Runs.run (step own other) (start progs parts) is = some s) :
    (∀ i r, (s i).prog = .ret r → (r, (s i).part) = (progs i).alone (own i) (parts i)) ∧
    (∀ i a k, (s i).prog = .act a k → exclusive a = true → ∀ j, j ≠ i → idle (s j).part) ∧
    ((∃ i t, step own other s i = some t) ∨ ∀ i, ∃ r, (s i).prog = .ret r) ∧
    is.length + left own s = left own (start progs parts) := by
  obtain ⟨hinv, hlen⟩ := (start_inv hg).run hi is h
  refine ⟨fun i r hr => ?_, fun i a k hp ha j hne => hinv.others_idle hp ha hne, hinv.progress, hlen⟩
  have halone := hinv.alone i
  rw [hr] at halone
  exact halone

/-- They can all return. -/
theorem run_complete (hi : Isolated other exclusive idle)
    (hg : ∀ i, (progs i).Guarded (own i) exclusive idle none (parts i)) :
    ∃ is s, Runs.run (step own other) (start progs parts) is = some s ∧ ∀ i, ∃ r, (s i).prog = .ret r := by
  have hfrom : ∀ (n : Nat) (s : ι → Thread α β ρ C), Inv own exclusive idle progs parts s → left own s = n →
      ∃ is t, Runs.run (step own other) s is = some t ∧ ∀ i, ∃ r, (t i).prog = .ret r := by
    intro n
    induction n with
    | zero =>
      intro s h hn
      have hgo : (∃ i t, step own other s i = some t) ∨ _ := h.progress
      refine ⟨[], s, rfl, hgo.resolve_left ?_⟩
      intro ⟨i, t, ht⟩
      have hleft := (h.step hi ht).2
      omega
    | succ n ih =>
      intro s h hn
      have hgo : (∃ i t, step own other s i = some t) ∨ _ := h.progress
      rcases hgo with ⟨i, t, ht⟩ | hret
      · obtain ⟨hinv, hleft⟩ := h.step hi ht
        obtain ⟨is, u, hu, hret⟩ := ih t hinv (by omega)
        refine ⟨i :: is, u, ?_, hret⟩
        rw [Runs.run, ht]
        exact hu
      · exact ⟨[], s, rfl, hret⟩
  exact hfrom _ _ (start_inv hg) rfl

end

end RwLock
