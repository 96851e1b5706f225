import HsqOverNand.Lib.RwLock

/-!
# Programs that a lower level carries out

`does a s b t`: at the lower level an act `a` can lead from `s` to `t` with the answer `b`. A program
`Follows` its run by itself (`Prog.alone`) if from states related by `R` it is never stuck, and can end only
with the result of that run, in states related by `R'`. Between its scopes, where it holds no lock, it is
related by `I`, and goes on from every state that is. A `loud` act needs the unique lock. The rules put this
together along the program, so that only the acts are left to check (`Follows.act`).

`Leads`: threads of such programs, whose loud acts may disturb the states of others. `leads_alone`: if related
states stay related by `I` under disturbances, each thread still does what it does alone.
-/

set_option autoImplicit false

namespace RwLock

namespace Prog

variable {α β ρ ρ' S C : Type}

section
variable (does : α → S → β → S → Prop)

/-- The program can end in `t` with the result `r`. -/
def Ends : Prog α β ρ → S → ρ → S → Prop
  | ret r', s, r, t => r = r' ∧ t = s
  | lock _ k, s, r, t => k.Ends s r t
  | unlock k, s, r, t => k.Ends s r t
  | act a k, s, r, t => ∃ b u, does a s b u ∧ (k b).Ends u r t

/-- Whatever the acts lead to, the next one is possible. -/
def Goes : Prog α β ρ → S → Prop
  | ret _, _ => True
  | lock _ k, s => k.Goes s
  | unlock k, s => k.Goes s
  | act a k, s => (∃ b u, does a s b u) ∧ ∀ b u, does a s b u → (k b).Goes u

variable {does} in
/-- A program that is never stuck can end. -/
theorem Goes.ends {p : Prog α β ρ} {s : S} (h : p.Goes does s) : ∃ r t, p.Ends does s r t := by
  induction p generalizing s with
  | ret r => exact ⟨r, s, rfl, rfl⟩
  | lock m k ih => exact ih h
  | unlock k ih => exact ih h
  | act a k ih =>
    obtain ⟨⟨b, u, hd⟩, hrest⟩ := h
    obtain ⟨r, t, ht⟩ := ih b (hrest b u hd)
    exact ⟨r, t, b, u, hd, ht⟩

variable (own : α → C → β × C) (loud : α → S → Prop) (I : S → C → Prop)

/-- Whatever the acts lead to, it is what they do to `c`, up to `Q`. -/
def Tracks (Q : Option Mode → S → C → Prop) : Option Mode → Prog α β ρ → C → S → Prop
  | h, ret _, c, s => Q h s c
  | _, lock m k, c, s => I s c ∧ ∀ s', I s' c → Tracks Q (some m) k c s'
  | _, unlock k, c, s => I s c ∧ ∀ s', I s' c → Tracks Q none k c s'
  | h, act a k, c, s => (loud a s → h = some .unique) ∧ (∃ b u, does a s b u) ∧
      ∀ b u, does a s b u → b = (own a c).1 ∧ Tracks Q h (k b) (own a c).2 u

/-- It holds the lock as `h` says, before and after. -/
def Follows (h : Option Mode) (R R' : S → C → Prop) (p : Prog α β ρ) (c : C) : Prop :=
  ∀ s, R s c → p.Tracks does own loud I (fun h' s' c' => h' = h ∧ R' s' c') h c s

/-- It does so from `I` to `I`, wherever it starts. -/
def Carried (h : Option Mode) (p : Prog α β ρ) : Prop := ∀ c, Follows does own loud I h I I p c

end

variable {does : α → S → β → S → Prop} {own : α → C → β × C} {loud : α → S → Prop} {I R R' R'' : S → C → Prop}
  {Q Q' : Option Mode → S → C → Prop} {h : Option Mode} {p : Prog α β ρ} {f : ρ → Prog α β ρ'} {c : C} {s : S}

theorem Tracks.bind (hp : p.Tracks does own loud I Q h c s)
    (hf : ∀ h' s', Q h' s' (p.alone own c).2 →
      (f (p.alone own c).1).Tracks does own loud I Q' h' (p.alone own c).2 s') :
    (p >>= f).Tracks does own loud I Q' h c s := by
  show (p.bind f).Tracks does own loud I Q' h c s
  induction p generalizing h c s with
  | ret r => exact hf h s hp
  | lock m k ih => exact ⟨hp.1, fun s' hs' => ih (hp.2 s' hs') hf⟩
  | unlock k ih => exact ⟨hp.1, fun s' hs' => ih (hp.2 s' hs') hf⟩
  | act a k ih =>
    refine ⟨hp.1, hp.2.1, fun b u hd => ?_⟩
    obtain ⟨rfl, hu⟩ := hp.2.2 b u hd
    exact ⟨rfl, ih _ hu hf⟩

theorem Tracks.mono (hQ : ∀ h s c, Q h s c → Q' h s c) (hp : p.Tracks does own loud I Q h c s) :
    p.Tracks does own loud I Q' h c s := by
  induction p generalizing h c s with
  | ret r => exact hQ h s c hp
  | lock m k ih => exact ⟨hp.1, fun s' hs' => ih (hp.2 s' hs')⟩
  | unlock k ih => exact ⟨hp.1, fun s' hs' => ih (hp.2 s' hs')⟩
  | act a k ih => exact ⟨hp.1, hp.2.1, fun b u hd => ⟨(hp.2.2 b u hd).1, ih b (hp.2.2 b u hd).2⟩⟩

theorem Tracks.goes (hp : p.Tracks does own loud I Q h c s) : p.Goes does s := by
  induction p generalizing h c s with
  | ret r => trivial
  | lock m k ih => exact ih (hp.2 s hp.1)
  | unlock k ih => exact ih (hp.2 s hp.1)
  | act a k ih => exact ⟨hp.2.1, fun b u hd => ih b (hp.2.2 b u hd).2⟩

theorem Tracks.ends (hp : p.Tracks does own loud I Q h c s) {r : ρ} {t : S} (ht : p.Ends does s r t) :
    r = (p.alone own c).1 ∧ ∃ h', Q h' t (p.alone own c).2 := by
  induction p generalizing h c s with
  | ret r' =>
    obtain ⟨rfl, rfl⟩ := ht
    exact ⟨rfl, h, hp⟩
  | lock m k ih => exact ih (hp.2 s hp.1) ht
  | unlock k ih => exact ih (hp.2 s hp.1) ht
  | act a k ih =>
    obtain ⟨b, u, hd, ht⟩ := ht
    obtain ⟨rfl, hu⟩ := hp.2.2 b u hd
    exact ih _ hu ht

namespace Follows

theorem pure (r : ρ) (hr : ∀ s, R s c → R' s c) : Follows does own loud I h R R' (pure r : Prog α β ρ) c :=
  fun s hs => ⟨rfl, hr s hs⟩

theorem act {a : α} (hloud : ∀ s, R s c → loud a s → h = some .unique)
    (hright : ∀ s b t, R s c → does a s b t → b = (own a c).1 ∧ R' t (own a c).2)
    (hcan : ∀ s, R s c → ∃ b t, does a s b t) : Follows does own loud I h R R' (.act a .ret) c := by
  refine fun s hs => ⟨hloud s hs, hcan s hs, fun b t hd => ?_⟩
  obtain ⟨hb, ht⟩ := hright s b t hs hd
  exact ⟨hb, rfl, ht⟩

theorem mono {T : S → C → Prop} (hR : ∀ s, R s c → T s c) (hp : Follows does own loud I h T R' p c) :
    Follows does own loud I h R R' p c := fun s hs => hp s (hR s hs)

theorem bind (hp : Follows does own loud I h R R' p c)
    (hf : Follows does own loud I h R' R'' (f (p.alone own c).1) (p.alone own c).2) :
    Follows does own loud I h R R'' (p >>= f) c := by
  refine fun s hs => (hp s hs).bind ?_
  intro h' s' ⟨hh, hs'⟩
  rw [hh]
  exact hf s' hs'

end Follows

namespace Carried

theorem pure (r : ρ) : Carried does own loud I h (pure r : Prog α β ρ) := fun _ => .pure r fun _ hs => hs

theorem bind (hp : Carried does own loud I h p) (hf : ∀ r, Carried does own loud I h (f r)) :
    Carried does own loud I h (p >>= f) := fun c => (hp c).bind (hf _ _)

theorem locked {m : Mode} (hp : Carried does own loud I (some m) p) :
    Carried does own loud I none (Prog.locked m p) := by
  refine fun c s hs => ⟨hs, fun s' hs' => (hp c s' hs').bind ?_⟩
  intro h' t ⟨_, ht⟩
  exact ⟨ht, fun t' ht' => ⟨rfl, ht'⟩⟩

end Carried

end Prog

/-! ## Threads -/

section
variable {ι α β ρ S C : Type} [DecidableEq ι]

variable (does : ι → α → S → β → S → Prop) (disturb : ι → α → S → ι → S → S → Prop)

/-- Thread `i` takes a step, and its act may disturb the others. -/
def Step (s : ι → Thread α β ρ S) (i : ι) (t : ι → Thread α β ρ S) : Prop :=
  match (s i).prog with
  | .ret _ => False
  | .lock m k => Free s m ∧ t = Function.update s i ⟨some m, k, (s i).part⟩
  | .unlock k => t = Function.update s i ⟨none, k, (s i).part⟩
  | .act a k => ∃ b u, does i a (s i).part b u ∧ t i = ⟨(s i).held, k b, u⟩ ∧
      ∀ j, j ≠ i → ∃ v, disturb i a (s i).part j (s j).part v ∧ t j = { s j with part := v }

/-- The steps of these threads, one after the other. -/
def Leads : (ι → Thread α β ρ S) → List ι → (ι → Thread α β ρ S) → Prop
  | s, [], t => t = s
  | s, i :: is, t => ∃ u, Step does disturb s i u ∧ Leads u is t

variable (own : ι → α → C → β × C) (exclusive : α → Bool) (idle : C → Prop) (loud : ι → α → S → Prop)
  (I : ι → S → C → Prop)

/-- Acts that are not loud disturb nobody, and `I` survives the others. -/
structure Harmless : Prop where
  quiet : ∀ i a s j u v, j ≠ i → ¬ loud i a s → disturb i a s j u v → v = u
  idle : ∀ i a s j u v c, j ≠ i → disturb i a s j u v → I j u c → I j v c
  refl : ∀ i a s j u, disturb i a s j u u

/-- The threads `e` do the same on the upper level. -/
structure Below (progs : ι → Prog α β ρ) (parts : ι → C) (s : ι → Thread α β ρ S) (e : ι → Thread α β ρ C) :
    Prop where
  inv : Inv own exclusive idle progs parts e
  held : ∀ i, (s i).held = (e i).held
  prog : ∀ i, (s i).prog = (e i).prog
  tracks : ∀ i, (s i).prog.Tracks (does i) (own i) (loud i) (I i) (fun _ => I i) (s i).held (e i).part (s i).part

variable {does disturb own exclusive idle loud I} {progs : ι → Prog α β ρ} {parts : ι → C}
  {s t : ι → Thread α β ρ S} {e : ι → Thread α β ρ C} {i : ι}

omit [DecidableEq ι] in
/-- A thread that holds no lock may be disturbed. -/
theorem Below.disturbed (h : Below does own exclusive idle loud I progs parts s e) {j : ι}
    (hj : (s j).held = none) : I j (s j).part (e j).part ∧ ∀ v, I j v (e j).part →
      (s j).prog.Tracks (does j) (own j) (loud j) (I j) (fun _ => I j) (s j).held (e j).part v := by
  have hg := h.inv.guarded j
  have ht := h.tracks j
  rw [← h.held, ← h.prog, hj] at hg
  cases hp : (s j).prog with
  | ret r =>
    rw [hp] at ht
    exact ⟨ht, fun v hv => hv⟩
  | lock m k =>
    rw [hp] at ht
    exact ⟨ht.1, fun v hv => ⟨hv, ht.2⟩⟩
  | unlock k =>
    rw [hp] at hg
    exact absurd rfl hg.1
  | act a k =>
    rw [hp] at hg
    exact absurd rfl hg.1

omit [DecidableEq ι] in
theorem isolated_self : Isolated (fun (_ : ι) (_ : α) (_ : ι) (c : C) => c) exclusive idle :=
  ⟨fun _ _ _ _ _ _ => rfl, fun _ _ _ _ _ => rfl⟩

theorem Below.update (h : Below does own exclusive idle loud I progs parts s e) {m : Option Mode} {k : Prog α β ρ}
    (hinv : Inv own exclusive idle progs parts (Function.update e i ⟨m, k, (e i).part⟩))
    (hk : k.Tracks (does i) (own i) (loud i) (I i) (fun _ => I i) m (e i).part (s i).part) :
    Below does own exclusive idle loud I progs parts (Function.update s i ⟨m, k, (s i).part⟩)
      (Function.update e i ⟨m, k, (e i).part⟩) where
  inv := hinv
  held j := by
    rcases eq_or_ne j i with rfl | hne
    · rw [Function.update_self, Function.update_self]
    · rw [Function.update_of_ne hne, Function.update_of_ne hne, h.held]
  prog j := by
    rcases eq_or_ne j i with rfl | hne
    · rw [Function.update_self, Function.update_self]
    · rw [Function.update_of_ne hne, Function.update_of_ne hne, h.prog]
  tracks j := by
    rcases eq_or_ne j i with rfl | hne
    · rw [Function.update_self, Function.update_self]
      exact hk
    · rw [Function.update_of_ne hne, Function.update_of_ne hne]
      exact h.tracks j

/-- The thread that acts, and the others. -/
theorem Below.acted (hh : Harmless disturb loud I) (h : Below does own exclusive idle loud I progs parts s e) {a : α}
    {k : β → Prog α β ρ} (hp : (s i).prog = .act a k) {b : β} {u : S} (hd : does i a (s i).part b u)
    (hti : t i = ⟨(s i).held, k b, u⟩)
    (htj : ∀ j, j ≠ i → ∃ v, disturb i a (s i).part j (s j).part v ∧ t j = { s j with part := v })
    (hinv : Inv own exclusive idle progs parts fun j =>
      if j = i then ⟨(e i).held, k (own i a (e i).part).1, (own i a (e i).part).2⟩ else e j) :
    Below does own exclusive idle loud I progs parts t fun j =>
      if j = i then ⟨(e i).held, k (own i a (e i).part).1, (own i a (e i).part).2⟩ else e j := by
  have htrack := h.tracks i
  rw [hp] at htrack
  obtain ⟨hloud, -, hdone⟩ := htrack
  obtain ⟨hb, hu⟩ := hdone b u hd
  refine ⟨hinv, fun j => ?_, fun j => ?_, fun j => ?_⟩
  · rcases eq_or_ne j i with rfl | hne
    · rw [if_pos rfl, hti]
      exact h.held j
    · obtain ⟨v, -, hv⟩ := htj j hne
      rw [if_neg hne, hv]
      exact h.held j
  · rcases eq_or_ne j i with rfl | hne
    · rw [if_pos rfl, hti, ← hb]
    · obtain ⟨v, -, hv⟩ := htj j hne
      rw [if_neg hne, hv]
      exact h.prog j
  · rcases eq_or_ne j i with rfl | hne
    · rw [if_pos rfl, hti]
      exact hu
    · obtain ⟨v, hdv, hv⟩ := htj j hne
      rw [if_neg hne, hv]
      by_cases hq : loud i a (s i).part
      · have hfree : (s j).held = none := by
          rw [h.held j]
          exact h.inv.single i j hne ((h.held i).symm.trans (hloud hq))
        obtain ⟨hI, hrest⟩ := h.disturbed hfree
        exact hrest v (hh.idle i a _ j _ v _ hne hdv hI)
      · obtain rfl := hh.quiet i a _ j _ v hne hq hdv
        exact h.tracks j

variable [Fintype ι]

theorem Below.step (hh : Harmless disturb loud I) (h : Below does own exclusive idle loud I progs parts s e)
    (hs : Step does disturb s i t) :
    ∃ e', Below does own exclusive idle loud I progs parts t e' ∧ left own e' + 1 = left own e := by
  have htrack := h.tracks i
  have hpe := h.prog i
  have hup : ∀ e', RwLock.step own (fun _ _ _ c => c) e i = some e' →
      Inv own exclusive idle progs parts e' ∧ left own e' + 1 = left own e :=
    fun e' he => h.inv.step isolated_self he
  unfold Step at hs
  unfold RwLock.step at hup
  rw [← hpe] at hup
  cases hp : (s i).prog with
  | ret r =>
    rw [hp] at hs
    exact hs.elim
  | lock m k =>
    rw [hp] at hs htrack hup
    obtain ⟨hfree, rfl⟩ := hs
    have hfree' : Free e m := fun j => by
      rw [← h.held j]
      exact hfree j
    obtain ⟨hinv, hleft⟩ := hup _ (if_pos hfree')
    exact ⟨_, h.update hinv (htrack.2 _ htrack.1), hleft⟩
  | unlock k =>
    rw [hp] at hs htrack hup
    obtain rfl := hs
    obtain ⟨hinv, hleft⟩ := hup _ rfl
    exact ⟨_, h.update hinv (htrack.2 _ htrack.1), hleft⟩
  | act a k =>
    rw [hp] at hs hup
    obtain ⟨b, u, hd, hti, htj⟩ := hs
    obtain ⟨hinv, hleft⟩ := hup _ rfl
    exact ⟨_, h.acted hh hp hd hti htj hinv, hleft⟩

/-- A thread can go on, unless all have returned. -/
theorem Below.progress (hh : Harmless disturb loud I) (h : Below does own exclusive idle loud I progs parts s e) :
    (∃ i t, Step does disturb s i t) ∨ ∀ i, ∃ r, (s i).prog = .ret r := by
  have hgo : (∃ i t, RwLock.step own (fun _ _ _ c => c) e i = some t) ∨ ∀ i, ∃ r, (e i).prog = .ret r :=
    h.inv.progress
  rcases hgo with ⟨i, t, ht⟩ | hret
  · refine .inl ⟨i, ?_⟩
    have htrack := h.tracks i
    unfold RwLock.step at ht
    rw [← h.prog i] at ht
    unfold Step
    cases hp : (s i).prog with
    | ret r =>
      rw [hp] at ht
      cases ht
    | lock m k =>
      rw [hp] at ht
      simp only [Option.ite_none_right_eq_some] at ht
      refine ⟨_, fun j => ?_, rfl⟩
      rw [h.held j]
      exact ht.1 j
    | unlock k => exact ⟨_, rfl⟩
    | act a k =>
      rw [hp] at htrack
      obtain ⟨-, ⟨b, u, hd⟩, -⟩ := htrack
      refine ⟨fun j => if j = i then ⟨(s i).held, k b, u⟩ else s j, b, u, hd, if_pos rfl, fun j hne => ?_⟩
      exact ⟨(s j).part, hh.refl i a _ j _, if_neg hne⟩
  · refine .inr fun i => ?_
    rw [h.prog i]
    exact hret i

theorem Below.leads (hh : Harmless disturb loud I) : ∀ (is : List ι) {s : ι → Thread α β ρ S}
    {e : ι → Thread α β ρ C}, Below does own exclusive idle loud I progs parts s e → Leads does disturb s is t →
    ∃ e', Below does own exclusive idle loud I progs parts t e' ∧ is.length + left own e' = left own e
  | [], s, e, h, ht => by
    obtain rfl := ht
    exact ⟨e, h, Nat.zero_add _⟩
  | j :: is, s, e, h, ht => by
    obtain ⟨u, hu, ht⟩ := ht
    obtain ⟨e', he, hleft⟩ := h.step hh hu
    obtain ⟨e'', hend, hlen⟩ := he.leads hh is ht
    refine ⟨e'', hend, ?_⟩
    rw [List.length_cons]
    omega

omit [DecidableEq ι] [Fintype ι] in
/-- Threads at their start, with their programs carried. -/
theorem start_below (hg : ∀ i, (progs i).Guarded (own i) exclusive idle none (parts i))
    (hc : ∀ i, (progs i).Carried (does i) (own i) (loud i) (I i) none) {states : ι → S}
    (hI : ∀ i, I i (states i) (parts i)) :
    Below does own exclusive idle loud I progs parts (start progs states) (start progs parts) := by
  refine ⟨start_inv hg, fun _ => rfl, fun _ => rfl, fun i => ?_⟩
  exact (hc i (parts i) (states i) (hI i)).mono fun _ _ _ hs => hs.2

/-- **Threads whose programs are carried do what each one does alone.** -/
theorem leads_alone (hh : Harmless disturb loud I)
    (hg : ∀ i, (progs i).Guarded (own i) exclusive idle none (parts i))
    (hc : ∀ i, (progs i).Carried (does i) (own i) (loud i) (I i) none) {states : ι → S}
    (hI : ∀ i, I i (states i) (parts i)) {is : List ι} (h : Leads does disturb (start progs states) is s) :
    (∀ i r, (s i).prog = .ret r → r = ((progs i).alone (own i) (parts i)).1 ∧
      I i (s i).part ((progs i).alone (own i) (parts i)).2) ∧
    (∀ i a k, (s i).prog = .act a k → loud i a (s i).part → ∀ j, j ≠ i → ∃ c, I j (s j).part c) ∧
    ((∃ i t, Step does disturb s i t) ∨ ∀ i, ∃ r, (s i).prog = .ret r) ∧
    is.length ≤ left own (start progs parts) := by
  obtain ⟨e, he, hlen⟩ := (start_below hg hc hI).leads hh is h
  refine ⟨fun i r hr => ?_, fun i a k hp ha j hne => ?_, he.progress hh, by omega⟩
  · have halone := he.inv.alone i
    have htrack := he.tracks i
    rw [← he.prog i, hr] at halone
    rw [hr] at htrack
    have hr' : (r, (e i).part) = (progs i).alone (own i) (parts i) := halone
    rw [← hr']
    exact ⟨rfl, htrack⟩
  · have htrack := he.tracks i
    rw [hp] at htrack
    have hfree : (s j).held = none := by
      rw [he.held j]
      exact he.inv.single i j hne ((he.held i).symm.trans (htrack.1 ha))
    exact ⟨_, (he.disturbed hfree).1⟩

/-- They can all return. -/
theorem leads_complete (hh : Harmless disturb loud I)
    (hg : ∀ i, (progs i).Guarded (own i) exclusive idle none (parts i))
    (hc : ∀ i, (progs i).Carried (does i) (own i) (loud i) (I i) none) {states : ι → S}
    (hI : ∀ i, I i (states i) (parts i)) :
    ∃ is s, Leads does disturb (start progs states) is s ∧ ∀ i, ∃ r, (s i).prog = .ret r := by
  have hfrom : ∀ (n : Nat) (s : ι → Thread α β ρ S) (e : ι → Thread α β ρ C),
      Below does own exclusive idle loud I progs parts s e → left own e = n →
      ∃ is t, Leads does disturb s is t ∧ ∀ i, ∃ r, (t i).prog = .ret r := by
    intro n
    induction n with
    | zero =>
      intro s e h hn
      refine ⟨[], s, rfl, (h.progress hh).resolve_left ?_⟩
      intro ⟨i, t, ht⟩
      obtain ⟨e', -, hleft⟩ := h.step hh ht
      omega
    | succ n ih =>
      intro s e h hn
      rcases h.progress hh with ⟨i, t, ht⟩ | hret
      · obtain ⟨e', he, hleft⟩ := h.step hh ht
        obtain ⟨is, u, hu, hret⟩ := ih t e' he (by omega)
        exact ⟨i :: is, u, ⟨t, ht, hu⟩, hret⟩
      · exact ⟨[], s, rfl, hret⟩
  exact hfrom _ _ _ (start_below hg hc hI) rfl

end

end RwLock
