import HsqOverNand.Server.Pool

/-!
# One worker of the pool

A worker owes the answers of its batch from the receive on (`owed`). `step_kept`: what a step sends and
what the worker owes after it is what it owed before and what it accepted. `step_nearer`: a step with
the deadline over brings the worker nearer to rest, a datagram in the queue being far away.
-/

set_option autoImplicit false

namespace NandServer

namespace Pool

variable {W : Nat} {D : Type}

/-! ## Requests in memory -/

theorem leWord_congr {b b' : Nat → Byte} (h : ∀ k < 8, b k = b' k) : leWord b = leWord b' := by
  unfold leWord
  rw [h 0 (by omega), h 1 (by omega), h 2 (by omega), h 3 (by omega), h 4 (by omega), h 5 (by omega),
    h 6 (by omega), h 7 (by omega)]

theorem requestOf_congr {b b' : Nat → Byte} (h : ∀ k < REQUEST_SIZE, b k = b' k) :
    requestOf b = requestOf b' := by
  have hlt : ∀ k, k < 8 → k < REQUEST_SIZE ∧ 8 + k < REQUEST_SIZE := fun k hk => by
    unfold REQUEST_SIZE
    omega
  unfold requestOf
  rw [leWord_congr fun k hk => h k (hlt k hk).1, leWord_congr fun k hk => h (8 + k) (hlt k hk).2]

/-- A whole request overwrites whatever an earlier receive left. -/
theorem Pending.fill_request {p : Pending} {d : Datagram} (h : d.received = REQUEST_SIZE) :
    (p.fill d).request = d.request := by
  refine requestOf_congr fun k hk => ?_
  have hlen : k < d.data.length := by
    unfold Datagram.received at h
    omega
  rw [dif_pos hk]
  refine (Vector.getElem_ofFn hk).trans ?_
  simp only [List.getD_eq_getElem?_getD, List.getElem?_eq_getElem hlen, Option.getD_some]

/-! ## What a worker owes -/

/-- `recvfrom` returns `sizeof(Request)`. -/
def Datagram.whole (d : Datagram) : Bool := d.received = REQUEST_SIZE

def answer (d : Datagram) : Addr × Response := (d.src, boost d.request)

def answers (ds : List Datagram) : Multiset (Addr × Response) := ↑(ds.map answer)

/-- `good` CPUs compute their rounds correctly, one after the other. -/
structure Computes [NandInterface D] (good : CPU D → Prop) : Prop where
  keeps : ∀ c, good c → ∀ inA inB, good (c.setIn inA inB).round
  answers : ∀ c, good c → ∀ inA inB, ∀ l : Fin LANES,
    (c.setIn inA inB).round.responses.get l = boost ⟨inA.get l, inB.get l⟩

/-- A batch that grows or is computed. -/
def Phase.isOpen : Phase → Bool
  | .idle | .send _ => false
  | .first | .collect | .wait | .boost | .cpu => true

namespace Worker

/-- The answer to `p[i]`. -/
def answer (w : Worker D) (i : Nat) : Addr × Response := ((w.p i).addr, NandServer.boost (w.p i).request)

/-- The slots of the batch that are not answered yet. -/
def todo (w : Worker D) : List Nat :=
  match w.phase with
  | .idle => []
  | .send i => List.range' i (w.n - i)
  | .first | .collect | .wait | .boost | .cpu => List.range' 0 w.n

def owed (w : Worker D) : Multiset (Addr × Response) := ↑(w.todo.map w.answer)

structure Ok (good : CPU D → Prop) (w : Worker D) : Prop where
  cpu : good w.cpu
  bound : w.n ≤ LANES
  resp : ∀ i, w.phase = .send i → ∀ j < w.n, w.resp j = NandServer.boost (w.p j).request

/-- What `take` does to the batch and the logs. -/
structure Taken (s : Shared) (w : Worker D) (r : Bool × Shared × Worker D) (new : List Datagram) :
    Prop where
  accepted : r.2.1.accepted = s.accepted ++ new
  sent : r.2.1.sent = s.sent
  cpu : r.2.2.cpu = w.cpu
  phase : r.2.2.phase = w.phase
  n : r.2.2.n = w.n + new.length
  batch : (List.range' 0 r.2.2.n).map r.2.2.answer =
    (List.range' 0 w.n).map w.answer ++ new.map Pool.answer
  one : new.length = if r.1 then 1 else 0
  queue : r.2.1.queue = s.queue.tail
  whole : new ++ r.2.1.queue.filter Datagram.whole = s.queue.filter Datagram.whole

theorem take_spec (now : Nat) (s : Shared) (w : Worker D) : ∃ new, Taken s w (take now s w) new := by
  unfold take
  split
  · rename_i hq
    exact ⟨[], (List.append_nil _).symm, rfl, rfl, rfl, rfl, (List.append_nil _).symm, rfl,
      by rw [hq]; rfl, rfl⟩
  · rename_i d queue hq
    have htail : queue = s.queue.tail := by
      rw [hq]
      rfl
    -- the slots before `n` are not touched
    have hold : (List.range' 0 w.n).map
        ({ w with p := Function.update w.p w.n ((w.p w.n).fill d) } : Worker D).answer =
        (List.range' 0 w.n).map w.answer := by
      refine List.map_congr_left fun i hi => ?_
      have hne : i ≠ w.n := by
        have := List.mem_range'_1.1 hi
        omega
      simp only [answer, Function.update_of_ne hne]
    split
    · rename_i hsize
      refine ⟨[d], rfl, rfl, rfl, rfl, rfl, ?_, rfl, htail, ?_⟩
      · show (List.range' 0 (w.n + 1)).map _ = _
        rw [List.range'_1_concat, List.map_append]
        refine congrArg₂ (· ++ ·) hold ?_
        simp only [List.map_cons, List.map_nil, answer, Pool.answer, Nat.zero_add, Function.update_self,
          Pending.fill_request hsize]
        rfl
      · have hwhole : d.whole = true := decide_eq_true hsize
        rw [hq, List.filter_cons_of_pos hwhole]
        rfl
    · rename_i hsize
      refine ⟨[], (List.append_nil _).symm, rfl, rfl, rfl, rfl, hold.trans (List.append_nil _).symm, rfl,
        htail, ?_⟩
      have hwhole : ¬ d.whole = true := fun h => hsize (of_decide_eq_true h)
      rw [hq, List.filter_cons_of_neg hwhole]
      rfl

/-! ## Accounts -/

/-- One step of a worker that owed `o`: what goes out and what it owes then is `o` and what came in. -/
structure Balanced (s : Shared) (o : Multiset (Addr × Response)) (r : Shared × Worker D) : Prop where
  whole : r.1.accepted ++ r.1.queue.filter Datagram.whole = s.accepted ++ s.queue.filter Datagram.whole
  logs : (r.1.sent : Multiset (Addr × Response)) + r.2.owed + answers s.accepted =
    s.sent + o + answers r.1.accepted

theorem owed_idle {w : Worker D} (h : w.phase = .idle) : w.owed = 0 := by
  unfold owed todo
  rw [h]
  rfl

theorem owed_send {w : Worker D} {i : Nat} (h : w.phase = .send i) :
    w.owed = ↑((List.range' i (w.n - i)).map w.answer) := by
  unfold owed todo
  rw [h]

theorem owed_open {w : Worker D} (h : w.phase.isOpen) : w.owed = ↑((List.range' 0 w.n).map w.answer) := by
  unfold owed todo
  cases hphase : w.phase with
  | idle => rw [hphase] at h; cases h
  | send i => rw [hphase] at h; cases h
  | first | collect | wait | boost | cpu => rfl

theorem Balanced.of_owed {s : Shared} {o : Multiset (Addr × Response)} {w' : Worker D} (h : w'.owed = o) :
    Balanced s o (s, w') := ⟨rfl, by rw [h]⟩

theorem Taken.balanced {s : Shared} {w : Worker D} {r : Bool × Shared × Worker D} {new : List Datagram}
    (ht : Taken s w r new) {o : Multiset (Addr × Response)} {w' : Worker D}
    (ho : o = ↑((List.range' 0 w.n).map w.answer))
    (ho' : w'.owed = ↑((List.range' 0 r.2.2.n).map r.2.2.answer)) : Balanced s o (r.2.1, w') := by
  refine ⟨by rw [ht.accepted, List.append_assoc, ht.whole], ?_⟩
  rw [ho, ho', ht.batch, ht.sent, ht.accepted]
  unfold answers
  rw [List.map_append, ← Multiset.coe_add, ← Multiset.coe_add]
  ac_rfl

section
variable [NandInterface D] {numCpus now : Nat} {stop : Bool} {s : Shared} {w : Worker D}

theorem step_of_idle (h : w.phase = .idle) : w.step numCpus now stop s =
    ((take now s { w with n := 0 }).2.1,
      if (take now s { w with n := 0 }).1 then { (take now s { w with n := 0 }).2.2 with phase := .first }
      else (take now s { w with n := 0 }).2.2) := by
  unfold step
  split <;> simp_all

theorem step_of_first (h : w.phase = .first) :
    w.step numCpus now stop s = (s, { w with phase := if s.isboost then .boost else .collect }) := by
  unfold step
  split <;> simp_all

theorem step_of_collect (h : w.phase = .collect) : w.step numCpus now stop s = if w.n < LANES then
    ((take now s w).2.1,
      if (take now s w).1 then (take now s w).2.2 else { (take now s w).2.2 with phase := .wait })
    else (s, { w with phase := .wait }) := by
  unfold step
  split <;> simp_all

theorem step_of_wait (h : w.phase = .wait) : w.step numCpus now stop s =
    if w.n < LANES ∧ numCpus < w.active ∧ stop = false then (take now s w).2
    else (s, { w with phase := .cpu }) := by
  unfold step
  split <;> simp_all

theorem step_of_boost (h : w.phase = .boost) : w.step numCpus now stop s = (s, { w with
    cpu := w.cpu
    resp := fun i => if i < w.n then NandServer.boost (w.p i).request else w.resp i
    phase := .send 0 }) := by
  unfold step
  split <;> simp_all

theorem step_of_cpu (h : w.phase = .cpu) : w.step numCpus now stop s = (s, { w with
    cpu := (w.cpu.load (.ofFn fun i => (w.p i).request) w.n).round
    resp := fun i => if h : i < w.n ∧ i < LANES then
      (w.cpu.load (.ofFn fun i => (w.p i).request) w.n).round.responses.get ⟨i, h.2⟩ else w.resp i
    phase := .send 0 }) := by
  unfold step
  split <;> simp_all

theorem step_of_send {i : Nat} (h : w.phase = .send i) : w.step numCpus now stop s = if i < w.n then
    ({ s with sent := s.sent ++ [((w.p i).addr, w.resp i)] }, { w with phase := .send (i + 1) })
    else (s, { w with phase := .idle }) := by
  unfold step
  split <;> simp_all

end

section
variable [NandInterface D] {good : CPU D → Prop} {numCpus now : Nat} {stop : Bool} {s : Shared}
  {w : Worker D}

omit [NandInterface D] in
theorem Ok.of_open (hcpu : good w.cpu) (hbound : w.n ≤ LANES) (h : w.phase.isOpen) : w.Ok good :=
  ⟨hcpu, hbound, fun i hi => by rw [hi] at h; cases h⟩

/-- What a step keeps of one worker. -/
structure Kept (good : CPU D → Prop) (s : Shared) (w : Worker D) (r : Shared × Worker D) : Prop where
  ok : r.2.Ok good
  balanced : Balanced s w.owed r

theorem step_idle (hw : w.Ok good) (hphase : w.phase = .idle) :
    Kept good s w (w.step numCpus now stop s) := by
  obtain ⟨new, ht⟩ := take_spec now s { w with n := 0 }
  rw [step_of_idle hphase]
  generalize take now s { w with n := 0 } = r at ht
  have hcpu : good r.2.2.cpu := by
    rw [ht.cpu]
    exact hw.cpu
  have hn := ht.n.trans (Nat.zero_add _)
  rw [ht.one] at hn
  cases htake : r.1 with
  | true =>
    rw [htake] at hn
    have hbound : r.2.2.n ≤ LANES := by
      rw [hn]
      decide
    exact ⟨.of_open hcpu hbound rfl, ht.balanced (owed_idle hphase) rfl⟩
  | false =>
    rw [htake] at hn
    have hidle : r.2.2.phase = .idle := ht.phase.trans hphase
    have hbound : r.2.2.n ≤ LANES := by
      rw [hn]
      exact Nat.zero_le _
    refine ⟨⟨hcpu, hbound, fun i hi => ?_⟩, ht.balanced (owed_idle hphase) ?_⟩
    · have hne : Phase.idle = .send i := hidle.symm.trans hi
      cases hne
    · rw [hn]
      exact owed_idle hidle

theorem step_first (hw : w.Ok good) (hphase : w.phase = .first) :
    Kept good s w (w.step numCpus now stop s) := by
  have hopen : (if s.isboost then Phase.boost else .collect).isOpen := by
    split <;> rfl
  rw [step_of_first hphase]
  have hfirst : w.phase.isOpen := by rw [hphase]; rfl
  exact ⟨.of_open hw.cpu hw.bound hopen, .of_owed ((owed_open hopen).trans (owed_open hfirst).symm)⟩

omit [NandInterface D] in
/-- One more receive into an open batch. -/
theorem Kept.of_take {r : Bool × Shared × Worker D} {new : List Datagram} (ht : Taken s w r new)
    (hw : w.Ok good) (hlt : w.n < LANES) (hopen : w.phase.isOpen) (phase : Phase) (hphase : phase.isOpen) :
    Kept good s w (r.2.1, { r.2.2 with phase := phase }) := by
  have hcpu : good r.2.2.cpu := by
    rw [ht.cpu]
    exact hw.cpu
  have hbound : r.2.2.n ≤ LANES := by
    rw [ht.n, ht.one]
    split <;> omega
  exact ⟨.of_open hcpu hbound hphase, ht.balanced (owed_open hopen) (owed_open hphase)⟩

theorem step_collect (hw : w.Ok good) (hphase : w.phase = .collect) :
    Kept good s w (w.step numCpus now stop s) := by
  have hopen : w.phase.isOpen := by rw [hphase]; rfl
  obtain ⟨new, ht⟩ := take_spec now s w
  rw [step_of_collect hphase]
  generalize take now s w = r at ht
  split
  · rename_i hlt
    split
    · exact Kept.of_take ht hw hlt hopen r.2.2.phase (by rw [ht.phase, hphase]; rfl)
    · exact Kept.of_take ht hw hlt hopen .wait rfl
  · exact ⟨.of_open hw.cpu hw.bound rfl, .of_owed ((owed_open rfl).trans (owed_open hopen).symm)⟩

theorem step_wait (hw : w.Ok good) (hphase : w.phase = .wait) :
    Kept good s w (w.step numCpus now stop s) := by
  have hopen : w.phase.isOpen := by rw [hphase]; rfl
  obtain ⟨new, ht⟩ := take_spec now s w
  rw [step_of_wait hphase]
  generalize take now s w = r at ht
  split
  · rename_i hlt
    exact Kept.of_take ht hw hlt.1 hopen r.2.2.phase (by rw [ht.phase, hphase]; rfl)
  · exact ⟨.of_open hw.cpu hw.bound rfl, .of_owed ((owed_open rfl).trans (owed_open hopen).symm)⟩

omit [NandInterface D] in
/-- The answers are there: from `send 0` on the worker owes the same. -/
theorem Kept.of_computed {c : CPU D} {resp : Nat → Response} (hw : w.Ok good) (hopen : w.phase.isOpen)
    (hcpu : good c) (hresp : ∀ j < w.n, resp j = NandServer.boost (w.p j).request) :
    Kept good s w (s, { w with cpu := c, resp := resp, phase := .send 0 }) :=
  ⟨⟨hcpu, hw.bound, fun _ _ => hresp⟩, .of_owed ((owed_send rfl).trans (owed_open hopen).symm)⟩

theorem step_boost (hw : w.Ok good) (hphase : w.phase = .boost) :
    Kept good s w (w.step numCpus now stop s) := by
  rw [step_of_boost hphase]
  exact .of_computed hw (by rw [hphase]; rfl) hw.cpu fun j hj => if_pos hj

theorem step_cpu (hg : Computes good) (hw : w.Ok good) (hphase : w.phase = .cpu) :
    Kept good s w (w.step numCpus now stop s) := by
  rw [step_of_cpu hphase]
  refine .of_computed hw (by rw [hphase]; rfl) (hg.keeps _ hw.cpu _ _) fun j hj => ?_
  have hlt : j < LANES := Nat.lt_of_lt_of_le hj hw.bound
  have hround := CPU.answer_of_load (p := .ofFn fun i => (w.p i).request) (hg.answers _ hw.cpu _ _)
    ⟨j, hlt⟩ hj
  rw [dif_pos ⟨hj, hlt⟩]
  exact hround.trans (congrArg NandServer.boost (Vector.getElem_ofFn hlt))

theorem step_send {i : Nat} (hw : w.Ok good) (hphase : w.phase = .send i) :
    Kept good s w (w.step numCpus now stop s) := by
  rw [step_of_send hphase]
  split
  · rename_i hlt
    refine ⟨⟨hw.cpu, hw.bound, fun _ _ => hw.resp i hphase⟩, rfl, ?_⟩
    have hsplit : List.range' i (w.n - i) = i :: List.range' (i + 1) (w.n - (i + 1)) := by
      rw [show w.n - i = w.n - (i + 1) + 1 by omega, List.range'_succ]
    rw [owed_send hphase, owed_send rfl, hsplit, hw.resp i hphase i hlt]
    have hsent : (↑(s.sent ++ [((w.p i).addr, NandServer.boost (w.p i).request)]) :
        Multiset (Addr × Response)) = s.sent + {w.answer i} := by
      rw [← Multiset.coe_add]
      rfl
    rw [hsent, List.map_cons, ← Multiset.cons_coe, ← Multiset.singleton_add]
    exact congrArg (· + _) (add_assoc _ _ _)
  · refine ⟨⟨hw.cpu, hw.bound, fun _ hi => by cases hi⟩, .of_owed ?_⟩
    rw [owed_idle rfl, owed_send hphase, show w.n - i = 0 by omega]
    rfl

theorem step_kept (numCpus now : Nat) (stop : Bool) (s : Shared) (hg : Computes good) (hw : w.Ok good) :
    Kept good s w (w.step numCpus now stop s) := by
  cases hphase : w.phase with
  | idle => exact step_idle hw hphase
  | first => exact step_first hw hphase
  | collect => exact step_collect hw hphase
  | wait => exact step_wait hw hphase
  | boost => exact step_boost hw hphase
  | cpu => exact step_cpu hg hw hphase
  | send i => exact step_send hw hphase

end

/-! ## Towards rest -/

/-- Steps to rest, counted for a full batch as long as it may grow. -/
def rank (w : Worker D) : Nat :=
  match w.phase with
  | .idle => 0
  | .send i => w.n - i + 1
  | .boost | .cpu => w.n + 2
  | .wait => LANES + 3
  | .collect => LANES + 4
  | .first => LANES + 5

theorem rank_eq_zero {w : Worker D} : w.rank = 0 ↔ w.phase = .idle := by
  unfold rank
  cases w.phase <;> simp

/-- More than any rank. -/
def perDatagram : Nat := LANES + 6

/-- The queue and one worker are nearer to rest, or nothing moved. -/
def Nearer (stop : Bool) (s : Shared) (w : Worker D) (r : Shared × Worker D) : Prop :=
  r.2.rank + perDatagram * r.1.queue.length < w.rank + perDatagram * s.queue.length ∨
    s.queue = [] ∧ r.1.queue = [] ∧ r.2.phase = w.phase ∧ r.2.rank = w.rank ∧
      (stop = true → w.phase = .idle)

theorem Taken.shrinks {s : Shared} {w : Worker D} {r : Bool × Shared × Worker D} {new : List Datagram}
    (ht : Taken s w r new) : (s.queue = [] ∧ r.1 = false ∧ r.2.1.queue = []) ∨
      r.2.1.queue.length + 1 = s.queue.length := by
  cases hq : s.queue with
  | nil =>
    have hnew := ht.whole
    rw [hq] at hnew
    have hone := ht.one
    rw [(List.append_eq_nil_iff.1 hnew).1] at hone
    refine .inl ⟨rfl, ?_, by rw [ht.queue, hq]; rfl⟩
    cases htake : r.1 with
    | false => rfl
    | true => rw [htake] at hone; cases hone
  | cons d ds => exact .inr (by rw [ht.queue, hq]; rfl)

/-- A step that leaves the queue alone. -/
theorem Nearer.of_rank {stop : Bool} {s : Shared} {w w' : Worker D} (h : w'.rank < w.rank) :
    Nearer stop s w (s, w') := .inl (Nat.add_lt_add_right h _)

/-- A step that takes a datagram from the queue. -/
theorem Nearer.of_shrinks {stop : Bool} {s : Shared} {w : Worker D} {r : Shared × Worker D}
    (h : r.1.queue.length + 1 = s.queue.length) (hrank : r.2.rank < w.rank + perDatagram) :
    Nearer stop s w r := by
  refine .inl ?_
  rw [← h, Nat.mul_add, Nat.mul_one]
  omega

section
variable [NandInterface D] {numCpus now : Nat} {stop : Bool} {s : Shared} {w : Worker D}

theorem nearer_idle (hphase : w.phase = .idle) : Nearer stop s w (w.step numCpus now stop s) := by
  obtain ⟨new, ht⟩ := take_spec now s { w with n := 0 }
  have hrank : w.rank = 0 := rank_eq_zero.2 hphase
  rw [step_of_idle hphase]
  generalize take now s { w with n := 0 } = r at ht
  have hidle : r.2.2.phase = .idle := ht.phase.trans hphase
  have hrank' : r.2.2.rank = 0 := rank_eq_zero.2 hidle
  rcases ht.shrinks with ⟨hq, htake, hq'⟩ | hq
  · refine .inr ⟨hq, hq', ?_, ?_, fun _ => hphase⟩
    · rw [htake]
      exact hidle.trans hphase.symm
    · rw [htake, hrank]
      exact hrank'
  · refine .of_shrinks hq ?_
    show (if r.1 then { r.2.2 with phase := .first } else r.2.2).rank < w.rank + perDatagram
    split
    · exact Nat.lt_of_lt_of_le (Nat.lt_succ_self (LANES + 5)) (Nat.le_add_left _ _)
    · rw [hrank', hrank]
      decide

theorem nearer_first (hbound : w.n ≤ LANES) (hphase : w.phase = .first) :
    Nearer stop s w (w.step numCpus now stop s) := by
  have hrank : w.rank = LANES + 5 := by unfold rank; rw [hphase]
  rw [step_of_first hphase]
  refine .of_rank ?_
  rw [hrank]
  cases s.isboost with
  | true =>
    show w.n + 2 < LANES + 5
    omega
  | false => exact Nat.lt_succ_self (LANES + 4)

theorem nearer_collect (hphase : w.phase = .collect) : Nearer stop s w (w.step numCpus now stop s) := by
  obtain ⟨new, ht⟩ := take_spec now s w
  have hrank : w.rank = LANES + 4 := by unfold rank; rw [hphase]
  rw [step_of_collect hphase]
  generalize take now s w = r at ht
  split
  · rcases ht.shrinks with ⟨hq, htake, hq'⟩ | hq
    · refine .inl ?_
      rw [htake, hrank, hq, hq']
      exact Nat.lt_succ_self (LANES + 3)
    · refine .of_shrinks hq ?_
      have hcollect : r.2.2.rank = LANES + 4 := by unfold rank; rw [ht.phase, hphase]
      show (if r.1 then r.2.2 else { r.2.2 with phase := .wait }).rank < w.rank + perDatagram
      rw [hrank]
      split
      · rw [hcollect]
        exact Nat.lt_add_of_pos_right (by decide)
      · exact Nat.lt_of_lt_of_le (Nat.lt_succ_self (LANES + 3)) (Nat.le_add_right _ _)
  · refine .of_rank ?_
    rw [hrank]
    exact Nat.lt_succ_self (LANES + 3)

/-- Only here the deadline matters. -/
theorem nearer_wait (hbound : w.n ≤ LANES) (hphase : w.phase = .wait) :
    Nearer stop s w (w.step numCpus now stop s) := by
  obtain ⟨new, ht⟩ := take_spec now s w
  have hrank : w.rank = LANES + 3 := by unfold rank; rw [hphase]
  rw [step_of_wait hphase]
  generalize take now s w = r at ht
  split
  · rename_i hwait
    have hrank' : r.2.2.rank = LANES + 3 := by unfold rank; rw [ht.phase, hphase]
    rcases ht.shrinks with ⟨hq, htake, hq'⟩ | hq
    · refine .inr ⟨hq, hq', ht.phase, hrank'.trans hrank.symm, fun hstop => ?_⟩
      rw [hwait.2.2] at hstop
      cases hstop
    · refine .of_shrinks hq ?_
      rw [hrank', hrank]
      exact Nat.lt_add_of_pos_right (by decide)
  · refine .of_rank ?_
    show w.n + 2 < w.rank
    omega

theorem nearer_computed (hphase : w.phase = .boost ∨ w.phase = .cpu) :
    Nearer stop s w (w.step numCpus now stop s) := by
  have hrank : w.rank = w.n + 2 := by
    unfold rank
    rcases hphase with h | h <;> rw [h]
  rcases hphase with h | h
  · rw [step_of_boost h]
    refine .of_rank ?_
    rw [hrank]
    exact Nat.lt_succ_self (w.n + 1)
  · rw [step_of_cpu h]
    refine .of_rank ?_
    rw [hrank]
    exact Nat.lt_succ_self (w.n + 1)

theorem nearer_send {i : Nat} (hphase : w.phase = .send i) :
    Nearer stop s w (w.step numCpus now stop s) := by
  have hrank : w.rank = w.n - i + 1 := by unfold rank; rw [hphase]
  rw [step_of_send hphase]
  split
  · refine .inl (Nat.add_lt_add_right ?_ _)
    show w.n - (i + 1) + 1 < w.rank
    omega
  · refine .of_rank ?_
    rw [hrank]
    exact Nat.succ_pos _

theorem step_nearer (numCpus now : Nat) (stop : Bool) (s : Shared) (hbound : w.n ≤ LANES) :
    Nearer stop s w (w.step numCpus now stop s) := by
  cases hphase : w.phase with
  | idle => exact nearer_idle hphase
  | first => exact nearer_first hbound hphase
  | collect => exact nearer_collect hphase
  | wait => exact nearer_wait hbound hphase
  | boost => exact nearer_computed (.inl hphase)
  | cpu => exact nearer_computed (.inr hphase)
  | send i => exact nearer_send hphase

end

end Worker

end Pool

end NandServer
