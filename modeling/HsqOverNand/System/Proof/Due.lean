import HsqOverNand.System.Network

/-!
# What is on its way to a process

`due addr s k`: the answers a process has in its socket, in flight, owed by a worker, or coming for
requests that no worker has received yet. `step_vm`: what one event does to a process and to what is due
to it (`Vm.Step`).
-/

set_option autoImplicit false

namespace NandServer

open Pool (Addr Datagram Computes answers)

/-! ## Requests on the wire -/

theorem Request.bytes_length (r : Request) : r.bytes.length = Pool.REQUEST_SIZE := by
  unfold Request.bytes
  simp only [List.length_append, List.length_map, List.length_range]
  rfl

theorem Request.bytes_whole (a : Addr) (r : Request) : (⟨a, r.bytes⟩ : Datagram).whole = true := by
  unfold Datagram.whole Datagram.received
  rw [r.bytes_length, Nat.min_self]
  exact decide_eq_true rfl

/-- A request reads back as it was sent. -/
theorem Request.bytes_request (a : Addr) (r : Request) : (⟨a, r.bytes⟩ : Datagram).request = r := by
  have ha : ∀ k < 8, r.bytes.getD k 0 = wordByte r.a k := fun k hk => by
    rw [List.getD_eq_getElem?_getD, Request.bytes, List.getElem?_append_left (by simpa using hk)]
    simp [hk]
  have hb : ∀ k < 8, r.bytes.getD (8 + k) 0 = wordByte r.b k := fun k hk => by
    rw [List.getD_eq_getElem?_getD, Request.bytes, List.getElem?_append_right (by simp)]
    simp [hk]
  unfold Datagram.request Pool.requestOf
  rw [Pool.leWord_congr ha, Pool.leWord_congr hb, leWord_wordByte, leWord_wordByte]

theorem answer_bytes (a : Addr) (r : Request) : Pool.answer ⟨a, r.bytes⟩ = (a, boost r) := by
  unfold Pool.answer
  rw [Request.bytes_request]

/-! ## The pool -/

namespace Pool

variable {W : Nat} {D : Type} [NandInterface D]

theorem Worker.step_sent (numCpus now : Nat) (stop : Bool) (s : Shared) (w : Worker D) :
    ∃ new, (w.step numCpus now stop s).1.sent = s.sent ++ new := by
  have htake : ∀ w' : Worker D, ∃ new, (take now s w').2.1.sent = s.sent ++ new := fun w' => by
    obtain ⟨_, ht⟩ := take_spec now s w'
    exact ⟨[], ht.sent.trans (List.append_nil _).symm⟩
  have hsame : ∃ new, s.sent = s.sent ++ new := ⟨[], (List.append_nil _).symm⟩
  cases hphase : w.phase with
  | idle =>
    rw [step_of_idle hphase]
    exact htake _
  | first =>
    rw [step_of_first hphase]
    exact hsame
  | collect =>
    rw [step_of_collect hphase]
    split
    · exact htake _
    · exact hsame
  | wait =>
    rw [step_of_wait hphase]
    split
    · exact htake _
    · exact hsame
  | boost =>
    rw [step_of_boost hphase]
    exact hsame
  | cpu =>
    rw [step_of_cpu hphase]
    exact hsame
  | send i =>
    rw [step_of_send hphase]
    split
    · exact ⟨_, rfl⟩
    · exact hsame

theorem answers_append (ds es : List Datagram) : answers (ds ++ es) = answers ds + answers es := by
  unfold answers
  rw [List.map_append, ← Multiset.coe_add]

/-- The answers to the requests of a list. -/
def asked (ds : List Datagram) : Multiset (Addr × Response) := answers (ds.filter Datagram.whole)

theorem asked_append (ds es : List Datagram) : asked (ds ++ es) = asked ds + asked es := by
  unfold asked
  rw [List.filter_append, answers_append]

theorem asked_eraseIdx {ds : List Datagram} {i : Nat} {d : Datagram} (h : ds[i]? = some d) :
    asked ds = asked [d] + asked (ds.eraseIdx i) := by
  obtain ⟨hi, rfl⟩ := List.getElem?_eq_some_iff.1 h
  have hperm := ((List.getElem_cons_eraseIdx_perm hi).filter Datagram.whole).map answer
  rw [← asked_append]
  exact (Multiset.coe_eq_coe.2 hperm).symm

theorem asked_le {ds es : List Datagram} (h : ds.Sublist es) : asked ds ≤ asked es :=
  Multiset.coe_le.2 ((h.filter _).map _).subperm

/-- What the pool still has to send. -/
def pending (s : Pool W D) : Multiset (Addr × Response) :=
  asked s.shared.queue + ∑ i, (s.workers i).owed

theorem step_sent (s : Pool W D) (e : Event W) :
    (s.step e).shared.sent = s.shared.sent ++ (s.step e).shared.sent.drop s.shared.sent.length := by
  have happ : ∃ new, (s.step e).shared.sent = s.shared.sent ++ new := by
    cases e with
    | arrive d => exact ⟨[], (List.append_nil _).symm⟩
    | toggle => exact ⟨[], (List.append_nil _).symm⟩
    | work i now stop => exact Worker.step_sent W now stop s.shared (s.workers i)
  obtain ⟨new, hnew⟩ := happ
  rw [hnew, List.drop_left]

/-- A step of the pool loses no answer and makes none up. -/
theorem step_pending {good : CPU D → Prop} (hg : Computes good) {s : Pool W D} (h : s.Inv good)
    (e : Event W) : (s.step e).pending + ↑((s.step e).shared.sent.drop s.shared.sent.length) =
      s.pending + asked (arrivals [e]) := by
  obtain ⟨hinv, hreq⟩ := step_inv hg h e
  have hsent := step_sent s e
  have hlogs := hinv.logs
  have hall := congrArg answers hreq
  unfold requests at hall
  rw [answers_append, answers_append, answers_append, ← hinv.logs, ← h.logs] at hall
  rw [hsent, ← Multiset.coe_add] at hall
  generalize (s.step e).shared.sent.drop s.shared.sent.length = new at hall ⊢
  unfold pending asked
  refine add_left_cancel (a := (s.shared.sent : Multiset (Addr × Response))) ?_
  calc (s.shared.sent : Multiset (Addr × Response)) +
        (answers ((s.step e).shared.queue.filter Datagram.whole) + ∑ i, ((s.step e).workers i).owed + ↑new)
      = ↑s.shared.sent + ↑new + ∑ i, ((s.step e).workers i).owed +
          answers ((s.step e).shared.queue.filter Datagram.whole) := by ac_rfl
    _ = _ := hall
    _ = _ := by ac_rfl

end Pool

/-! ## In flight -/

theorem perm_eraseIdx {α : Type} {l : List α} {i : Nat} {x : α} (h : l[i]? = some x) :
    (l : Multiset α) = x ::ₘ ↑(l.eraseIdx i) := by
  obtain ⟨hi, rfl⟩ := List.getElem?_eq_some_iff.1 h
  exact Multiset.coe_eq_coe.2 (List.getElem_cons_eraseIdx_perm hi).symm

open Pool (asked asked_append asked_eraseIdx asked_le)

namespace Net

variable {K W : Nat} {D : Type} {addr : Fin K → Addr} {s : Net K W D}

/-- All answers on their way. -/
def underway (s : Net K W D) : Multiset (Addr × Response) := asked s.requests + s.pool.pending + ↑s.answers

/-- Those for one process. -/
def toward (addr : Fin K → Addr) (k : Fin K) (m : Multiset (Addr × Response)) : Multiset Response :=
  (m.filter fun x => x.1 = addr k).map Prod.snd

theorem toward_add (k : Fin K) (m n : Multiset (Addr × Response)) :
    toward addr k (m + n) = toward addr k m + toward addr k n := by
  unfold toward
  rw [Multiset.filter_add, Multiset.map_add]

theorem toward_le (k : Fin K) {m n : Multiset (Addr × Response)} (h : m ≤ n) :
    toward addr k m ≤ toward addr k n := Multiset.map_le_map (Multiset.filter_le_filter _ h)

theorem toward_cons (k : Fin K) (x : Addr × Response) (m : Multiset (Addr × Response)) :
    toward addr k (x ::ₘ m) = if x.1 = addr k then x.2 ::ₘ toward addr k m else toward addr k m := by
  unfold toward
  rw [Multiset.filter_cons]
  split
  · rw [Multiset.singleton_add, Multiset.map_cons]
  · rw [zero_add]

/-- What is due to a process, its socket included. -/
def due (addr : Fin K → Addr) (s : Net K W D) (k : Fin K) : Multiset Response :=
  toward addr k s.underway + ↑(s.vms k).socket

section
variable [NandInterface D]

/-- A step of the pool in which nothing arrives. -/
theorem underway_poolStep {good : CPU D → Prop} (hg : Computes good) (h : s.pool.Inv good)
    {e : Pool.Event W} (he : Pool.arrivals [e] = []) : (s.poolStep e).underway = s.underway := by
  have hpend := Pool.step_pending hg h e
  rw [he, show asked [] = 0 from rfl, add_zero] at hpend
  unfold underway poolStep
  simp only []
  rw [← hpend, ← Multiset.coe_add]
  ac_rfl

/-- A request reaches the server. -/
theorem underway_arrive {good : CPU D → Prop} (hg : Computes good) (h : s.pool.Inv good) {i : Nat}
    {d : Datagram} (hd : s.requests[i]? = some d) :
    (({ s with requests := s.requests.eraseIdx i } : Net K W D).poolStep (.arrive d)).underway =
      s.underway := by
  have hpend := Pool.step_pending hg h (.arrive d)
  have harr : Pool.arrivals [Pool.Event.arrive (W := W) d] = [d] := rfl
  rw [harr] at hpend
  have hreq := asked_eraseIdx hd
  unfold underway poolStep
  simp only []
  rw [hreq, ← Multiset.coe_add]
  generalize (s.pool.step (.arrive d)).pending = p at hpend ⊢
  generalize (((s.pool.step (.arrive d)).shared.sent.drop s.pool.shared.sent.length : List _) :
    Multiset (Addr × Response)) = n at hpend ⊢
  calc asked (s.requests.eraseIdx i) + p + (↑s.answers + n)
      = asked (s.requests.eraseIdx i) + (p + n) + ↑s.answers := by ac_rfl
    _ = asked (s.requests.eraseIdx i) + (s.pool.pending + asked [d]) + ↑s.answers := by rw [hpend]
    _ = asked [d] + asked (s.requests.eraseIdx i) + s.pool.pending + ↑s.answers := by ac_rfl

end

end Net

/-! ## One event -/

/-- What is known of an event. -/
structure Manner where
  /-- Nothing is duplicated, and neither a timeout nor SIGINT ends a call. -/
  calm : Bool
  /-- Nothing in flight is lost. -/
  lossless : Bool
  /-- A call that starts finds no other answer due. -/
  quiet : Prop

/-- What an event does to a process to which `m` is due. -/
inductive Vm.Step (maxRetries : Int) (e : Manner) (v : Vm) (m : Multiset Response) :
    Vm → Multiset Response → Prop
  | net (socket : List Response) : Step maxRetries e v m { v with socket := socket } m
  | lose {m' : Multiset Response} (h : m' ≤ m) (he : e.lossless = false) : Step maxRetries e v m v m'
  | copy {m' : Multiset Response} (h : ∀ r ∈ m', r ∈ m) (he : e.calm = false) :
      Step maxRetries e v m v m'
  | pass (key : Option Byte) (h : v.phase = .ready)
      (hquiet : e.quiet → ∀ req ∈ v.interp.request?, ∀ r ∈ m, r = boost req) :
      Step maxRetries e v m (v.pass key) m
  | send (req : Request) (attempt : Nat) (h : v.phase = .sending req attempt) :
      Step maxRetries e v m { v with phase := .waiting req attempt } (boost req ::ₘ m)
  | sendFail (req : Request) (attempt : Nat) (h : v.phase = .sending req attempt) :
      Step maxRetries e v m { v with phase := Client.retry maxRetries req attempt } m
  | recv (req : Request) (attempt : Nat) (resp : Response) (rest : List Response)
      (h : v.phase = .waiting req attempt) {m' : Multiset Response} (hm : m = resp ::ₘ m') :
      Step maxRetries e v m { v with phase := .draining req resp, socket := rest } m'
  | recvFail (req : Request) (attempt : Nat) (h : v.phase = .waiting req attempt) (he : e.calm = false) :
      Step maxRetries e v m { v with phase := Client.retry maxRetries req attempt } m
  | drain (req : Request) (resp r : Response) (rest : List Response) (h : v.phase = .draining req resp)
      {m' : Multiset Response} (hm : m = r ::ₘ m') : Step maxRetries e v m { v with socket := rest } m'
  | ret (req : Request) (resp : Response) (h : v.phase = .draining req resp) :
      Step maxRetries e v m (v.ret resp) m
  | sigint (fetched : Bool) (b pc : Int) (h : e.calm = true → v.phase = .ready) :
      Step maxRetries e v m (v.sigint fetched b pc) m

namespace Net

variable {K W : Nat} {D : Type} {addr : Fin K → Addr} {s s' : Net K W D} {maxRetries : Int} {m : Manner}

def calm (s : Net K W D) : Event K W → Bool
  | .recvFail _ | .copyRequest _ | .copyAnswer _ => false
  | .sigint k .. =>
    match (s.vms k).phase with
    | .ready => true
    | _ => false
  | _ => true

def Event.lossless : Event K W → Bool
  | .loseRequest _ | .loseAnswer _ => false
  | _ => true

/-- When the event starts a call, no other answer is due. -/
def Quiet (addr : Fin K → Addr) (s : Net K W D) : Event K W → Prop
  | .pass k _ => (s.vms k).phase = .ready → ∀ req ∈ (s.vms k).interp.request?,
      ∀ r ∈ s.due addr k, r = boost req
  | _ => True

def manner (addr : Fin K → Addr) (s : Net K W D) (e : Event K W) : Manner :=
  ⟨s.calm e, e.lossless, s.Quiet addr e⟩

/-- What happened to each process. -/
def Moved (addr : Fin K → Addr) (maxRetries : Int) (m : Manner) (s s' : Net K W D) : Prop :=
  ∀ j, Vm.Step maxRetries m (s.vms j) (s.due addr j) (s'.vms j) (s'.due addr j)

/-! ## Processes -/

/-- One process moves. -/
theorem Moved.of_setVm {k : Fin K} {v : Vm}
    (h : Vm.Step maxRetries m (s.vms k) (s.due addr k) v (toward addr k s.underway + ↑v.socket)) :
    Moved addr maxRetries m s (s.setVm k v) := by
  intro j
  have hdue : (s.setVm k v).due addr j = toward addr j s.underway + ↑(Function.update s.vms k v j).socket :=
    rfl
  have hvm : (s.setVm k v).vms j = Function.update s.vms k v j := rfl
  rw [hdue, hvm]
  by_cases hj : j = k
  · subst hj
    rw [Function.update_self]
    exact h
  · rw [Function.update_of_ne hj]
    exact .net _

/-- A request is sent, and its answer is due. -/
theorem Moved.send (hinj : Function.Injective addr) {k : Fin K} {req : Request} {attempt : Nat}
    (h : (s.vms k).phase = .sending req attempt) :
    Moved addr maxRetries m s { s.setVm k { s.vms k with phase := .waiting req attempt } with
      requests := s.requests ++ [⟨addr k, req.bytes⟩] } := by
  have hone : asked [⟨addr k, req.bytes⟩] = {(addr k, boost req)} := by
    unfold asked
    rw [List.filter_singleton, Request.bytes_whole, cond_true]
    exact congrArg Singleton.singleton (answer_bytes (addr k) req)
  have hunder : ({ s.setVm k { s.vms k with phase := .waiting req attempt } with
      requests := s.requests ++ [⟨addr k, req.bytes⟩] } : Net K W D).underway =
      (addr k, boost req) ::ₘ s.underway := by
    unfold underway setVm
    simp only []
    rw [asked_append, hone, ← Multiset.singleton_add]
    ac_rfl
  intro j
  unfold due
  rw [hunder, toward_cons]
  by_cases hj : j = k
  · subst hj
    have hvm : (Function.update s.vms j { s.vms j with phase := .waiting req attempt } j) =
      { s.vms j with phase := .waiting req attempt } := Function.update_self ..
    rw [if_pos rfl, Multiset.cons_add]
    simp only [setVm, hvm]
    exact .send req attempt h
  · have hvm : (Function.update s.vms k { s.vms k with phase := .waiting req attempt } j) = s.vms j :=
      Function.update_of_ne hj _ _
    rw [if_neg fun he => hj (hinj he).symm]
    simp only [setVm, hvm]
    exact .net _

/-! ## The network and the server -/

/-- What is due to the processes is carried on, at most into their sockets. -/
structure Carried (addr : Fin K → Addr) (s s' : Net K W D) : Prop where
  due : ∀ k, s'.due addr k = s.due addr k
  vms : ∀ k, ∃ socket, s'.vms k = { s.vms k with socket := socket }

theorem Carried.refl (s : Net K W D) : Carried addr s s := ⟨fun _ => rfl, fun k => ⟨(s.vms k).socket, rfl⟩⟩

theorem Carried.trans {t : Net K W D} (h : Carried addr s s') (h' : Carried addr s' t) : Carried addr s t where
  due k := (h'.due k).trans (h.due k)
  vms k := by
    obtain ⟨socket, hs⟩ := h.vms k
    obtain ⟨socket', ht⟩ := h'.vms k
    refine ⟨socket', ht.trans ?_⟩
    rw [hs]

theorem Carried.moved (h : Carried addr s s') : Moved addr maxRetries m s s' := fun j => by
  obtain ⟨socket, hs⟩ := h.vms j
  rw [h.due j, hs]
  exact .net socket

theorem Carried.of_underway (hvms : s'.vms = s.vms) (h : s'.underway = s.underway) : Carried addr s s' where
  due k := by rw [Net.due, Net.due, h, hvms]
  vms k := by
    rw [hvms]
    exact ⟨(s.vms k).socket, rfl⟩

/-- An answer reaches the socket it is for. -/
theorem Carried.deliver {i : Nat} {x : Addr × Response} (hx : s.answers[i]? = some x) :
    Carried addr s { s with answers := s.answers.eraseIdx i, vms := receive addr s.vms x } where
  due j := by
    have hunder : s.underway = x ::ₘ
        ({ s with answers := s.answers.eraseIdx i, vms := receive addr s.vms x } : Net K W D).underway := by
      unfold underway
      rw [perm_eraseIdx hx]
      exact Multiset.add_cons _ _ _
    unfold Net.due
    rw [hunder, toward_cons]
    simp only [receive]
    generalize toward addr j (underway _) = n
    by_cases hj : addr j = x.1
    · rw [if_pos hj, if_pos hj.symm]
      simp only []
      rw [← Multiset.coe_add, ← Multiset.singleton_add, ← Multiset.coe_singleton]
      ac_rfl
    · rw [if_neg hj, if_neg (Ne.symm hj)]
  vms j := by
    simp only [receive]
    split
    · exact ⟨_, rfl⟩
    · exact ⟨(s.vms j).socket, rfl⟩

theorem Carried.foreign {d : Datagram} (hd : ∀ k, addr k ≠ d.src) :
    Carried addr s { s with requests := s.requests ++ [d] } where
  due j := by
    have hunder : ({ s with requests := s.requests ++ [d] } : Net K W D).underway =
        asked [d] + s.underway := by
      unfold underway
      rw [asked_append]
      ac_rfl
    have hzero : toward addr j (asked [d]) = 0 := by
      unfold asked
      rw [List.filter_singleton]
      cases d.whole with
      | true =>
        have hone : Pool.answers [d] = {Pool.answer d} := rfl
        rw [cond_true, hone]
        unfold toward
        rw [Multiset.filter_singleton, if_neg fun he => hd j he.symm]
        rfl
      | false => rfl
    unfold Net.due
    rw [hunder, toward_add, hzero, zero_add]
  vms j := ⟨(s.vms j).socket, rfl⟩

/-- Part of what is in flight is lost. -/
theorem Moved.of_le (hvms : s'.vms = s.vms) (h : s'.underway ≤ s.underway) (hm : m.lossless = false) :
    Moved addr maxRetries m s s' := by
  intro j
  have hdue : s'.due addr j ≤ s.due addr j := by
    unfold due
    rw [hvms]
    exact add_le_add_left (toward_le j h) _
  rw [hvms]
  exact .lose hdue hm

/-- A duplicate of something in flight. -/
theorem Moved.copy (hvms : s'.vms = s.vms) (h : ∀ x ∈ s'.underway, x ∈ s.underway) (hm : m.calm = false) :
    Moved addr maxRetries m s s' := by
  intro j
  rw [hvms]
  refine .copy (fun r hr => ?_) hm
  unfold due toward at hr ⊢
  rw [hvms] at hr
  rcases Multiset.mem_add.1 hr with hr | hr
  · obtain ⟨x, hx, rfl⟩ := Multiset.mem_map.1 hr
    obtain ⟨hx, haddr⟩ := Multiset.mem_filter.1 hx
    exact Multiset.mem_add.2 (.inl (Multiset.mem_map_of_mem _ (Multiset.mem_filter.2 ⟨h x hx, haddr⟩)))
  · exact Multiset.mem_add.2 (.inr hr)

theorem mem_copy {α : Type} {l : List α} {i : Nat} {x : α} (hx : l[i]? = some x) :
    ∀ y ∈ l ++ [x], y ∈ l := by
  intro y hy
  rcases List.mem_append.1 hy with hy | hy
  · exact hy
  · rw [List.mem_singleton.1 hy]
    exact List.mem_of_getElem? hx

section
variable [NandInterface D] {good : CPU D → Prop}

theorem Carried.poolStep (hg : Computes good) (hpool : s.pool.Inv good) {e : Pool.Event W}
    (he : Pool.arrivals [e] = []) : Carried addr s (s.poolStep e) :=
  .of_underway rfl (underway_poolStep hg hpool he)

theorem Carried.arrive (hg : Computes good) (hpool : s.pool.Inv good) {i : Nat} {d : Datagram}
    (hd : s.requests[i]? = some d) :
    Carried addr s (({ s with requests := s.requests.eraseIdx i } : Net K W D).poolStep (.arrive d)) :=
  .of_underway rfl (underway_arrive hg hpool hd)

/-- **What an event does to the processes**, and the pool stays in order. -/
theorem step_moved (hg : Computes good) (hinj : Function.Injective addr) (hpool : s.pool.Inv good)
    {e : Event K W} (hs : s.step addr maxRetries e = some s') :
    Moved addr maxRetries (s.manner addr e) s s' ∧ s'.pool.Inv good := by
  cases e with
  | pass k key =>
    simp only [step] at hs
    split at hs
    · rename_i hphase
      cases hs
      refine ⟨.of_setVm ?_, hpool⟩
      have hsocket : ((s.vms k).pass key).socket = (s.vms k).socket := by
        unfold Vm.pass
        split <;> rfl
      rw [hsocket]
      exact .pass key hphase fun hquiet => hquiet hphase
    · cases hs
  | send k =>
    simp only [step] at hs
    split at hs
    · rename_i req attempt hphase
      cases hs
      exact ⟨.send hinj hphase, hpool⟩
    · cases hs
  | sendFail k =>
    simp only [step] at hs
    split at hs
    · rename_i req attempt hphase
      cases hs
      exact ⟨.of_setVm (.sendFail req attempt hphase), hpool⟩
    · cases hs
  | recv k =>
    simp only [step] at hs
    split at hs
    · rename_i req attempt resp rest hphase hsocket
      cases hs
      refine ⟨.of_setVm (.recv req attempt resp rest hphase ?_), hpool⟩
      unfold due
      rw [hsocket, ← Multiset.cons_coe, Multiset.add_cons]
    · cases hs
  | recvFail k =>
    simp only [step] at hs
    split at hs
    · rename_i req attempt hphase
      cases hs
      exact ⟨.of_setVm (.recvFail req attempt hphase rfl), hpool⟩
    · cases hs
  | drain k =>
    simp only [step] at hs
    split at hs
    · rename_i req resp a rest hphase hsocket
      cases hs
      refine ⟨.of_setVm (.drain req resp a rest hphase ?_), hpool⟩
      unfold due
      rw [hsocket, ← Multiset.cons_coe, Multiset.add_cons]
    · cases hs
  | ret k =>
    simp only [step] at hs
    split at hs
    · rename_i req resp hphase hsocket
      cases hs
      exact ⟨.of_setVm (.ret req resp hphase), hpool⟩
    · cases hs
  | sigint k fetched b pc =>
    have hphase : s.calm (.sigint k fetched b pc) = true → (s.vms k).phase = .ready := by
      unfold calm
      simp only []
      split
      · rename_i h
        exact fun _ => h
      · intro h
        cases h
    simp only [step] at hs
    split at hs
    · cases hs
    · cases hs
      exact ⟨.of_setVm (.sigint fetched b pc hphase), hpool⟩
  | arrive i =>
    obtain ⟨d, hd, rfl⟩ := Option.map_eq_some_iff.1 hs
    exact ⟨(Carried.arrive hg hpool hd).moved, (Pool.step_inv hg hpool (.arrive d)).1⟩
  | loseRequest i =>
    cases hs
    refine ⟨.of_le rfl ?_ rfl, hpool⟩
    exact add_le_add_left (add_le_add_left (asked_le (List.eraseIdx_sublist _ _)) _) _
  | copyRequest i =>
    obtain ⟨d, hd, rfl⟩ := Option.map_eq_some_iff.1 hs
    refine ⟨.copy rfl (fun x hx => ?_) rfl, hpool⟩
    have hasked : ∀ y ∈ asked (s.requests ++ [d]), y ∈ asked s.requests := by
      intro y hy
      unfold asked Pool.answers at hy ⊢
      rw [Multiset.mem_coe, List.mem_map] at hy ⊢
      obtain ⟨d', hd', rfl⟩ := hy
      rw [List.mem_filter] at hd'
      exact ⟨d', List.mem_filter.2 ⟨mem_copy hd d' hd'.1, hd'.2⟩, rfl⟩
    unfold underway at hx ⊢
    simp only [Multiset.mem_add] at hx ⊢
    exact hx.imp_left (Or.imp_left (hasked x))
  | deliver i =>
    obtain ⟨x, hx, rfl⟩ := Option.map_eq_some_iff.1 hs
    exact ⟨(Carried.deliver hx).moved, hpool⟩
  | loseAnswer i =>
    cases hs
    refine ⟨.of_le rfl ?_ rfl, hpool⟩
    exact add_le_add_right (Multiset.coe_le.2 (List.eraseIdx_sublist _ _).subperm) _
  | copyAnswer i =>
    obtain ⟨x, hx, rfl⟩ := Option.map_eq_some_iff.1 hs
    refine ⟨.copy rfl (fun y hy => ?_) rfl, hpool⟩
    unfold underway at hy ⊢
    simp only [Multiset.mem_add, Multiset.mem_coe] at hy ⊢
    exact hy.imp_right (mem_copy hx y)
  | foreign d =>
    simp only [step] at hs
    split at hs
    · rename_i hd
      cases hs
      exact ⟨(Carried.foreign hd).moved, hpool⟩
    · cases hs
  | toggle =>
    cases hs
    exact ⟨(Carried.poolStep hg hpool rfl).moved, (Pool.step_inv hg hpool .toggle).1⟩
  | work i now stop =>
    cases hs
    exact ⟨(Carried.poolStep hg hpool rfl).moved, (Pool.step_inv hg hpool (.work i now stop)).1⟩

end

end Net

end NandServer
