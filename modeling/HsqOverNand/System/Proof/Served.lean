import HsqOverNand.System.Proof.Right

/-!
# Carrying on what is due

A calm event in which nothing is lost keeps the number of answers due to a process as its phase says
(`Vm.Exact`). The network and the server only carry them on (`Carried`): once what is in flight has arrived,
the workers have taken their turns and the answers have come in, everything due is in the sockets
(`run_served`), and each process that waits has its answer (`served`).
-/

set_option autoImplicit false

namespace NandServer

open Pool (Addr Datagram Computes)

namespace Vm

variable {v v' : Vm} {m m' : Multiset Response} {maxRetries : Int} {e : Manner}

/-- One answer is due to a process that waits, and none to the others. -/
def Exact (v : Vm) (m : Multiset Response) : Prop := m.card = v.phase.awaited

theorem Exact.of_zero {p : Client.Phase} (h : v.Exact m) (hphase : v.phase = p) (hp : p.awaited = 0)
    (hp' : v'.phase.awaited = 0) : v'.Exact m := by
  unfold Exact at h ⊢
  rw [h, hphase, hp, hp']

theorem awaited_retry (req : Request) (attempt : Nat) :
    (Client.retry maxRetries req attempt).awaited = 0 := by
  unfold Client.retry
  split <;> rfl

theorem awaited_pass (key : Option Byte) (h : v.phase = .ready) : (v.pass key).phase.awaited = 0 := by
  unfold Vm.pass
  split
  · rfl
  · exact congrArg Client.Phase.awaited h

theorem Exact.step (h : v.Exact m) (hs : Vm.Step maxRetries e v m v' m') (hc : e.calm = true)
    (hl : e.lossless = true) : v'.Exact m' := by
  cases hs with
  | net socket => exact h
  | lose hle he =>
    rw [hl] at he
    cases he
  | copy hmem he =>
    rw [hc] at he
    cases he
  | pass key hphase => exact h.of_zero hphase rfl (awaited_pass key hphase)
  | send req attempt hphase =>
    unfold Exact at h
    rw [hphase] at h
    show (boost req ::ₘ m).card = 1
    rw [Multiset.card_cons, h]
    rfl
  | sendFail req attempt hphase => exact h.of_zero hphase rfl (awaited_retry req attempt)
  | recv req attempt resp rest hphase hm =>
    unfold Exact at h
    rw [hphase, hm, Multiset.card_cons] at h
    exact Nat.succ.inj h
  | recvFail req attempt hphase he =>
    rw [hc] at he
    cases he
  | drain req resp r rest hphase hm =>
    unfold Exact at h
    rw [hphase, hm, Multiset.card_cons] at h
    cases h
  | ret req resp hphase => exact h.of_zero hphase rfl rfl
  | sigint fetched b pc hphase => exact h.of_zero (hphase hc) rfl rfl

end Vm

/-- The answers a process waits for. -/
def Client.Phase.reply : Client.Phase → List Response
  | .waiting req _ => [boost req]
  | .ready | .sending _ _ | .draining _ _ | .exited => []

theorem Vm.Exact.reply {s : Interp} {v : Vm} {m : Multiset Response} (h : v.Exact m) (hr : v.Right s m) :
    m = ↑v.phase.reply := by
  unfold Exact at h
  cases hphase : v.phase with
  | waiting req attempt =>
    rw [hphase] at h
    obtain ⟨r, rfl⟩ := Multiset.card_eq_one.1 h
    have hdue := hr.due req (by rw [hphase]; rfl) r (Multiset.mem_singleton_self r)
    rw [hdue]
    rfl
  | ready | sending | draining | exited =>
    rw [hphase] at h
    exact Multiset.card_eq_zero.1 h

namespace Net

variable {K W : Nat} {D : Type} {addr : Fin K → Addr} {maxRetries : Int}

/-! ## Carrying on -/

/-- An event of the pool in which nothing arrives, as one of the net. -/
def ofPool : Pool.Event W → Event K W
  | .toggle | .arrive _ => .toggle
  | .work i now stop => .work i now stop

section
variable [NandInterface D] {good : CPU D → Prop} {s : Net K W D}

variable (addr maxRetries)

/-- Every request in flight arrives. -/
theorem run_arrive (hg : Computes good) : ∀ (n : Nat) {s : Net K W D}, s.requests.length = n →
    s.pool.Inv good → ∃ t, Runs.run (step addr maxRetries) s (List.replicate n (.arrive 0)) = some t ∧
      Carried addr s t ∧ t.requests = [] ∧ t.pool.Inv good
  | 0, s, hlen, hpool => ⟨s, rfl, .refl s, List.length_eq_zero_iff.1 hlen, hpool⟩
  | n + 1, s, hlen, hpool => by
    obtain ⟨vms, pool, requests, answers⟩ := s
    cases requests with
    | nil => cases hlen
    | cons d rest =>
      have hd : (d :: rest)[0]? = some d := rfl
      obtain ⟨t, hrun, hcar, hreq, hinv⟩ := run_arrive hg n
        (s := (⟨vms, pool, rest, answers⟩ : Net K W D).poolStep (.arrive d)) (Nat.succ.inj hlen)
        (Pool.step_inv hg hpool (.arrive d)).1
      refine ⟨t, hrun, ?_, hreq, hinv⟩
      exact (Carried.arrive (s := ⟨vms, pool, d :: rest, answers⟩) hg hpool hd).trans hcar

/-- The workers work. -/
theorem run_pool (hg : Computes good) : ∀ (es : List (Pool.Event W)) {s : Net K W D},
    Pool.arrivals es = [] → s.pool.Inv good →
    ∃ t, Runs.run (step addr maxRetries) s (es.map ofPool) = some t ∧ Carried addr s t ∧
      t.requests = s.requests ∧ t.pool = s.pool.run es
  | [], s, _, _ => ⟨s, rfl, .refl s, rfl, rfl⟩
  | e :: es, s, he, hpool => by
    have hsplit := Pool.arrivals_append [e] es
    rw [show [e] ++ es = e :: es from rfl, he] at hsplit
    obtain ⟨he, hes⟩ := List.append_eq_nil_iff.1 hsplit.symm
    obtain ⟨t, hrun, hcar, hreq, hpool'⟩ := run_pool hg es (s := s.poolStep e) hes
      (Pool.step_inv hg hpool e).1
    have hstep : s.step addr maxRetries (ofPool e) = some (s.poolStep e) := by
      cases e with
      | arrive d => cases he
      | toggle => rfl
      | work i now stop => rfl
    refine ⟨t, ?_, (Carried.poolStep hg hpool he).trans hcar, hreq, hpool'⟩
    rw [List.map_cons, Runs.run, hstep]
    exact hrun

/-- Every answer in flight is delivered. -/
theorem run_deliver : ∀ (n : Nat) {s : Net K W D}, s.answers.length = n →
    ∃ t, Runs.run (step addr maxRetries) s (List.replicate n (.deliver 0)) = some t ∧
      Carried addr s t ∧ t.answers = [] ∧ t.requests = s.requests ∧ t.pool = s.pool
  | 0, s, hlen => ⟨s, rfl, .refl s, List.length_eq_zero_iff.1 hlen, rfl, rfl⟩
  | n + 1, s, hlen => by
    obtain ⟨vms, pool, requests, answers⟩ := s
    cases answers with
    | nil => cases hlen
    | cons x rest =>
      have hx : (x :: rest)[0]? = some x := rfl
      obtain ⟨t, hrun, hcar, hrest⟩ := run_deliver n
        (s := (⟨receive addr vms x, pool, requests, rest⟩ : Net K W D)) (Nat.succ.inj hlen)
      exact ⟨t, hrun, (Carried.deliver (s := ⟨vms, pool, requests, x :: rest⟩) hx).trans hcar, hrest⟩

/-- Everything that is due gets into the sockets. -/
theorem run_served (hg : Computes good) (hW : 0 < W) (hpool : s.pool.Inv good) : ∃ load,
    ∀ rounds : List (List (Pool.Event W)), (∀ r ∈ rounds, Pool.Turns r) → load ≤ rounds.length →
      ∃ n t, Runs.run (step addr maxRetries) s (List.replicate s.requests.length (.arrive 0) ++
        (rounds.flatten.map ofPool ++ List.replicate n (.deliver 0))) = some t ∧
        Carried addr s t ∧ ∀ k, t.due addr k = ↑(t.vms k).socket := by
  obtain ⟨s1, hrun1, hcar1, hreq1, hinv1⟩ := run_arrive addr maxRetries hg _ rfl hpool
  refine ⟨s1.pool.load, fun rounds hturns hload => ?_⟩
  obtain ⟨s2, hrun2, hcar2, hreq2, hpool2⟩ := run_pool addr maxRetries hg
    rounds.flatten (Pool.Turns.arrivals_flatten rounds hturns) hinv1
  obtain ⟨t, hrun3, hcar3, hans3, hreq3, hpool3⟩ := run_deliver addr maxRetries _
    (s := s2) rfl
  refine ⟨s2.answers.length, t, ?_, (hcar1.trans hcar2).trans hcar3, fun k => ?_⟩
  · rw [Runs.run_append, hrun1, Option.bind_some, Runs.run_append, hrun2, Option.bind_some, hrun3]
  · have hrest := Pool.rest_of_turns hg hW rounds hinv1 hturns hload
    rw [← hpool2, ← hpool3] at hrest
    have hpending : t.pool.pending = 0 := by
      unfold Pool.pending
      rw [hrest.queue, Finset.sum_eq_zero fun i _ => Pool.Worker.owed_idle (hrest.idle i)]
      rfl
    have hunder : t.underway = 0 := by
      unfold underway
      rw [hreq3, hreq2, hreq1, hans3, hpending]
      rfl
    unfold due
    rw [hunder]
    exact zero_add _

end

/-! ## After a calm run -/

/-- One answer is due to each process that waits, and none to the others. -/
def Exact (addr : Fin K → Addr) (s : Net K W D) : Prop := ∀ k, (s.vms k).Exact (s.due addr k)

theorem Exact.tidy {s : Net K W D} (h : s.Exact addr) : s.Tidy addr := fun k => Nat.le_of_eq (h k)

theorem boot_exact {vms : Fin K → Interp} {cpus : Fin W → CPU D} {p : Fin W → Nat → Pool.Pending}
    {resp : Fin W → Nat → Response} {isboost : Bool} : (boot vms cpus p resp isboost).Exact addr := fun k => by
  rw [boot_due]
  rfl

section
variable [NandInterface D] {good : CPU D → Prop} {start : Fin K → Interp} {s : Net K W D}

/-- What calm steps keep when nothing is lost. -/
theorem exact_kept (hg : Computes good) (hinj : Function.Injective addr) {es : List (Event K W)}
    {s' : Net K W D} (hright : s.Right addr good start) (hexact : s.Exact addr)
    (h : Runs.Along (fun s e => s.calm e = true ∧ e.lossless = true) (step addr maxRetries) s es s') :
    s'.Right addr good start ∧ s'.Exact addr :=
  h.inv (fun s => s.Right addr good start ∧ s.Exact addr)
    (fun _ _ _ hr hok hs => by
      obtain ⟨hmoved, -⟩ := step_moved hg hinj hr.1.pool hs
      exact ⟨hr.1.step hg hinj hr.2.tidy.quiet hs, fun k => (hr.2 k).step (hmoved k) hok.1 hok.2⟩)
    ⟨hright, hexact⟩

variable (addr maxRetries)

/-- **Each process that waits has its answer**, and nothing else. -/
theorem served (hg : Computes good) (hW : 0 < W) (hright : s.Right addr good start) (hexact : s.Exact addr) :
    ∃ load, ∀ rounds : List (List (Pool.Event W)), (∀ r ∈ rounds, Pool.Turns r) → load ≤ rounds.length →
      ∃ n t, Runs.run (step addr maxRetries) s (List.replicate s.requests.length (.arrive 0) ++
        (rounds.flatten.map ofPool ++ List.replicate n (.deliver 0))) = some t ∧
        ∀ k, t.vms k = { s.vms k with socket := (s.vms k).phase.reply } := by
  obtain ⟨load, hserved⟩ := run_served addr maxRetries hg hW hright.pool
  refine ⟨load, fun rounds hturns hload => ?_⟩
  obtain ⟨n, t, hrun, hcar, hsockets⟩ := hserved rounds hturns hload
  refine ⟨n, t, hrun, fun k => ?_⟩
  obtain ⟨socket, hvm⟩ := hcar.vms k
  have hsocket : (socket : Multiset Response) = ↑(s.vms k).phase.reply := by
    rw [← (hexact k).reply (hright.vms k), ← hcar.due k, hsockets k, hvm]
  rw [hvm]
  refine congrArg (fun l => ({ s.vms k with socket := l } : Vm)) ?_
  cases hphase : (s.vms k).phase with
  | waiting req attempt =>
    rw [hphase] at hsocket
    exact Multiset.coe_eq_singleton.1 hsocket
  | ready | sending | draining | exited =>
    rw [hphase] at hsocket
    exact (Multiset.coe_eq_zero socket).1 hsocket

omit [NandInterface D] in
/-- The events of the network and the server lose nothing. -/
theorem carry_calm {m n : Nat} {es : List (Pool.Event W)} : ∀ e ∈ List.replicate m (.arrive 0) ++
    (es.map ofPool ++ List.replicate n (.deliver 0)), ∀ s : Net K W D, s.calm e = true ∧ e.lossless = true := by
  intro e he s
  rcases List.mem_append.1 he with he | he
  · rw [List.eq_of_mem_replicate he]
    exact ⟨rfl, rfl⟩
  rcases List.mem_append.1 he with he | he
  · obtain ⟨f, -, rfl⟩ := List.mem_map.1 he
    cases f <;> exact ⟨rfl, rfl⟩
  · rw [List.eq_of_mem_replicate he]
    exact ⟨rfl, rfl⟩

/-- A process that has its answer takes it, and the call returns. -/
theorem ret_along {k : Fin K} {req : Request} {attempt : Nat} {resp : Response}
    (hphase : (s.vms k).phase = .waiting req attempt) (hsocket : (s.vms k).socket = [resp]) :
    ∃ u, Runs.Along (fun s e => s.calm e = true ∧ e.lossless = true) (step addr maxRetries) s
        [.recv k, .ret k] u ∧ (∀ j, j ≠ k → u.vms j = s.vms j) ∧ (u.vms k).phase = .ready ∧
      (u.vms k).inputs = (s.vms k).inputs ++ [.pass none] := by
  let v : Vm := { s.vms k with phase := .draining req resp, socket := [] }
  have hrecv : step addr maxRetries s (.recv k) = some (s.setVm k v) := by
    simp only [step, hphase, hsocket, v]
  have hret : step addr maxRetries (s.setVm k v) (.ret k) = some (s.setVm k (v.ret resp)) := by
    simp only [step, setVm, Function.update_self, Function.update_idem, v]
  have hone : Runs.Along (fun s e => s.calm e = true ∧ e.lossless = true) (step addr maxRetries) s
    ([] ++ [.recv k]) _ := Runs.Along.nil.snoc ⟨rfl, rfl⟩ hrecv
  have hvm : (s.setVm k (v.ret resp)).vms k = v.ret resp := Function.update_self ..
  refine ⟨_, hone.snoc ⟨rfl, rfl⟩ hret, fun j hj => Function.update_of_ne hj _ _, ?_, ?_⟩
  · rw [hvm]
    rfl
  · rw [hvm]
    rfl

end

end Net

end NandServer
