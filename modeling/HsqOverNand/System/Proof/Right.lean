import HsqOverNand.Server.Backend
import HsqOverNand.System.Proof.Due

/-!
# A process that gets the answers to its own calls

`Vm.Right`: the process is in the state of a machine that reads the same inputs and subtracts itself, and
what is due to an open call is the call's answer. `Vm.Step` keeps it as long as no other answer is due to a
process when it makes a call (`Right.step`). Calm events keep what is due to a process to the answer of its
open call (`Tidy.step`), so no call of a calm run finds another answer due (`calm_kept`).
-/

set_option autoImplicit false

namespace NandServer

open Pool (Addr Datagram Computes)

/-! ## A pass with a call -/

namespace Interp

section
variable {s : Interp} {req : Request}

theorem request?_eq (h : s.request? = some req) : s.Running ∧ (0 ≤ s.a ∧ s.a < MAX_CODE_SIZE) ∧
    (0 ≤ s.b ∧ s.b < MAX_CODE_SIZE) ∧ req = ⟨s.code s.a, s.code s.b⟩ := by
  unfold request? at h
  split at h
  · rename_i hc
    cases h
    exact ⟨hc.1, hc.2.1, hc.2.2, rfl⟩
  · cases h

/-- A pass that subtracts reads no key, and of the server only the answer. -/
theorem step_of_request (h : s.request? = some req) (key : Option Byte) (f : Request → Response) :
    (s.step (.iterate key f)).1 = s.subtract f := by
  obtain ⟨hrun, ha, hb, -⟩ := request?_eq h
  have hexec : s.execute key f = (s.subtract f, [s.a, s.b]) := by
    unfold execute
    rw [if_neg (by omega), if_neg (by omega), if_neg (by omega), if_neg (by omega), if_neg (by omega)]
  have hstep : s.step (.iterate key f) = ((s.execute key f).1, s.fetch ++ (s.execute key f).2) :=
    if_pos hrun
  rw [hstep, hexec]

theorem subtract_congr (h : s.request? = some req) {f f' : Request → Response} (hf : f req = f' req) :
    s.subtract f = s.subtract f' := by
  obtain ⟨-, -, -, rfl⟩ := request?_eq h
  unfold subtract
  rw [hf]

theorem alone_append (inputs : List Input) (i : Input) :
    s.alone (inputs ++ [i]) = ((s.alone inputs).step (i.event boost)).1 := by
  unfold alone run
  rw [List.map_append, List.foldl_append]
  rfl

end

end Interp

/-! ## One process -/

/-- The request of the call a process is in. -/
def Client.Phase.call? : Client.Phase → Option Request
  | .sending req _ | .waiting req _ | .draining req _ => some req
  | .ready | .exited => none

/-- The process is where the machine alone is, and all answers due to a call are the call's. -/
structure Vm.Right (s : Interp) (v : Vm) (m : Multiset Response) : Prop where
  alone : v.interp = s.alone v.inputs
  call : ∀ req ∈ v.phase.call?, v.interp.request? = some req
  due : ∀ req ∈ v.phase.open?, ∀ r ∈ m, r = boost req
  accepted : ∀ req resp, v.phase = .draining req resp → resp = boost req

namespace Vm

variable {s : Interp} {v v' : Vm} {m m' : Multiset Response} {maxRetries : Int}

theorem call?_of_open {p : Client.Phase} {req : Request} (h : p.open? = some req) : p.call? = some req := by
  cases p with
  | sending r a | waiting r a => exact h
  | ready | draining | exited => cases h

/-- Outside a call any answers may be due. -/
theorem Right.of_idle (halone : v.interp = s.alone v.inputs) (h : v.phase.call? = none) : v.Right s m where
  alone := halone
  call req hreq := by
    rw [h] at hreq
    cases hreq
  due req hreq := by
    rw [call?_of_open hreq] at h
    cases h
  accepted req resp hphase := by
    rw [hphase] at h
    cases h

/-- A failed attempt keeps the call, or ends the process. -/
theorem Right.retry {req : Request} {attempt : Nat} (h : v.Right s m) (hopen : v.phase.open? = some req) :
    Vm.Right s { v with phase := Client.retry maxRetries req attempt } m := by
  unfold Client.retry
  split
  · refine ⟨h.alone, fun r hr => ?_, fun r hr => ?_, fun _ _ he => (nomatch he)⟩
    · cases hr
      exact h.call req (call?_of_open hopen)
    · cases hr
      exact h.due req hopen
  · exact .of_idle h.alone rfl

theorem Right.step {e : Manner} (h : v.Right s m) (hs : Vm.Step maxRetries e v m v' m') (hq : e.quiet) :
    v'.Right s m' := by
  cases hs with
  | net socket => exact ⟨h.alone, h.call, h.due, h.accepted⟩
  | lose hle =>
    exact ⟨h.alone, h.call, fun req hreq r hr => h.due req hreq r (Multiset.mem_of_le hle hr), h.accepted⟩
  | copy hmem => exact ⟨h.alone, h.call, fun req hreq r hr => h.due req hreq r (hmem r hr), h.accepted⟩
  | pass key hphase hquiet =>
    unfold Vm.pass
    split
    · -- the call begins
      rename_i req hreq
      refine ⟨h.alone, fun r hr => ?_, fun r hr => ?_, fun _ _ he => (nomatch he)⟩
      · cases hr
        exact hreq
      · cases hr
        exact hquiet hq req hreq
    · refine .of_idle ?_ (congrArg Client.Phase.call? hphase)
      rw [Interp.alone_append, ← h.alone]
      rfl
  | send req attempt hphase =>
    have hopen : v.phase.open? = some req := by rw [hphase]; rfl
    refine ⟨h.alone, fun r hr => ?_, fun r hr x hx => ?_, fun _ _ he => (nomatch he)⟩
    · cases hr
      exact h.call req (call?_of_open hopen)
    · cases hr
      rcases Multiset.mem_cons.1 hx with rfl | hx
      · rfl
      · exact h.due req hopen x hx
  | sendFail req attempt hphase => exact h.retry (by rw [hphase]; rfl)
  | recv req attempt resp rest hphase hm =>
    have hopen : v.phase.open? = some req := by rw [hphase]; rfl
    refine ⟨h.alone, fun r hr => ?_, fun _ hr => (nomatch hr), fun r x he => ?_⟩
    · cases hr
      exact h.call req (call?_of_open hopen)
    · cases he
      exact h.due req hopen resp (by rw [hm]; exact Multiset.mem_cons_self _ _)
  | recvFail req attempt hphase => exact h.retry (by rw [hphase]; rfl)
  | drain req resp r rest hphase =>
    refine ⟨h.alone, h.call, fun r hr => ?_, h.accepted⟩
    have hr : r ∈ v.phase.open? := hr
    rw [hphase] at hr
    cases hr
  | ret req resp hphase =>
    -- the answer is the call's, so the machine alone does the same pass
    have hreq := h.call req (by rw [hphase]; rfl)
    refine .of_idle ?_ rfl
    show (v.interp.step (.iterate none fun _ => resp)).1 = s.alone (v.inputs ++ [.pass none])
    rw [Interp.alone_append, ← h.alone]
    refine (Interp.step_of_request hreq none _).trans (Eq.trans ?_ (Interp.step_of_request hreq none _).symm)
    exact Interp.subtract_congr hreq (h.accepted req resp hphase)
  | sigint fetched b pc =>
    refine .of_idle ?_ rfl
    show (v.interp.step (.sigint fetched b pc)).1 = s.alone (v.inputs ++ [.sigint fetched b pc])
    rw [Interp.alone_append, ← h.alone]
    rfl

end Vm

/-- Answers that may be due after calm events. -/
def Client.Phase.awaited : Client.Phase → Nat
  | .waiting _ _ => 1
  | .ready | .sending _ _ | .draining _ _ | .exited => 0

namespace Vm

variable {v v' : Vm} {m m' : Multiset Response} {maxRetries : Int}

/-- Nothing but the answer to the open call is due. -/
def Tidy (v : Vm) (m : Multiset Response) : Prop := m.card ≤ v.phase.awaited

theorem Tidy.of_zero {p : Client.Phase} (h : v.Tidy m) (hphase : v.phase = p) (hp : p.awaited = 0) (v' : Vm) :
    v'.Tidy m := by
  unfold Tidy at h ⊢
  rw [hphase, hp] at h
  exact h.trans (Nat.zero_le _)

theorem Tidy.step {e : Manner} (h : v.Tidy m) (hs : Vm.Step maxRetries e v m v' m') (hc : e.calm = true) :
    v'.Tidy m' := by
  cases hs with
  | net socket => exact h
  | lose hle => exact (Multiset.card_le_card hle).trans h
  | copy hmem hcalm =>
    rw [hc] at hcalm
    cases hcalm
  | pass key hphase hquiet => exact h.of_zero hphase rfl _
  | send req attempt hphase =>
    unfold Tidy at h
    rw [hphase] at h
    show (boost req ::ₘ m).card ≤ 1
    rw [Multiset.card_cons]
    exact Nat.succ_le_succ h
  | sendFail req attempt hphase => exact h.of_zero hphase rfl _
  | recv req attempt resp rest hphase hm =>
    unfold Tidy at h
    rw [hphase, hm, Multiset.card_cons] at h
    exact Nat.le_of_succ_le_succ h
  | recvFail req attempt hphase hcalm =>
    rw [hc] at hcalm
    cases hcalm
  | drain req resp r rest hphase hm =>
    unfold Tidy at h ⊢
    rw [hm, Multiset.card_cons] at h
    exact (Nat.le_succ _).trans h
  | ret req resp hphase => exact h.of_zero hphase rfl _
  | sigint fetched b pc hphase => exact h.of_zero (hphase hc) rfl _

/-- No answer is due between two calls. -/
theorem Tidy.quiet (h : v.Tidy m) (hphase : v.phase = .ready) (P : Response → Prop) : ∀ r ∈ m, P r := by
  unfold Tidy at h
  rw [hphase] at h
  rw [Multiset.card_eq_zero.1 (Nat.le_zero.1 h)]
  exact fun r hr => absurd hr (Multiset.notMem_zero r)

end Vm

/-! ## The net -/

namespace Net

variable {K W : Nat} {D : Type} {addr : Fin K → Addr} {maxRetries : Int}

/-- Every process is where its machine alone is. -/
structure Right (addr : Fin K → Addr) (good : CPU D → Prop) (start : Fin K → Interp) (s : Net K W D) :
    Prop where
  vms : ∀ k, (s.vms k).Right (start k) (s.due addr k)
  pool : s.pool.Inv good

/-- Nothing but the answers to open calls is due to the processes. -/
def Tidy (addr : Fin K → Addr) (s : Net K W D) : Prop := ∀ k, (s.vms k).Tidy (s.due addr k)

section
variable [NandInterface D] {good : CPU D → Prop} {start : Fin K → Interp} {s s' : Net K W D}
  {e : Event K W}

theorem Right.step (hg : Computes good) (hinj : Function.Injective addr) (h : s.Right addr good start)
    (hquiet : s.Quiet addr e) (hs : s.step addr maxRetries e = some s') : s'.Right addr good start := by
  obtain ⟨hmoved, hpool⟩ := step_moved hg hinj h.pool hs
  exact ⟨fun k => (h.vms k).step (hmoved k) hquiet, hpool⟩

theorem Tidy.step (hg : Computes good) (hinj : Function.Injective addr) (hpool : s.pool.Inv good)
    (h : s.Tidy addr) (hcalm : s.calm e = true) (hs : s.step addr maxRetries e = some s') :
    s'.Tidy addr := by
  obtain ⟨hmoved, -⟩ := step_moved hg hinj hpool hs
  exact fun k => (h k).step (hmoved k) hcalm

omit [NandInterface D] in
theorem Tidy.quiet (h : s.Tidy addr) : s.Quiet addr e := by
  cases e with
  | pass k key => exact fun hphase req _ => (h k).quiet hphase _
  | _ => trivial

end

/-! ## Runs -/

/-- The server as it starts, with `W` CPUs. -/
def boot (vms : Fin K → Interp) (cpus : Fin W → CPU D) (p : Fin W → Nat → Pool.Pending)
    (resp : Fin W → Nat → Response) (isboost : Bool) : Net K W D :=
  .start vms (.start cpus p resp isboost)

section
variable {good : CPU D → Prop} {cpus : Fin W → CPU D} {p : Fin W → Nat → Pool.Pending}
  {resp : Fin W → Nat → Response} {isboost : Bool} {vms : Fin K → Interp}

/-- At first nothing is due. -/
theorem boot_due (k : Fin K) : (boot vms cpus p resp isboost).due addr k = 0 := by
  have howed : ∑ i, ((boot vms cpus p resp isboost).pool.workers i).owed = 0 :=
    Finset.sum_eq_zero fun i _ => Pool.Worker.owed_idle rfl
  have hunder : (boot vms cpus p resp isboost).underway = 0 := by
    unfold underway Pool.pending
    rw [howed]
    rfl
  unfold due
  rw [hunder]
  rfl

theorem boot_right (hcpus : ∀ i, good (cpus i)) : (boot vms cpus p resp isboost).Right addr good vms where
  vms _ := .of_idle rfl rfl
  pool := Pool.start_inv hcpus p resp isboost

theorem boot_tidy : (boot vms cpus p resp isboost).Tidy addr := fun k => by
  unfold Vm.Tidy
  rw [boot_due]
  exact Nat.zero_le _

variable [NandInterface D]

/-- What calm steps keep. -/
theorem calm_kept (hg : Computes good) (hcpus : ∀ i, good (cpus i)) (hinj : Function.Injective addr)
    {es : List (Event K W)} {s : Net K W D}
    (h : Runs.Along (fun s e => s.calm e = true) (step addr maxRetries) (boot vms cpus p resp isboost) es s) :
    s.Right addr good vms ∧ s.Tidy addr :=
  h.inv (fun s => s.Right addr good vms ∧ s.Tidy addr)
    (fun _ _ _ hr hcalm hs => ⟨hr.1.step hg hinj hr.2.quiet hs, hr.2.step hg hinj hr.1.pool hcalm hs⟩)
    ⟨boot_right hcpus, boot_tidy⟩

end

end Net

end NandServer
