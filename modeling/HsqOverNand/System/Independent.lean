import HsqOverNand.System.Proof.Served

/-!
# The interpreters do not notice the server

`quiet_alone`: as long as no other answer is due to a process when it makes a call (`Quiet`), every
process is in the state of a machine that reads the same inputs and subtracts itself, over every
interleaving of processes, workers and network. `calm_alone`: without failed receives, duplicates and
SIGINTs during a call no run breaks that condition, whatever gets lost or is overtaken, and whoever else
uses the server.
-/

set_option autoImplicit false

namespace NandServer

open Pool (Addr Datagram Computes)

namespace Net

variable {K W : Nat} {D : Type} {addr : Fin K → Addr} {maxRetries : Int}

section
variable [NandInterface D] {good : CPU D → Prop} {cpus : Fin W → CPU D} {p : Fin W → Nat → Pool.Pending}
  {resp : Fin W → Nat → Response} {isboost : Bool} {vms : Fin K → Interp}

/-- **Each process behaves as a machine that subtracts itself**, as long as no call starts while an answer
to another one is due to the process. -/
theorem quiet_alone (hg : Computes good) (hcpus : ∀ i, good (cpus i)) (hinj : Function.Injective addr)
    {es : List (Event K W)} {s : Net K W D}
    (h : Runs.Along (Quiet addr) (step addr maxRetries) (boot vms cpus p resp isboost) es s) (k : Fin K) :
    (s.vms k).interp = (vms k).alone (s.vms k).inputs := by
  have hright := h.inv (Right addr good vms) (fun _ _ _ hr hq hs => hr.step hg hinj hq hs)
    (boot_right hcpus)
  exact (hright.vms k).alone

/-- **Without failed receives, duplicates and SIGINTs in calls** no call starts while an answer is due, and the
system is `K` independent machines. -/
theorem calm_alone (hg : Computes good) (hcpus : ∀ i, good (cpus i)) (hinj : Function.Injective addr)
    {es : List (Event K W)} {s : Net K W D}
    (h : Runs.Along (fun s e => s.calm e = true) (step addr maxRetries) (boot vms cpus p resp isboost) es s)
    (k : Fin K) : (s.vms k).interp = (vms k).alone (s.vms k).inputs ∧
      (s.due addr k).card ≤ (s.vms k).phase.awaited := by
  obtain ⟨hright, htidy⟩ := calm_kept hg hcpus hinj h
  exact ⟨(hright.vms k).alone, htidy k⟩

end

/-! ## Two calls that return -/

/-- The first instruction subtracts word 3 from word 4. -/
def callers : Fin 2 → Interp := fun _ => .start [3, 4, 0, 1, 2] fun _ => 0

def sockets : Fin 2 → Addr := fun k => ⟨0x0100007f, .ofNat 16 (50000 + k)⟩

theorem sockets_injective : Function.Injective sockets := by
  unfold Function.Injective
  decide

theorem callers_word (k : Fin 2) : ((callers k).alone [.pass none]).code 4 = 1 := by
  unfold callers
  decide

/-- A process sends its request. -/
def call (k : Fin K) : List (Event K W) := [.pass k none, .send k]

section
variable [NandInterface D] (cpus : Fin 2 → CPU D) (p : Fin 2 → Nat → Pool.Pending)
  (resp : Fin 2 → Nat → Response)

theorem calls_along : ∃ s, Runs.Along (fun s e => s.calm e = true ∧ e.lossless = true) (step sockets 3)
    (boot callers cpus p resp false) (call 0 ++ call 1) s ∧
    ∀ k, (s.vms k).phase = .waiting ⟨1, 2⟩ 0 ∧ (s.vms k).inputs = [] := by
  have hpass : ∀ k, (Vm.start (callers k)).pass none =
      { Vm.start (callers k) with phase := .sending ⟨1, 2⟩ 0 } := by
    intro k
    have hreq : (Vm.start (callers k)).interp.request? = some ⟨1, 2⟩ := by
      show (Interp.start [3, 4, 0, 1, 2] fun _ => 0).request? = _
      decide
    unfold Vm.pass
    rw [hreq]
  have hstep : ∀ (s : Net 2 2 D) k, s.vms k = Vm.start (callers k) → step sockets 3 s (.pass k none) =
      some (s.setVm k { Vm.start (callers k) with phase := .sending ⟨1, 2⟩ 0 }) := by
    intro s k h
    have hphase : (s.vms k).phase = .ready := congrArg Vm.phase h
    simp only [step, hphase]
    rw [h, hpass]
  have h0 : Runs.Along (fun s e => s.calm e = true ∧ e.lossless = true) (step sockets 3)
    (boot callers cpus p resp false) ([] ++ [.pass 0 none]) _ := Runs.Along.nil.snoc ⟨rfl, rfl⟩ (hstep _ 0 rfl)
  have h1 := h0.snoc (e := .send 0) ⟨rfl, rfl⟩ rfl
  have h2 := h1.snoc (e := .pass 1 none) ⟨rfl, rfl⟩ (hstep _ 1 rfl)
  have h3 := h2.snoc (e := .send 1) ⟨rfl, rfl⟩ rfl
  exact ⟨_, h3, Fin.forall_fin_two.2 ⟨⟨rfl, rfl⟩, rfl, rfl⟩⟩

/-- Both calls return: the requests arrive, the workers take turns, and the answers come in. -/
theorem returns_along {good : CPU D → Prop} (hg : Computes good) (hcpus : ∀ i, good (cpus i)) : ∃ es s,
    Runs.Along (fun s e => s.calm e = true ∧ e.lossless = true) (step sockets 3)
      (boot callers cpus p resp false) (call 0 ++ call 1 ++ es) s ∧
      ∀ k, (s.vms k).phase = .ready ∧ (s.vms k).inputs = [.pass none] := by
  obtain ⟨s, hs, hwait⟩ := calls_along cpus p resp
  obtain ⟨hright, hexact⟩ := exact_kept hg sockets_injective (boot_right hcpus) boot_exact hs
  obtain ⟨load, hserved⟩ := served sockets 3 hg (by decide) hright hexact
  have hturns : ∀ r ∈ List.replicate load [Pool.Event.work (0 : Fin 2) 0 true, .work 1 0 true], Pool.Turns r := by
    intro r hr
    rw [List.eq_of_mem_replicate hr]
    exact ⟨rfl, Fin.forall_fin_two.2 ⟨⟨0, .head _⟩, 0, .tail _ (.head _)⟩⟩
  obtain ⟨n, t, hrun, hvms⟩ := hserved _ hturns (List.length_replicate ..).ge
  have hcarry := Runs.Along.of_run _ carry_calm hrun
  have hget : ∀ k, (t.vms k).phase = .waiting ⟨1, 2⟩ 0 ∧ (t.vms k).socket = [boost ⟨1, 2⟩] ∧
      (t.vms k).inputs = [] := by
    intro k
    obtain ⟨hphase, hinputs⟩ := hwait k
    rw [hvms k]
    exact ⟨hphase, by rw [hphase]; rfl, hinputs⟩
  obtain ⟨u, h0, hother, hphase0, hinputs0⟩ := ret_along sockets 3 (hget 0).1 (hget 0).2.1
  have hone : u.vms 1 = t.vms 1 := hother 1 (by decide)
  obtain ⟨w, h1, hother', hphase1, hinputs1⟩ := ret_along sockets 3 (s := u) (k := 1)
    (hone ▸ (hget 1).1) (hone ▸ (hget 1).2.1)
  have hzero : w.vms 0 = u.vms 0 := hother' 0 (by decide)
  refine ⟨_, w, hs.trans (hcarry.trans (h0.trans h1)), Fin.forall_fin_two.2 ⟨⟨?_, ?_⟩, hphase1, ?_⟩⟩
  · rw [hzero, hphase0]
  · rw [hzero, hinputs0, (hget 0).2.2]
    rfl
  · rw [hinputs1, hone, (hget 1).2.2]
    rfl

end

/-- A CPU on erased flash. -/
theorem flash_computes : ∃ (good : CPU Flash → Prop) (c : CPU Flash) (g' : Globals), Computes good ∧ good c ∧
    CPU.new ⟨0, 0⟩ (.replicate ROM_SIZE 0) (⟨fun _ => 0xff, 786432⟩ : Flash) = some (c, g') := by
  obtain ⟨rom, g', net, cells, last, l0, l1, hc, hinit⟩ := romInit_spec
  have hs : SizeOk 786432 := ⟨by decide, by decide, by decide⟩
  obtain ⟨c, hnew, hr⟩ := CPU.new_ready ((CPU.flash_flat 786432).boot hs) hs
    (fun _ ho _ => (CPU.flash_flat 786432).erased ho) hc.linked.size hinit ⟨0, 0⟩ (.replicate ROM_SIZE 0)
    (d := ⟨fun _ => 0xff, 786432⟩) rfl
  exact ⟨_, c, g', Pool.between_computes hc, ⟨786432, 0, hs, hr⟩, hnew⟩

/-- Both calls return, and each process has 1 in word 4. -/
theorem quiet_alone_two : ∃ c g',
    CPU.new ⟨0, 0⟩ (.replicate ROM_SIZE 0) (⟨fun _ => 0xff, 786432⟩ : Flash) = some (c, g') ∧
      ∀ (p : Fin 2 → Nat → Pool.Pending) (resp : Fin 2 → Nat → Response), ∃ es s,
        Runs.Along (Quiet sockets) (step sockets 3) (boot callers (fun _ => c) p resp false)
          (call 0 ++ call 1 ++ es) s ∧ ∀ k, (s.vms k).phase = .ready ∧ (s.vms k).inputs = [.pass none] ∧
            (s.vms k).interp = (callers k).alone [.pass none] ∧ (s.vms k).interp.code 4 = 1 := by
  obtain ⟨good, c, g', hg, hc, hnew⟩ := flash_computes
  refine ⟨c, g', hnew, fun p resp => ?_⟩
  obtain ⟨es, s, hs, hret⟩ := returns_along (fun _ => c) p resp hg fun _ => hc
  have hquiet : Runs.Along (Quiet sockets) (step sockets 3) (boot callers (fun _ => c) p resp false)
      (call 0 ++ call 1 ++ es) s := by
    refine hs.imp (fun s => s.Right sockets good callers ∧ s.Tidy sockets) ?_ (fun t e ht _ => ht.2.quiet)
      ⟨boot_right fun _ => hc, boot_tidy⟩
    intro t e u ht hok hu
    exact ⟨ht.1.step hg sockets_injective ht.2.quiet hu, ht.2.step hg sockets_injective ht.1.pool hok.1 hu⟩
  refine ⟨es, s, hquiet, fun k => ?_⟩
  obtain ⟨hphase, hinputs⟩ := hret k
  have halone := quiet_alone hg (fun _ => hc) sockets_injective hquiet k
  rw [hinputs] at halone
  refine ⟨hphase, hinputs, halone, ?_⟩
  rw [halone]
  exact callers_word k

theorem calm_alone_two : ∃ c g',
    CPU.new ⟨0, 0⟩ (.replicate ROM_SIZE 0) (⟨fun _ => 0xff, 786432⟩ : Flash) = some (c, g') ∧
      ∀ (p : Fin 2 → Nat → Pool.Pending) (resp : Fin 2 → Nat → Response), ∃ es s,
        Runs.Along (fun s e => s.calm e = true) (step sockets 3) (boot callers (fun _ => c) p resp false)
          (call 0 ++ call 1 ++ es) s ∧ ∀ k, (s.vms k).phase = .ready ∧
            (s.vms k).interp = (callers k).alone [.pass none] ∧ s.due sockets k = 0 := by
  obtain ⟨good, c, g', hg, hc, hnew⟩ := flash_computes
  refine ⟨c, g', hnew, fun p resp => ?_⟩
  obtain ⟨es, s, hs, hret⟩ := returns_along (fun _ => c) p resp hg fun _ => hc
  have hs := hs.imp (fun _ => True) (fun _ _ _ _ _ _ => trivial) (fun _ _ _ h => h.1) trivial
  refine ⟨es, s, hs, fun k => ?_⟩
  obtain ⟨hphase, hinputs⟩ := hret k
  obtain ⟨halone, hdue⟩ := calm_alone hg (fun _ => hc) sockets_injective hs k
  rw [hinputs] at halone
  rw [hphase] at hdue
  exact ⟨hphase, halone, Multiset.card_eq_zero.1 (Nat.le_zero.1 hdue)⟩

end Net

end NandServer
