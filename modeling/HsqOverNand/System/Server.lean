import HsqOverNand.Server.Startup
import HsqOverNand.System.Independent

/-!
# From the start of the server on

`Machine.serves`: on a host whose devices are in order the server starts on the devices it prefers, and
the interpreters that use it run as if each one subtracted by itself.
-/

set_option autoImplicit false

namespace NandServer

open Pool (Addr)

namespace Machine

variable {F : Type} [MtdFile F]

/-- Every run of the server that the host starts, with any processes that use it. -/
def Serves (cpus : List (CPU (Backend F))) : Prop :=
  ∀ {K : Nat} (vms : Fin K → Interp) (addr : Fin K → Addr) (_ : Function.Injective addr) (maxRetries : Int)
    (p : Fin cpus.length → Nat → Pool.Pending) (resp : Fin cpus.length → Nat → Response) (isboost : Bool)
    (es : List (Net.Event K cpus.length)) (s : Net K cpus.length (Backend F)),
    Runs.Along (fun s e => s.calm e = true) (Net.step addr maxRetries)
      (.boot vms cpus.get p resp isboost) es s →
    ∀ k, (s.vms k).interp = (vms k).alone (s.vms k).inputs

/-- **The server starts on the devices it prefers, one CPU on each, and computes for all its clients**,
whatever the devices held. -/
theorem serves {env : Environment} {mem : F → AndMemory.Mem 8} {pos : F → Nat} {m : Machine F}
    (h : m.InOrder env mem pos) (garbage : Nat → Vector Byte ROM_SIZE) (g : Globals) :
    ∃ cpus, threadFunc env garbage m g = some cpus ∧
      List.Forall₂ (m.StartsOn garbage) (m.devices env) cpus ∧ Serves cpus := by
  obtain ⟨rom, g', net, cells, last, l0, l1, hc, hinit⟩ := romInit_spec
  obtain ⟨cpus, hstart, hon, hsteady⟩ := threadFunc_steady env garbage hc hinit h g
  refine ⟨cpus, hstart, hon, ?_⟩
  intro K vms addr hinj maxRetries p resp isboost es s hrun k
  obtain ⟨hright, -⟩ := Net.calm_kept (CPU.steady_computes hc)
    (fun i => hsteady _ (List.get_mem cpus i)) hinj hrun
  exact (hright.vms k).alone

/-! ## A host with devices of every kind -/

/-- A W25N02KV after power-on: protected, with its ECC on. -/
def powerOn : RegChip := ⟨⟨fun _ _ => 0x5a, fun _ => 0, false, false⟩, [0xef, 0xaa, 0x22], 0x7c, 0x19, false⟩

/-- Two chips on spidev, two on the HAT and a simulated NAND. -/
def sampleHost : Machine NandSim where
  board := ⟨fun path => if path = "/dev/spidev0.0".toList ∨ path = "/dev/spidev1.0".toList then some powerOn
    else none, []⟩
  hat := ⟨Bus.start (fun _ => false) (fun _ => false) (fun _ => true) false, fun _ => some powerOn,
    fun _ => ⟨true, true, true, true, true, true, false, false⟩, true, 0xff, 0⟩
  mtd dev := if dev = "/dev/mtd0".toList then some ⟨some ⟨fun _ => 0, 0⟩, some ⟨NandSim.SIZE, 131072⟩⟩
    else none

theorem powerOn_good : powerOn.Good := by decide

theorem sampleHost_canOpen (p : Pins) : sampleHost.hat.CanOpen p := by
  have hw : (sampleHost.hat.env p).Works := by
    show OpenEnv.Works ⟨true, true, true, true, true, true, false, false⟩
    decide
  exact ⟨hw, powerOn, rfl, powerOn_good, rfl⟩

theorem sampleHost_fresh : sampleHost.hat.Fresh := ⟨_, _, _, _, rfl⟩

theorem sampleHost_probe : sampleHost.hat.probe.1 = true := by
  obtain ⟨hw, -⟩ := sampleHost_canOpen Pins.U2
  have hprobe := (HatBoard.probe_opened sampleHost_fresh.opened rfl hw (c := powerOn) rfl).1
  rw [hprobe, RegChip.jedecOk_eq]
  exact decide_eq_true powerOn_good.1

theorem sampleHost_inOrder (env : Environment) (honce : (env.spiPaths.filter (answers sampleHost.board)).Nodup) :
    sampleHost.InOrder env NandSim.mem NandSim.pos where
  spi path _ d hd _ := by
    have hd : (if path = "/dev/spidev0.0".toList ∨ path = "/dev/spidev1.0".toList then some powerOn
        else none) = some d := hd
    split at hd
    · cases hd
      exact ⟨powerOn_good, rfl⟩
    · cases hd
  once := honce
  hat _ := ⟨sampleHost_fresh, sampleHost_canOpen _, sampleHost_canOpen _⟩
  mtd i node hnode := by
    have hnode : (if mtdName i = "/dev/mtd0".toList then
        some (⟨some ⟨fun _ => 0, 0⟩, some ⟨NandSim.SIZE, 131072⟩⟩ : MtdNode NandSim) else none) = some node :=
      hnode
    split at hnode
    · cases hnode
      exact ⟨_, rfl, .mtd NandSim.faultFree ⟨by decide, by decide, by decide⟩ (Nat.dvd_refl _) (Nat.dvd_refl _)
        (MTDFlashDevice.Ok.some _ _ _)⟩
    · cases hnode

/-- One of the three paths does not answer; without `NAND_SPI_DEVS` the HAT is found, and with `NAND_DEV=mtd`
the simulated NAND is taken. -/
theorem serves_sampleHost :
    (∃ cpus, threadFunc ⟨none, some "/dev/spidev0.0,,/dev/spidev0.1,/dev/spidev1.0".toList, 20000000⟩
      (fun _ => .replicate ROM_SIZE 0) sampleHost ⟨0, 0⟩ = some cpus ∧
      List.Forall₂ (sampleHost.StartsOn fun _ => .replicate ROM_SIZE 0)
        ["spi:/dev/spidev0.0".toList, "spi:/dev/spidev1.0".toList] cpus ∧ Serves cpus) ∧
    (∃ cpus, threadFunc ⟨none, none, 20000000⟩ (fun _ => .replicate ROM_SIZE 0) sampleHost ⟨0, 0⟩ = some cpus ∧
      List.Forall₂ (sampleHost.StartsOn fun _ => .replicate ROM_SIZE 0)
        ["hat:u2".toList, "hat:u3".toList] cpus ∧ Serves cpus) ∧
    ∃ cpus, threadFunc ⟨some "mtd".toList, none, 20000000⟩ (fun _ => .replicate ROM_SIZE 0) sampleHost ⟨0, 0⟩ =
        some cpus ∧
      List.Forall₂ (sampleHost.StartsOn fun _ => .replicate ROM_SIZE 0) ["/dev/mtd0".toList] cpus ∧
        Serves cpus := by
  have hhats : sampleHost.devices ⟨none, none, 20000000⟩ = hats := by
    have hspi : spiNames sampleHost.board (Environment.spiPaths ⟨none, none, 20000000⟩) = [] := rfl
    rw [devices, hspi, sampleHost_probe]
    rfl
  have hmtd : sampleHost.devices ⟨some "mtd".toList, none, 20000000⟩ = ["/dev/mtd0".toList] := by decide
  refine ⟨?_, ?_, ?_⟩
  · exact serves (sampleHost_inOrder _ (by decide)) _ _
  · have h := serves (sampleHost_inOrder ⟨none, none, 20000000⟩ .nil)
      (fun _ => .replicate ROM_SIZE 0) ⟨0, 0⟩
    rw [hhats] at h
    exact h
  · have h := serves (sampleHost_inOrder ⟨some "mtd".toList, none, 20000000⟩ .nil)
      (fun _ => .replicate ROM_SIZE 0) ⟨0, 0⟩
    rw [hmtd] at h
    exact h

end Machine

end NandServer
