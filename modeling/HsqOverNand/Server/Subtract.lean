import HsqOverNand.Server.Proof.Flat

/-!
# The flash subtractor

`Host`: the CPUs of a process in the order of their construction, each on its own device. An `Event`
constructs one more or runs a round of one of them. `rounds_subtract`: after any events every CPU's
next round takes `getRomSize()` instructions and leaves `b - a`, as Boost mode computes it.
-/

set_option autoImplicit false

namespace NandServer

open CPU

structure Host where
  /-- What the ROM generator left in its globals. -/
  globals : Globals
  cpus : List (CPU Flash)

inductive Event
  | construct (dev : Flash) (size : SizeOk dev.size) (garbage : Vector Byte ROM_SIZE)
  | round (i : Nat) (inA inB : Vector (BitVec 64) LANES)

namespace Host

/-- `none`: the constructor exits. -/
def step (h : Host) : Event → Option Host
  | .construct dev _ garbage => do
    let (c, g) ← CPU.new h.globals garbage dev
    some ⟨g, h.cpus ++ [c]⟩
  | .round i inA inB => some { h with cpus := h.cpus.modify i fun c => (c.setIn inA inB).round }

def run (h : Host) : List Event → Option Host
  | [] => some h
  | e :: es => do (← h.step e).run es

end Host

/-- CPUs constructed by the events. -/
def built : List Event → Nat
  | [] => 0
  | .construct .. :: es => built es + 1
  | .round .. :: es => built es

namespace CPU

/-- A CPU between two rounds, on fault-free flash. -/
def Between (rom : List RomT) (c : CPU Flash) : Prop :=
  ∃ size k, SizeOk size ∧ Ready Flash.mem (WithRom Flash.mem (·.size = size) rom) rom size k c

section
variable {rom : List RomT} {net : Netlist} {cells : List Cell} {last : Int} {l0 l1 : Lane}
  (hc : RoundCode rom net cells last l0 l1)
include hc

theorem Between.round {c : CPU Flash} (h : Between rom c) (inA inB : Vector (BitVec 64) LANES)
    {fuel : Nat} (hfuel : c.romSize ≤ fuel) :
    ∃ c', runUntilSignal fuel (c.setIn inA inB) = (c.romSize, c') ∧ Between rom c' ∧
      Subtracts inA inB c' := by
  obtain ⟨size, k, hs, hr⟩ := h
  rw [hr.romSize] at hfuel ⊢
  obtain ⟨c', hrun, hr', hres⟩ := round_ready hc hs ((flash_flat size).calc hs) (hr.setIn inA inB) hfuel
  exact ⟨c', hrun, ⟨size, _, hs, hr'⟩, hres⟩

end

end CPU

namespace Host

/-- Every CPU is between two rounds. -/
def Ok (rom : List RomT) (h : Host) : Prop := ∀ c ∈ h.cpus, Between rom c

section
variable {rom : List RomT} {net : Netlist} {cells : List Cell} {last : Int} {l0 l1 : Lane}
  (hc : RoundCode rom net cells last l0 l1)
include hc

theorem step_ok {g' : Globals} (hinit : ∀ g, romInit g = some (rom, g')) {h : Host} (ho : h.Ok rom)
    (e : Event) : ∃ h', h.step e = some h' ∧ h'.Ok rom ∧
      h'.cpus.length = h.cpus.length + built [e] := by
  cases e with
  | construct dev hs garbage =>
    obtain ⟨c, hnew, hr⟩ := new_ready ((flash_flat dev.size).boot hs) hs
      (fun _ ho _ => (flash_flat dev.size).erased ho) hc.linked.size hinit h.globals garbage (d := dev) rfl
    refine ⟨⟨g', h.cpus ++ [c]⟩, ?_, fun x hx => ?_, List.length_append⟩
    · simp only [step, hnew, Option.bind_eq_bind, Option.bind_some]
    · cases List.mem_append.1 hx with
      | inl hx => exact ho x hx
      | inr hx =>
        rw [List.mem_singleton.1 hx]
        exact ⟨dev.size, 0, hs, hr⟩
  | round i inA inB =>
    refine ⟨_, rfl, fun x hx => ?_, List.length_modify ..⟩
    obtain ⟨j, hj, rfl⟩ := List.getElem_of_mem hx
    have hj' : j < h.cpus.length := by simpa only [List.length_modify] using hj
    have hbet := ho _ (List.getElem_mem hj')
    rw [List.getElem_modify]
    split
    · obtain ⟨c', hrun, hb, _⟩ := hbet.round hc inA inB (Nat.le_refl _)
      rw [CPU.round, show (h.cpus[j].setIn inA inB).romSize = h.cpus[j].romSize from rfl, hrun]
      exact hb
    · exact hbet

theorem run_ok {g' : Globals} (hinit : ∀ g, romInit g = some (rom, g')) : ∀ (es : List Event) {h : Host},
    h.Ok rom → ∃ h', h.run es = some h' ∧ h'.Ok rom ∧ h'.cpus.length = h.cpus.length + built es
  | [], h, ho => ⟨h, rfl, ho, rfl⟩
  | e :: es, h, ho => by
    obtain ⟨h1, hstep, ho1, hl1⟩ := step_ok hc hinit ho e
    obtain ⟨h2, hrun, ho2, hl2⟩ := run_ok hinit es ho1
    refine ⟨h2, ?_, ho2, ?_⟩
    · simp only [run, hstep, Option.bind_eq_bind, Option.bind_some, hrun]
    · rw [hl2, hl1]
      cases e <;> simp only [built] <;> omega

end

end Host

/-- **Whatever was constructed and computed before, a round subtracts.** -/
theorem rounds_subtract (g : Globals) (es : List Event) :
    ∃ h, Host.run ⟨g, []⟩ es = some h ∧ h.cpus.length = built es ∧
      ∀ c ∈ h.cpus, ∀ (inA inB : Vector (BitVec 64) LANES) (fuel : Nat), c.romSize ≤ fuel →
        ∃ c', runUntilSignal fuel (c.setIn inA inB) = (c.romSize, c') ∧ Subtracts inA inB c' := by
  obtain ⟨rom, g', net, cells, last, l0, l1, hc, hinit⟩ := romInit_spec
  obtain ⟨h, hrun, hok, hlen⟩ := Host.run_ok hc hinit es (h := ⟨g, []⟩) fun c hm => by cases hm
  refine ⟨h, hrun, hlen.trans (Nat.zero_add _), fun c hm inA inB fuel hfuel => ?_⟩
  obtain ⟨c', hr, _, hsub⟩ := (hok c hm).round hc inA inB hfuel
  exact ⟨c', hr, hsub⟩

end NandServer
