import HsqOverNand.System.Independent

/-!
# Every call can be completed by the network and the server

`calm_served`: after any calm run in which nothing was lost, let what is in flight arrive, let every
worker take its turns, whatever their order, and let the answers come in: then every process that waits
has the answer to its request in its socket, and the others have nothing there.
-/

set_option autoImplicit false

namespace NandServer

open Pool (Addr Datagram Computes)

namespace Net

variable {K W : Nat} {D : Type} {addr : Fin K → Addr} {maxRetries : Int}

section
variable [NandInterface D] {good : CPU D → Prop} {cpus : Fin W → CPU D} {p : Fin W → Nat → Pool.Pending}
  {resp : Fin W → Nat → Response} {isboost : Bool} {vms : Fin K → Interp}

/-- **No call is left without its answer.** -/
theorem calm_served (hg : Computes good) (hcpus : ∀ i, good (cpus i)) (hinj : Function.Injective addr)
    (hW : 0 < W) {es : List (Event K W)} {s : Net K W D}
    (h : Runs.Along (fun s e => s.calm e = true ∧ e.lossless = true) (step addr maxRetries)
      (boot vms cpus p resp isboost) es s) :
    ∃ load, ∀ rounds : List (List (Pool.Event W)), (∀ r ∈ rounds, Pool.Turns r) → load ≤ rounds.length →
      ∃ n t, Runs.run (step addr maxRetries) s (List.replicate s.requests.length (.arrive 0) ++
        (rounds.flatten.map ofPool ++ List.replicate n (.deliver 0))) = some t ∧
        ∀ k, t.vms k = { s.vms k with socket := (s.vms k).phase.reply } := by
  obtain ⟨hright, hexact⟩ := exact_kept hg hinj (boot_right hcpus) boot_exact h
  exact served addr maxRetries hg hW hright hexact

end

/-- Two processes get their answers. -/
theorem calm_served_two : ∃ c g',
    CPU.new ⟨0, 0⟩ (.replicate ROM_SIZE 0) (⟨fun _ => 0xff, 786432⟩ : Flash) = some (c, g') ∧
      ∀ (p : Fin 2 → Nat → Pool.Pending) (resp : Fin 2 → Nat → Response), ∃ s load,
        ∀ rounds : List (List (Pool.Event 2)), (∀ r ∈ rounds, Pool.Turns r) → load ≤ rounds.length →
          ∃ n t, Runs.run (step sockets 3) s (List.replicate s.requests.length (.arrive 0) ++
            (rounds.flatten.map ofPool ++ List.replicate n (.deliver 0))) = some t ∧
            Runs.run (step sockets 3) (boot callers (fun _ => c) p resp false) (call 0 ++ call 1) = some s ∧
            ∀ k, (t.vms k).socket = [boost ⟨1, 2⟩] := by
  obtain ⟨good, c, g', hg, hc, hnew⟩ := flash_computes
  refine ⟨c, g', hnew, fun p resp => ?_⟩
  obtain ⟨s, hs, hphase⟩ := calls_along (fun _ => c) p resp
  obtain ⟨load, hserved⟩ := calm_served hg (fun _ => hc) sockets_injective (by decide) hs
  refine ⟨s, load, fun rounds hturns hload => ?_⟩
  obtain ⟨n, t, hrun, hvms⟩ := hserved rounds hturns hload
  refine ⟨n, t, hrun, hs.run, fun k => ?_⟩
  rw [hvms k, (hphase k).1]
  rfl

end Net

end NandServer
