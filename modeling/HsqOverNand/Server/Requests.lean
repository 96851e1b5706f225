import HsqOverNand.Server.Cpu

/-!
# Requests and answers (`src/server/server.cpp`, the computing part of `process_requests`)

The two modes of the server: Boost subtracts on the host, CPU mode puts the batch on the lanes of one
round. Words are `int64_t`, as bits.
-/

set_option autoImplicit false

namespace NandServer

structure Request where
  a : BitVec 64
  b : BitVec 64
  deriving DecidableEq

structure Response where
  c : BitVec 64
  isNonPositive : Bool
  deriving DecidableEq

/-- Boost mode. -/
def boost (r : Request) : Response where
  c := r.b - r.a
  isNonPositive := decide ((r.b - r.a).toInt ≤ 0)

namespace CPU

variable {D : Type}

/-- New inputs for all lanes. -/
def setIn (c : CPU D) (inA inB : Vector (BitVec 64) LANES) : CPU D := { c with inA := inA, inB := inB }

/-- The first `n` requests on the lanes; spare lanes get zeros. -/
def load (c : CPU D) (p : Vector Request LANES) (n : Nat) : CPU D :=
  c.setIn (.ofFn fun i => if i < n then (p.get i).a else 0)
    (.ofFn fun i => if i < n then (p.get i).b else 0)

/-- `resp` after a round. -/
def responses (c : CPU D) : Vector Response LANES := .ofFn fun i => ⟨c.out.get i, c.isJmp.get i⟩

/-- A round on `inA` and `inB` is over, with the answers Boost mode gives. -/
structure Subtracts (inA inB : Vector (BitVec 64) LANES) (c : CPU D) : Prop where
  signal : c.signal = true
  pc : c.pc = 0
  out : ∀ l : Fin LANES, c.out.get l = inB.get l - inA.get l
  isJmp : ∀ l : Fin LANES, c.isJmp.get l = decide ((inB.get l - inA.get l).toInt ≤ 0)
  boost : ∀ l : Fin LANES, c.responses.get l = boost ⟨inA.get l, inB.get l⟩

/-- The answers to a batch are those of its lanes. -/
theorem answer_of_load {p : Vector Request LANES} {n : Nat} {c : CPU D}
    (h : ∀ l : Fin LANES, c.responses.get l = NandServer.boost
      ⟨(Vector.ofFn fun i : Fin LANES => if i < n then (p.get i).a else 0).get l,
        (Vector.ofFn fun i : Fin LANES => if i < n then (p.get i).b else 0).get l⟩)
    (i : Fin LANES) (hi : i < n) : c.responses.get i = NandServer.boost (p.get i) := by
  have ha : (Vector.ofFn fun i : Fin LANES => if i < n then (p.get i).a else 0).get i = (p.get i).a :=
    (Vector.getElem_ofFn i.isLt).trans (if_pos hi)
  have hb : (Vector.ofFn fun i : Fin LANES => if i < n then (p.get i).b else 0).get i = (p.get i).b :=
    (Vector.getElem_ofFn i.isLt).trans (if_pos hi)
  rw [h i, ha, hb]

section
variable [NandInterface D]

/-- CPU mode's loop: `execute(fetch())` at most `getRomSize()` times, until the signal. -/
def round (c : CPU D) : CPU D := (c.runUntilSignal c.romSize).2

/-- One round after the other, with the given inputs. -/
def rounds (c : CPU D) (inputs : List (Vector (BitVec 64) LANES × Vector (BitVec 64) LANES)) : CPU D :=
  inputs.foldl (fun c i => (c.setIn i.1 i.2).round) c

end

end CPU

end NandServer
