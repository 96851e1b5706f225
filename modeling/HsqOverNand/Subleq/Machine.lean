import HsqOverNand.Subleq.Sq
import HsqOverNand.Server.Requests

/-!
# The two SUBLEQ machines

The loop of `main` in `src/src/subleq/subleq.cpp` (`Interp`) and the loop of `sqemulatei` in
`src/hsq64.patch` (`Emu`), one iteration at a time. Indices of `code[]` are integers: what lies
around the array is there, with unknown contents. Each iteration of the interpreter also gives the
indices it uses.

* The key that is read, the answer to a request and the arrival of SIGINT are inputs of an event.
  SIGINT jumps back to the last `sigsetjmp`; the locals changed since then are indeterminate, so the
  event brings `b` and `pc`. Before the first key there is nowhere to jump, and the process dies.
* Output, the trace and the unused ring buffer are left out.
* The I/O branches of `sqemulatei` are in the file that the patch applies to (`io`).
-/

set_option autoImplicit false

namespace NandServer

/-! ## The interpreter -/

structure Interp where
  code : Int → BitVec 64
  pc : Int
  ctrlc : Bool
  ctrlcCount : Nat
  die : Bool
  /-- `sigsetjmp` was called. -/
  jmpbuf : Bool
  /-- The loop is left. -/
  stopped : Bool

/-- One pass through the loop, or SIGINT, after the fetch or before it. -/
inductive LoopEvent
  | iterate (key : Option Byte) (flashClient : Request → Response)
  | sigint (fetched : Bool) (b pc : Int)

namespace Interp

def inBounds (i : Int) : Prop := 0 ≤ i ∧ i < MAX_CODE_SIZE

instance (i : Int) : Decidable (inBounds i) := inferInstanceAs (Decidable (_ ∧ _))

def a (s : Interp) : Int := (s.code s.pc).toInt
def b (s : Interp) : Int := (s.code (s.pc + 1)).toInt
def c (s : Interp) : Int := (s.code (s.pc + 2)).toInt

/-- The keyboard case from `sigsetjmp` on; `none` is end of file. -/
def key (s : Interp) (b : Int) (ch : Option Byte) : Interp :=
  let s := { s with
    code := Function.update s.code b (ch.elim (-1) (·.zeroExtend 64)), pc := s.pc + 3, jmpbuf := true }
  match ch with
  | none => s
  | some ch =>
    if ch = 3 then
      { s with ctrlc := true, ctrlcCount := s.ctrlcCount + 1, die := s.die || decide (2 < s.ctrlcCount + 1) }
    else { s with ctrlcCount := 0 }

/-- The indices of the dump on Ctrl-D. -/
def dump (ch : Option Byte) : List Int :=
  if ch = some 4 then (List.range 256).map fun i : Nat => 0xba00 + (i : Int) else []

/-- `flashClient` and what follows. -/
def subtract (s : Interp) (flashClient : Request → Response) : Interp :=
  let resp := flashClient ⟨s.code s.a, s.code s.b⟩
  let s' := if s.b < 0x600000 then { s with code := Function.update s.code s.b resp.c } else s
  if resp.isNonPositive then
    if s.c = -1 then { s' with stopped := true } else { s' with pc := s.c }
  else { s' with pc := s.pc + 3 }

/-- The instruction after the fetch, and the indices it uses. -/
def execute (s : Interp) (ch : Option Byte) (flashClient : Request → Response) : Interp × List Int :=
  if MAX_CODE_SIZE ≤ s.a ∨ MAX_CODE_SIZE ≤ s.b then ({ s with stopped := true }, [])
  else if s.b = -1 then ({ s with pc := s.pc + 3 }, [s.a])
  else if s.a = -1 then ({ s with ctrlc := false }.key s.b ch, dump ch ++ [s.b])
  else if s.a = -2 then
    ({ s with code := Function.update s.code s.b (if s.ctrlc then 1 else 0), ctrlc := false, pc := s.pc + 3 },
      [s.b])
  else if s.a < 0 ∨ s.b < 0 then ({ s with stopped := true }, [])
  else (s.subtract flashClient, [s.a, s.b])

def fetch (s : Interp) : List Int := [s.pc, s.pc + 1, s.pc + 2]

/-- The loop goes on, and the counter passes its check. -/
def Running (s : Interp) : Prop := s.stopped = false ∧ s.die = false ∧ inBounds s.pc

instance (s : Interp) : Decidable s.Running := inferInstanceAs (Decidable (_ ∧ _ ∧ _))

def step (s : Interp) : LoopEvent → Interp × List Int
  | .iterate ch flashClient =>
    if s.Running then ((s.execute ch flashClient).1, s.fetch ++ (s.execute ch flashClient).2)
    else ({ s with stopped := true }, [])
  | .sigint fetched b pc =>
    let acc := if fetched ∧ s.Running then s.fetch else []
    if s.stopped then (s, [])
    else if s.jmpbuf then ({ s with pc := pc }.key b (some 3), acc ++ [b])
    else ({ s with stopped := true }, acc)

def run (s : Interp) (es : List LoopEvent) : Interp := es.foldl (fun s e => (s.step e).1) s

/-- The loaded words, the character table, and what lies around the array. -/
def start (words : List (BitVec 64)) (around : Int → BitVec 64) : Interp where
  code i :=
    if inBounds i then
      if 0x600000 ≤ i ∧ i < 0x600000 + 256 then BitVec.ofInt 64 (i - 0x600000)
      else words.getD i.toNat 0
    else around i
  pc := 0
  ctrlc := false
  ctrlcCount := 0
  die := false
  jmpbuf := false
  stopped := false

end Interp

/-! ## The emulator -/

structure Memi where
  v : List (BitVec 64)

namespace Memi

/-- `operator[]`: the element, and the vector it may have resized. `none`: a negative index throws. -/
def index (m : Memi) (i : Int) : Option (Memi × BitVec 64) :=
  if i < 0 then none
  else
    let v := if (m.v.length : Int) ≤ i then m.v ++ List.replicate (i.toNat + 1 - m.v.length) 0 else m.v
    some (⟨v⟩, v.getD i.toNat 0)

/-- An assignment through `operator[]`. -/
def store (m : Memi) (i : Int) (x : BitVec 64) : Option Memi :=
  (m.index i).map fun r => ⟨r.1.v.set i.toNat x⟩

def size (m : Memi) : Int := m.v.length

end Memi

structure Emu where
  mem : Memi
  ip : Int
  stopped : Bool

namespace Emu

/-- The loop over the words that `sqloadtext` gave. -/
def load : List (BitVec 64) → Memi → Int → Option Memi
  | [], m, _ => some m
  | w :: ws, m, ip => do
    let m ← m.store ip w
    load ws m (ip + 1)

section
variable (flash : Bool) (flashClient : Request → Response)
  (io : Memi → Int → BitVec 64 → BitVec 64 → Option (Memi × Int))

/-- The subtraction; the counter after a jump. -/
def subtract (m : Memi) (ip : Int) (a b c : BitVec 64) : Option (Memi × Int) := do
  let (m, ma) ← m.index a.toInt
  let (m, mb) ← m.index b.toInt
  if flash then
    let resp := flashClient ⟨ma, mb⟩
    let m ← m.store b.toInt resp.c
    return (m, if resp.isNonPositive then c.toInt else ip)
  else
    let m ← m.store b.toInt (mb - ma)
    let (m, x) ← m.index b.toInt
    return (m, if x.toInt ≤ 0 then c.toInt else ip)

/-- One pass through the loop of `sqemulatei`; `none`: it throws. -/
def step (e : Emu) : Option Emu :=
  if e.stopped then some e
  else do
    let (m, a) ← e.mem.index e.ip
    let (m, b) ← m.index (e.ip + 1)
    if m.size ≤ e.ip + 2 then none
    else
      let (m, c) ← m.index (e.ip + 2)
      let (m, ip) ← if a = -1 ∨ b = -1 then io m (e.ip + 3) a b
        else subtract flash flashClient m (e.ip + 3) a b c
      return ⟨m, ip, decide (ip < 0)⟩

def run (e : Emu) : Nat → Option Emu
  | 0 => some e
  | n + 1 => do (← e.run n).step flash flashClient io

end

/-- `sqemulatei` at its loop. -/
def start (words : List (BitVec 64)) : Option Emu := (load words ⟨[]⟩ 0).map fun m => ⟨m, 0, false⟩

end Emu

end NandServer
