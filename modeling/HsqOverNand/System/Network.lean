import HsqOverNand.Client.FlashClient
import HsqOverNand.Server.ExactlyOnce
import HsqOverNand.Subleq.Machine

/-!
# Interpreters on one server (`src/src/subleq/subleq.cpp`, `src/include/client.hpp`,
`src/src/server/server.cpp`)

`Net K W D`: `K` processes of the interpreter, each with a socket of its own, the datagrams in flight
and the server's pool of `W` workers. A pass through the loop that subtracts is a call of `flashClient`,
and ends when the call returns; every other pass is one event. Datagrams wait as long as they like,
overtake each other, get lost and get duplicated, and other hosts send to the server as well.

* SIGINT leaves `flashClient` through `siglongjmp`; what is on its way stays there.
* Only the server sends to the interpreters.
* `Vm.inputs` records what a process has read, in the order of its passes.
-/

set_option autoImplicit false

namespace NandServer

open Pool (Addr Datagram)

/-! ## A process -/

namespace Interp

/-- The request of the next pass, if it subtracts. -/
def request? (s : Interp) : Option Request :=
  if s.Running ∧ (0 ≤ s.a ∧ s.a < MAX_CODE_SIZE) ∧ 0 ≤ s.b ∧ s.b < MAX_CODE_SIZE then
    some ⟨s.code s.a, s.code s.b⟩
  else none

/-- What a pass reads, or a SIGINT. -/
inductive Input
  | pass (key : Option Byte)
  | sigint (fetched : Bool) (b pc : Int)

def Input.event (flashClient : Request → Response) : Input → LoopEvent
  | pass key => .iterate key flashClient
  | sigint fetched b pc => .sigint fetched b pc

/-- The machine on its own: it subtracts itself. -/
def alone (s : Interp) (inputs : List Input) : Interp := s.run (inputs.map (Input.event boost))

end Interp

/-- `struct Request` on the wire. -/
def Request.bytes (r : Request) : List Byte :=
  ((List.range 8).map (wordByte r.a)) ++ (List.range 8).map (wordByte r.b)

structure Vm where
  interp : Interp
  /-- Where it is in `flashClient`. -/
  phase : Client.Phase
  socket : List Response
  inputs : List Interp.Input

namespace Vm

/-- No call made yet. -/
def start (s : Interp) : Vm := ⟨s, .ready, [], []⟩

/-- A pass through the loop; one that subtracts calls `flashClient`. -/
def pass (v : Vm) (key : Option Byte) : Vm :=
  match v.interp.request? with
  | some req => { v with phase := .sending req 0 }
  | none => { v with
    interp := (v.interp.step (.iterate key boost)).1
    inputs := v.inputs ++ [.pass key] }

/-- `flashClient` returns, and the pass ends. -/
def ret (v : Vm) (resp : Response) : Vm := { v with
  interp := (v.interp.step (.iterate none fun _ => resp)).1
  phase := .ready
  inputs := v.inputs ++ [.pass none] }

/-- The handler jumps back into the loop. -/
def sigint (v : Vm) (fetched : Bool) (b pc : Int) : Vm := { v with
  interp := (v.interp.step (.sigint fetched b pc)).1
  phase := .ready
  inputs := v.inputs ++ [.sigint fetched b pc] }

end Vm

/-! ## The net -/

structure Net (K W : Nat) (D : Type) where
  vms : Fin K → Vm
  pool : Pool W D
  /-- In flight to the server. -/
  requests : List Datagram
  /-- In flight to the processes. -/
  answers : List (Addr × Response)

namespace Net

inductive Event (K W : Nat)
  | pass (k : Fin K) (key : Option Byte)
  | send (k : Fin K)
  | sendFail (k : Fin K)
  | recv (k : Fin K)
  /-- The timeout, or another error of `recvfrom`. -/
  | recvFail (k : Fin K)
  | drain (k : Fin K)
  | ret (k : Fin K)
  | sigint (k : Fin K) (fetched : Bool) (b pc : Int)
  | arrive (i : Nat)
  | loseRequest (i : Nat)
  | copyRequest (i : Nat)
  | deliver (i : Nat)
  | loseAnswer (i : Nat)
  | copyAnswer (i : Nat)
  /-- A datagram of another host. -/
  | foreign (d : Datagram)
  | toggle
  | work (i : Fin W) (now : Nat) (stop : Bool)

variable {K W : Nat} {D : Type}

def setVm (s : Net K W D) (k : Fin K) (v : Vm) : Net K W D :=
  { s with vms := Function.update s.vms k v }

/-- A datagram reaches the socket it is for. -/
def receive (addr : Fin K → Addr) (vms : Fin K → Vm) (x : Addr × Response) (k : Fin K) : Vm :=
  if addr k = x.1 then { vms k with socket := (vms k).socket ++ [x.2] } else vms k

/-- A step of the pool; what it sends is in flight. -/
def poolStep [NandInterface D] (s : Net K W D) (e : Pool.Event W) : Net K W D :=
  { s with
    pool := s.pool.step e
    answers := s.answers ++ (s.pool.step e).shared.sent.drop s.pool.shared.sent.length }

/-- `addr` are the addresses of the sockets. `none`: the event cannot happen. -/
def step [NandInterface D] (addr : Fin K → Addr) (maxRetries : Int) (s : Net K W D) :
    Event K W → Option (Net K W D)
  | .pass k key =>
    match (s.vms k).phase with
    | .ready => some (s.setVm k ((s.vms k).pass key))
    | _ => none
  | .send k =>
    match (s.vms k).phase with
    | .sending req attempt => some { s.setVm k { s.vms k with phase := .waiting req attempt } with
        requests := s.requests ++ [⟨addr k, req.bytes⟩] }
    | _ => none
  | .sendFail k =>
    match (s.vms k).phase with
    | .sending req attempt =>
      some (s.setVm k { s.vms k with phase := Client.retry maxRetries req attempt })
    | _ => none
  | .recv k =>
    match (s.vms k).phase, (s.vms k).socket with
    | .waiting req _, resp :: rest =>
      some (s.setVm k { s.vms k with phase := .draining req resp, socket := rest })
    | _, _ => none
  | .recvFail k =>
    match (s.vms k).phase with
    | .waiting req attempt =>
      some (s.setVm k { s.vms k with phase := Client.retry maxRetries req attempt })
    | _ => none
  | .drain k =>
    match (s.vms k).phase, (s.vms k).socket with
    | .draining _ _, _ :: rest => some (s.setVm k { s.vms k with socket := rest })
    | _, _ => none
  | .ret k =>
    match (s.vms k).phase, (s.vms k).socket with
    | .draining _ resp, [] => some (s.setVm k ((s.vms k).ret resp))
    | _, _ => none
  | .sigint k fetched b pc =>
    match (s.vms k).phase with
    | .exited => none
    | _ => some (s.setVm k ((s.vms k).sigint fetched b pc))
  | .arrive i => s.requests[i]?.map fun d => { s with requests := s.requests.eraseIdx i }.poolStep (.arrive d)
  | .loseRequest i => some { s with requests := s.requests.eraseIdx i }
  | .copyRequest i => s.requests[i]?.map fun d => { s with requests := s.requests ++ [d] }
  | .deliver i => s.answers[i]?.map fun x =>
    { s with answers := s.answers.eraseIdx i, vms := receive addr s.vms x }
  | .loseAnswer i => some { s with answers := s.answers.eraseIdx i }
  | .copyAnswer i => s.answers[i]?.map fun x => { s with answers := s.answers ++ [x] }
  | .foreign d => if ∀ k, addr k ≠ d.src then some { s with requests := s.requests ++ [d] } else none
  | .toggle => some (s.poolStep .toggle)
  | .work i now stop => some (s.poolStep (.work i now stop))

/-- The processes at their start, before a pool. -/
def start (vms : Fin K → Interp) (pool : Pool W D) : Net K W D := ⟨fun k => .start (vms k), pool, [], []⟩

end Net

end NandServer
