import HsqOverNand.Lib.Runs
import HsqOverNand.Server.Subtract

/-!
# The worker pool (`src/server/server.cpp`, `process_requests` and `worker_func`)

`Worker.step` is one step of a worker thread: a `recvfrom`, the load of the boost flag, the computation,
a `sendto`. All workers share the socket, the flag and the client tracker (`Shared`).
-/

set_option autoImplicit false

namespace NandServer

namespace Pool

/-- `sockaddr_in`. -/
structure Addr where
  ip : BitVec 32
  port : BitVec 16
  deriving DecidableEq

structure Datagram where
  src : Addr
  data : List Byte

/-- `sizeof(Request)`. -/
def REQUEST_SIZE : Nat := 16

/-- A `Request` in memory. -/
def requestOf (b : Nat → Byte) : Request := ⟨leWord b, leWord fun k => b (8 + k)⟩

def Datagram.request (d : Datagram) : Request := requestOf fun k => d.data.getD k 0

/-- What `recvfrom` returns. -/
def Datagram.received (d : Datagram) : Nat := min d.data.length REQUEST_SIZE

structure Pending where
  req : Vector Byte REQUEST_SIZE
  addr : Addr

def Pending.request (p : Pending) : Request :=
  requestOf fun k => if h : k < REQUEST_SIZE then p.req[k] else 0

/-- What `recvfrom` leaves in the buffer: a short datagram only its first bytes, a long one is cut. -/
def Pending.fill (p : Pending) (d : Datagram) : Pending where
  req := .ofFn fun i => d.data.getD i (p.req.get i)
  addr := d.src

/-! ## The client tracker -/

structure Ent where
  key : BitVec 64
  seen : Nat

def MAXC : Nat := 32

/-- One second of `steady_clock`. -/
def SECOND : Nat := 1000000000

def Addr.key (a : Addr) : BitVec 64 := a.ip.setWidth 64 <<< 16 ||| a.port.setWidth 64

/-- `ClientTracker::touch` at the time `now`: the number of active clients, and `ent[0..n)`. -/
def touch (ent : List Ent) (a : Addr) (now : Nat) : Nat × List Ent :=
  let ent' := ent.map fun e => if e.key = a.key then { e with seen := now } else e
  let active := ent'.countP fun e => now - e.seen < SECOND
  if ent.any fun e => e.key = a.key then (active, ent')
  else
    match ent'.findIdx? fun e => ¬ now - e.seen < SECOND with
    | some slot => (active + 1, ent'.set slot ⟨a.key, now⟩)
    | none => (active + 1, if ent'.length < MAXC then ent' ++ [⟨a.key, now⟩] else ent')

/-! ## A worker -/

inductive Phase
  /-- In `worker_func`, or before the first `recvfrom`. -/
  | idle
  /-- `p[0]` is there, `isboost` not loaded yet. -/
  | first
  /-- The loop that takes what has arrived. -/
  | collect
  /-- The loop that waits for more. -/
  | wait
  | boost
  | cpu
  /-- Before the answer of `p[i]`. -/
  | send (i : Nat)

structure Worker (D : Type) where
  cpu : CPU D
  phase : Phase
  /-- The arrays are as the last batch left them. -/
  p : Nat → Pending
  resp : Nat → Response
  n : Nat
  active : Nat

structure Shared where
  /-- The receive queue of the socket. -/
  queue : List Datagram
  isboost : Bool
  ent : List Ent
  /-- The datagrams for which `recvfrom` returned `sizeof(Request)`. -/
  accepted : List Datagram
  /-- The answers, with the address they went to. -/
  sent : List (Addr × Response)

namespace Worker

variable {D : Type}

/-- `recvfrom` into `p[n]`; whether it took a whole request into the batch. -/
def take (now : Nat) (s : Shared) (w : Worker D) : Bool × Shared × Worker D :=
  match s.queue with
  | [] => (false, s, w)
  | d :: queue =>
    let p := Function.update w.p w.n ((w.p w.n).fill d)
    if d.received = REQUEST_SIZE then
      let t := touch s.ent (p w.n).addr now
      (true, { s with queue := queue, ent := t.2, accepted := s.accepted ++ [d] },
        { w with p := p, n := w.n + 1, active := t.1 })
    else (false, { s with queue := queue }, { w with p := p })

/-- `stop`: the deadline of the batch is over, or `select` says so. -/
def step [NandInterface D] (numCpus now : Nat) (stop : Bool) (s : Shared) (w : Worker D) :
    Shared × Worker D :=
  match w.phase with
  | .idle =>
    let r := take now s { w with n := 0 }
    (r.2.1, if r.1 then { r.2.2 with phase := .first } else r.2.2)
  | .first => (s, { w with phase := if s.isboost then .boost else .collect })
  | .collect =>
    if w.n < LANES then
      let r := take now s w
      (r.2.1, if r.1 then r.2.2 else { r.2.2 with phase := .wait })
    else (s, { w with phase := .wait })
  | .wait =>
    if w.n < LANES ∧ numCpus < w.active ∧ stop = false then (take now s w).2
    else (s, { w with phase := .cpu })
  | .boost =>
    (s, { w with
      resp := fun i => if i < w.n then NandServer.boost (w.p i).request else w.resp i
      phase := .send 0 })
  | .cpu =>
    let c := (w.cpu.load (.ofFn fun i => (w.p i).request) w.n).round
    (s, { w with
      cpu := c
      resp := fun i => if h : i < w.n ∧ i < LANES then c.responses.get ⟨i, h.2⟩ else w.resp i
      phase := .send 0 })
  | .send i =>
    if i < w.n then
      ({ s with sent := s.sent ++ [((w.p i).addr, w.resp i)] }, { w with phase := .send (i + 1) })
    else (s, { w with phase := .idle })

end Worker

end Pool

/-! ## The pool -/

open Pool in
/-- `W` workers on one socket. -/
structure Pool (W : Nat) (D : Type) where
  shared : Shared
  workers : Fin W → Worker D

namespace Pool

variable {W : Nat} {D : Type}

inductive Event (W : Nat)
  | arrive (d : Datagram)
  | toggle
  | work (i : Fin W) (now : Nat) (stop : Bool)

def start (cpus : Fin W → CPU D) (p : Fin W → Nat → Pending) (resp : Fin W → Nat → Response)
    (isboost : Bool) : Pool W D where
  shared := ⟨[], isboost, [], [], []⟩
  workers i := ⟨cpus i, .idle, p i, resp i, 0, 0⟩

def step [NandInterface D] (s : Pool W D) : Event W → Pool W D
  | .arrive d => { s with shared := { s.shared with queue := s.shared.queue ++ [d] } }
  | .toggle => { s with shared := { s.shared with isboost := !s.shared.isboost } }
  | .work i now stop =>
    let r := (s.workers i).step W now stop s.shared
    ⟨r.1, Function.update s.workers i r.2⟩

def run [NandInterface D] (s : Pool W D) (es : List (Event W)) : Pool W D := es.foldl step s

end Pool

end NandServer
