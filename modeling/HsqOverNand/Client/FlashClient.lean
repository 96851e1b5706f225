import HsqOverNand.Lib.Runs
import HsqOverNand.Server.Requests

/-!
# One client thread (`src/include/client.hpp`, `flashClient`)

`World`: a client thread, its socket, the datagrams in flight in either direction, and a server that
answers every request datagram. Datagrams wait as long as they like, overtake each other and get lost.
No answer names its request: the client takes the first one in its socket.

* `returned_right`: as long as no answer to something else gets to the front of the socket (`OnTime`),
  every call returns the answer to its request.
* `stale_answer`: a duplicate, delivered after the drain of its own call, is the answer to the next.
* `late_returned`: one late answer is enough, the call returns it unless the client exits.
-/

set_option autoImplicit false

namespace NandServer

namespace Client

/-- An answer datagram. -/
structure Answer where
  /-- The request it answers. The datagram only has `resp`. -/
  req : Request
  resp : Response
  right : resp = boost req

inductive Phase
  /-- Between two calls. -/
  | ready
  /-- Before `sendto`. -/
  | sending (req : Request) (attempt : Nat)
  /-- In `recvfrom`. -/
  | waiting (req : Request) (attempt : Nat)
  /-- `resp` is accepted; the loop that empties the socket. -/
  | draining (req : Request) (resp : Response)
  | exited

/-- The request whose answer the client is still after. -/
def Phase.open? : Phase → Option Request
  | .sending req _ | .waiting req _ => some req
  | .ready | .draining _ _ | .exited => none

structure World where
  phase : Phase
  /-- The client's receive queue. -/
  socket : List Answer
  /-- In flight to the server. -/
  requests : List Request
  /-- In flight to the client. -/
  answers : List Answer
  /-- The calls that returned. -/
  returned : List (Request × Response)

def World.init : World := ⟨.ready, [], [], [], []⟩

inductive Event
  | call (req : Request)
  | send
  | sendFail
  | recv
  /-- The timeout, or another error of `recvfrom`. -/
  | recvFail
  | drain
  /-- `select` finds the socket empty. -/
  | ret
  /-- The server answers a request datagram. -/
  | serve (i : Nat)
  | loseRequest (i : Nat)
  | loseAnswer (i : Nat)
  | deliver (i : Nat)

/-- A failed attempt: the same request again, or `exit(1)`. -/
def retry (maxRetries : Int) (req : Request) (attempt : Nat) : Phase :=
  if (attempt : Int) < maxRetries then .sending req (attempt + 1) else .exited

namespace World

/-- `none`: the event cannot happen. -/
def step (maxRetries : Int) (w : World) : Event → Option World
  | .call req =>
    match w.phase with
    | .ready => some { w with phase := .sending req 0 }
    | _ => none
  | .send =>
    match w.phase with
    | .sending req attempt =>
      some { w with phase := .waiting req attempt, requests := w.requests ++ [req] }
    | _ => none
  | .sendFail =>
    match w.phase with
    | .sending req attempt => some { w with phase := retry maxRetries req attempt }
    | _ => none
  | .recv =>
    match w.phase, w.socket with
    | .waiting req _, a :: rest => some { w with phase := .draining req a.resp, socket := rest }
    | _, _ => none
  | .recvFail =>
    match w.phase with
    | .waiting req attempt => some { w with phase := retry maxRetries req attempt }
    | _ => none
  | .drain =>
    match w.phase, w.socket with
    | .draining _ _, _ :: rest => some { w with socket := rest }
    | _, _ => none
  | .ret =>
    match w.phase, w.socket with
    | .draining req resp, [] => some { w with phase := .ready, returned := w.returned ++ [(req, resp)] }
    | _, _ => none
  | .serve i => w.requests[i]?.map fun req =>
    { w with requests := w.requests.eraseIdx i, answers := w.answers ++ [⟨req, boost req, rfl⟩] }
  | .loseRequest i => some { w with requests := w.requests.eraseIdx i }
  | .loseAnswer i => some { w with answers := w.answers.eraseIdx i }
  | .deliver i => w.answers[i]?.map fun a =>
    { w with answers := w.answers.eraseIdx i, socket := w.socket ++ [a] }

section
variable {maxRetries : Int} {w w' : World}

/-- What the events can do. -/
inductive Step (maxRetries : Int) (w : World) : Event → World → Prop
  | call (req : Request) : w.phase = .ready →
      Step maxRetries w (.call req) { w with phase := .sending req 0 }
  | send (req : Request) (attempt : Nat) : w.phase = .sending req attempt → Step maxRetries w .send
      { w with phase := .waiting req attempt, requests := w.requests ++ [req] }
  | fail {e : Event} (req : Request) (attempt : Nat) : w.phase.open? = some req →
      Step maxRetries w e { w with phase := retry maxRetries req attempt }
  | recv (req : Request) (a : Answer) (rest : List Answer) : w.phase.open? = some req →
      w.socket = a :: rest →
      Step maxRetries w .recv { w with phase := .draining req a.resp, socket := rest }
  | drain (req : Request) (resp : Response) (rest : List Answer) :
      w.phase = .draining req resp → Step maxRetries w .drain { w with socket := rest }
  | ret (req : Request) (resp : Response) : w.phase = .draining req resp → Step maxRetries w .ret
      { w with phase := .ready, returned := w.returned ++ [(req, resp)] }
  | net {e : Event} (requests : List Request) (answers : List Answer) :
      Step maxRetries w e { w with requests := requests, answers := answers }
  | deliver (i : Nat) (a : Answer) : w.answers[i]? = some a → Step maxRetries w (.deliver i)
      { w with answers := w.answers.eraseIdx i, socket := w.socket ++ [a] }

theorem step_cases {e : Event} (hs : w.step maxRetries e = some w') : Step maxRetries w e w' := by
  cases e with
  | call req =>
    simp only [World.step] at hs
    split at hs
    · rename_i hphase
      cases hs
      exact .call req hphase
    · cases hs
  | send =>
    simp only [World.step] at hs
    split at hs
    · rename_i req attempt hphase
      cases hs
      exact .send req attempt hphase
    · cases hs
  | sendFail | recvFail =>
    simp only [World.step] at hs
    split at hs
    · rename_i req attempt hphase
      cases hs
      exact .fail req attempt (by rw [hphase]; rfl)
    · cases hs
  | recv =>
    simp only [World.step] at hs
    split at hs
    · rename_i req attempt a rest hphase hsocket
      cases hs
      exact .recv req a rest (by rw [hphase]; rfl) hsocket
    · cases hs
  | drain =>
    simp only [World.step] at hs
    split at hs
    · rename_i req resp a rest hphase hsocket
      cases hs
      exact .drain req resp rest hphase
    · cases hs
  | ret =>
    simp only [World.step] at hs
    split at hs
    · rename_i req resp hphase hsocket
      cases hs
      exact .ret req resp hphase
    · cases hs
  | serve i =>
    obtain ⟨req, -, rfl⟩ := Option.map_eq_some_iff.1 hs
    exact .net _ _
  | loseRequest i =>
    cases hs
    exact .net _ _
  | loseAnswer i =>
    cases hs
    exact .net _ _
  | deliver i =>
    obtain ⟨a, hi, rfl⟩ := Option.map_eq_some_iff.1 hs
    exact .deliver i a hi

/-! ## In time -/

/-- What gets to the front of the socket during a call answers the call's request, or one with the
same answer. -/
def OnTime (w : World) : Event → Prop
  | .call req => ∀ a ∈ w.socket.head?, boost a.req = boost req
  | .deliver i => w.socket = [] → ∀ req ∈ w.phase.open?, ∀ a ∈ w.answers[i]?, boost a.req = boost req
  | _ => True

instance (w : World) : (e : Event) → Decidable (w.OnTime e)
  | .call _ => inferInstanceAs (Decidable (∀ _ ∈ _, _))
  | .deliver _ => inferInstanceAs (Decidable (_ → ∀ _ ∈ _, ∀ _ ∈ _, _))
  | .send | .sendFail | .recv | .recvFail | .drain | .ret | .serve _ | .loseRequest _ | .loseAnswer _ =>
    inferInstanceAs (Decidable True)

/-- While a call is open the front of the socket is its answer. -/
structure Front (w : World) : Prop where
  open? : ∀ req ∈ w.phase.open?, ∀ a ∈ w.socket.head?, a.resp = boost req
  accepted : ∀ req resp, w.phase = .draining req resp → resp = boost req
  returned : ∀ p ∈ w.returned, p.2 = boost p.1

theorem Front.init : Front .init where
  open? := fun _ h => by cases h
  accepted := fun _ _ h => by cases h
  returned := fun _ h => by cases h

/-- The request of a failed attempt stays the open one. -/
theorem Front.retry {req : Request} {attempt : Nat} (h : w.Front) (hopen : w.phase.open? = some req) :
    Front { w with phase := retry maxRetries req attempt } := by
  unfold Client.retry
  split
  · refine ⟨fun r hr a ha => ?_, fun _ _ he => (nomatch he), h.returned⟩
    cases hr
    exact h.open? req hopen a ha
  · exact ⟨fun _ hr => (nomatch hr), fun _ _ he => (nomatch he), h.returned⟩

theorem Front.step {e : Event} (h : w.Front) (hok : w.OnTime e) (hs : w.step maxRetries e = some w') :
    w'.Front := by
  cases step_cases hs with
  | call req hphase =>
    refine ⟨fun r hr a ha => ?_, fun _ _ he => (nomatch he), h.returned⟩
    cases hr
    exact a.right.trans (hok a ha)
  | send req attempt hphase =>
    refine ⟨fun r hr a ha => ?_, fun _ _ he => (nomatch he), h.returned⟩
    cases hr
    exact h.open? req (by rw [hphase]; rfl) a ha
  | fail req attempt hopen => exact h.retry hopen
  | recv req a rest hopen hsocket =>
    have hresp := h.open? req hopen a (by rw [hsocket]; rfl)
    refine ⟨fun _ hr => (nomatch hr), fun r resp he => ?_, h.returned⟩
    cases he
    exact hresp
  | drain req resp rest hphase =>
    refine ⟨fun r hr => ?_, h.accepted, h.returned⟩
    rw [hphase] at hr
    cases hr
  | ret req resp hphase =>
    refine ⟨fun _ hr => (nomatch hr), fun _ _ he => (nomatch he), fun p hp => ?_⟩
    rcases List.mem_append.1 hp with hp | hp
    · exact h.returned p hp
    · rw [List.mem_singleton.1 hp]
      exact h.accepted req resp hphase
  | net requests answers => exact ⟨h.open?, h.accepted, h.returned⟩
  | deliver i a hi =>
    refine ⟨fun req hreq b hb => ?_, h.accepted, h.returned⟩
    cases hsocket : w.socket with
    | nil =>
      -- `a` is the new front
      have hba : b = a := by
        simpa [hsocket] using hb.symm
      rw [hba]
      exact a.right.trans (hok hsocket req hreq a hi)
    | cons c rest =>
      refine h.open? req hreq b ?_
      simpa [hsocket] using hb

/-! ## Too late -/

/-- A wrong answer is at the front, accepted or returned, or the client gave up. -/
inductive Spoilt (w : World) : Prop
  | front (req : Request) {a : Answer} {rest : List Answer} :
      w.phase.open? = some req → w.socket = a :: rest → a.resp ≠ boost req → Spoilt w
  | accepted {req : Request} {resp : Response} :
      w.phase = .draining req resp → resp ≠ boost req → Spoilt w
  | returned {p : Request × Response} : p ∈ w.returned → p.2 ≠ boost p.1 → Spoilt w
  | exited : w.phase = .exited → Spoilt w

/-- Some call returned a wrong answer. -/
abbrev Wrong (w : World) : Prop := ∃ p ∈ w.returned, p.2 ≠ boost p.1

theorem Spoilt.of_ready (h : w.Spoilt) (hphase : w.phase = .ready) : w.Wrong := by
  cases h with
  | front _ ho => rw [hphase] at ho; cases ho
  | accepted hp => rw [hphase] at hp; cases hp
  | returned hp hne => exact ⟨_, hp, hne⟩
  | exited hp => rw [hphase] at hp; cases hp

theorem Spoilt.of_open (h : w.Spoilt) (req : Request) (hopen : w.phase.open? = some req) :
    (∃ a rest, w.socket = a :: rest ∧ a.resp ≠ boost req) ∨ w.Wrong := by
  cases h with
  | front _ ho hs hne =>
    rw [hopen] at ho
    cases ho
    exact .inl ⟨_, _, hs, hne⟩
  | accepted hp => rw [hp] at hopen; cases hopen
  | returned hp hne => exact .inr ⟨_, hp, hne⟩
  | exited hp => rw [hp] at hopen; cases hopen

theorem Spoilt.of_draining {req : Request} {resp : Response} (h : w.Spoilt)
    (hphase : w.phase = .draining req resp) : resp ≠ boost req ∨ w.Wrong := by
  cases h with
  | front _ ho => rw [hphase] at ho; cases ho
  | accepted hp hne =>
    rw [hphase] at hp
    cases hp
    exact .inl hne
  | returned hp hne => exact .inr ⟨_, hp, hne⟩
  | exited hp => rw [hphase] at hp; cases hp

theorem Spoilt.retry {req : Request} {attempt : Nat} (h : w.Spoilt) (hopen : w.phase.open? = some req) :
    Spoilt { w with phase := retry maxRetries req attempt } := by
  unfold Client.retry
  split
  · rcases h.of_open req hopen with ⟨a, rest, hs, hne⟩ | ⟨p, hp, hne⟩
    · exact .front req rfl hs hne
    · exact .returned hp hne
  · exact .exited rfl

theorem Spoilt.step {e : Event} (h : w.Spoilt) (hs : w.step maxRetries e = some w') : w'.Spoilt := by
  cases step_cases hs with
  | call req hphase =>
    obtain ⟨p, hp, hne⟩ := h.of_ready hphase
    exact .returned hp hne
  | send req attempt hphase =>
    rcases h.of_open req (by rw [hphase]; rfl) with ⟨a, rest, hsocket, hne⟩ | ⟨p, hp, hne⟩
    · exact .front req rfl hsocket hne
    · exact .returned hp hne
  | fail req attempt hopen => exact h.retry hopen
  | recv req a rest hopen hsocket =>
    rcases h.of_open req hopen with ⟨b, rest', hs', hne⟩ | ⟨p, hp, hne⟩
    · rw [hsocket] at hs'
      cases hs'
      exact .accepted rfl hne
    · exact .returned hp hne
  | drain req resp rest hphase =>
    rcases h.of_draining hphase with hne | ⟨p, hp, hne⟩
    · exact .accepted hphase hne
    · exact .returned hp hne
  | ret req resp hphase =>
    rcases h.of_draining hphase with hne | ⟨p, hp, hne⟩
    · exact .returned (List.mem_append_right _ (List.mem_singleton_self _)) hne
    · exact .returned (List.mem_append_left _ hp) hne
  | net requests answers =>
    cases h with
    | front req ho hsocket hne => exact .front req ho hsocket hne
    | accepted hp hne => exact .accepted hp hne
    | returned hp hne => exact .returned hp hne
    | exited hp => exact .exited hp
  | deliver i a hi =>
    cases h with
    | front req ho hsocket hne => exact .front req ho (by rw [hsocket]; rfl) hne
    | accepted hp hne => exact .accepted hp hne
    | returned hp hne => exact .returned hp hne
    | exited hp => exact .exited hp

theorem spoilt_of_late {e : Event} (hlate : ¬ w.OnTime e) (hs : w.step maxRetries e = some w') :
    w'.Spoilt := by
  cases e with
  | call req =>
    simp only [World.step] at hs
    split at hs
    · cases hs
      rcases hsocket : w.socket with _ | ⟨a, rest⟩
      · exact absurd (fun a ha => by rw [hsocket] at ha; cases ha) hlate
      · refine .front req (a := a) rfl rfl fun hresp => hlate fun b hb => ?_
        rw [hsocket] at hb
        cases hb
        exact a.right.symm.trans hresp
    · cases hs
  | deliver i =>
    obtain ⟨a, hi, rfl⟩ := Option.map_eq_some_iff.1 hs
    refine Classical.byContradiction fun hno => hlate fun hsocket req hreq b hb => ?_
    rw [hi] at hb
    cases hb
    refine Classical.byContradiction fun hne => hno ?_
    refine .front req (a := a) hreq (by rw [hsocket]; rfl) fun hresp => hne ?_
    exact a.right.symm.trans hresp
  | send | sendFail | recv | recvFail | drain | ret | serve | loseRequest | loseAnswer =>
    exact absurd trivial hlate

/-- Between two calls a late answer has been returned. -/
theorem late_returned {e : Event} {es : List Event} {v : World} (hlate : ¬ w.OnTime e)
    (hs : w.step maxRetries e = some w') (hrun : Runs.run (World.step maxRetries) w' es = some v)
    (hready : v.phase = .ready) : v.Wrong := by
  have hv := Runs.inv_run Spoilt (fun _ _ _ hw he => hw.step he) es (spoilt_of_late hlate hs) hrun
  exact hv.of_ready hready

end

end World

/-- **Until an answer is late, every call returns its own.** -/
theorem returned_right (maxRetries : Int) (es : List Event) (w : World)
    (hrun : Runs.run (Runs.only World.OnTime (World.step maxRetries)) .init es = some w) :
    ∀ p ∈ w.returned, p.2.c = p.1.b - p.1.a ∧ p.2.isNonPositive = decide (p.2.c.toInt ≤ 0) := by
  have hfront := Runs.inv_run World.Front
    (fun s e t hs he => hs.step (Runs.only_eq_some.1 he).1 (Runs.only_eq_some.1 he).2) es .init hrun
  intro p hp
  rw [hfront.returned p hp]
  exact ⟨rfl, rfl⟩

/-- Two calls; the first one is resent after a timeout and both answers come in before the second. -/
def resent : List Event :=
  [.call ⟨3, 10⟩, .send, .recvFail, .send, .serve 0, .serve 0, .deliver 1, .deliver 0, .recv, .drain,
    .ret, .call ⟨10, 3⟩, .send, .serve 0, .deliver 0, .recv, .ret]

theorem returned_right_resent : ∃ w,
    Runs.run (Runs.only World.OnTime (World.step 5)) .init resent = some w ∧ w.returned.length = 2 ∧
    ∀ p ∈ w.returned, p.2.c = p.1.b - p.1.a ∧ p.2.isNonPositive = decide (p.2.c.toInt ≤ 0) := by
  refine ⟨⟨.ready, [], [], [], [(⟨3, 10⟩, ⟨7, false⟩), (⟨10, 3⟩, ⟨-7, true⟩)]⟩, rfl, rfl, ?_⟩
  exact returned_right 5 resent _ rfl

/-- **A late duplicate is the answer to another call.** -/
theorem stale_answer : ∃ w, Runs.run (World.step 5) .init
      [.call ⟨3, 10⟩, .send, .recvFail, .send, .serve 0, .serve 0, .deliver 0, .recv, .ret,
        .call ⟨10, 3⟩, .send, .serve 0, .deliver 0, .recv, .ret] = some w ∧
    (⟨10, 3⟩, boost ⟨3, 10⟩) ∈ w.returned ∧ boost ⟨3, 10⟩ ≠ boost ⟨10, 3⟩ :=
  ⟨_, rfl, by simp, by decide⟩

end Client

end NandServer
