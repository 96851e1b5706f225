import HsqOverNand.Lib.Runs
import HsqOverNand.Server.Proof.Worker

/-!
# Every request is answered once

`exactly_once`: whatever arrives and however the workers interleave, what goes out are the answers to
accepted datagrams, each once and to its sender. When all workers rest everything is answered, and they
come to rest if each takes its steps.
-/

set_option autoImplicit false

namespace NandServer

namespace Pool

open Worker

variable {W : Nat} {D : Type}

/-- The datagrams that arrive. -/
def arrivals : List (Event W) → List Datagram
  | [] => []
  | .arrive d :: es => d :: arrivals es
  | .toggle :: es => arrivals es
  | .work .. :: es => arrivals es

theorem arrivals_append : ∀ es fs : List (Event W), arrivals (es ++ fs) = arrivals es ++ arrivals fs
  | [], _ => rfl
  | .arrive d :: es, fs => congrArg (d :: ·) (arrivals_append es fs)
  | .toggle :: es, fs => arrivals_append es fs
  | .work .. :: es, fs => arrivals_append es fs

/-- What was sent and what the workers owe is what was accepted. -/
structure Inv (good : CPU D → Prop) (s : Pool W D) : Prop where
  workers : ∀ i, (s.workers i).Ok good
  logs : (s.shared.sent : Multiset (Addr × Response)) + ∑ i, (s.workers i).owed = answers s.shared.accepted

/-- The whole requests that were received or wait in the socket. -/
def requests (s : Shared) : List Datagram := s.accepted ++ s.queue.filter Datagram.whole

section
variable [NandInterface D] {good : CPU D → Prop}

theorem step_inv (hg : Computes good) {s : Pool W D} (h : s.Inv good) (e : Event W) :
    (s.step e).Inv good ∧
      requests (s.step e).shared = requests s.shared ++ (arrivals [e]).filter Datagram.whole := by
  cases e with
  | arrive d =>
    refine ⟨⟨h.workers, h.logs⟩, ?_⟩
    show s.shared.accepted ++ (s.shared.queue ++ [d]).filter _ = _
    rw [List.filter_append, ← List.append_assoc]
    rfl
  | toggle => exact ⟨⟨h.workers, h.logs⟩, (List.append_nil _).symm⟩
  | work i now stop =>
    obtain ⟨hok, hbalanced⟩ := step_kept W now stop s.shared hg (h.workers i)
    refine ⟨⟨fun j => ?_, Runs.conserve h.logs hbalanced.logs⟩,
      hbalanced.whole.trans (List.append_nil _).symm⟩
    show (Function.update s.workers i _ j).Ok good
    by_cases hj : j = i
    · rw [hj, Function.update_self]
      exact hok
    · rw [Function.update_of_ne hj]
      exact h.workers j

theorem run_inv (hg : Computes good) : ∀ (es : List (Event W)) {s : Pool W D}, s.Inv good →
    (s.run es).Inv good ∧
      requests (s.run es).shared = requests s.shared ++ (arrivals es).filter Datagram.whole
  | [], _, h => ⟨h, (List.append_nil _).symm⟩
  | e :: es, s, h => by
    obtain ⟨h1, hr1⟩ := step_inv hg h e
    obtain ⟨h2, hr2⟩ := run_inv hg es h1
    refine ⟨h2, hr2.trans ?_⟩
    rw [hr1, List.append_assoc, ← List.filter_append, ← arrivals_append]
    rfl

end

/-! ## Rest -/

structure Rest (s : Pool W D) : Prop where
  idle : ∀ i, (s.workers i).phase = .idle
  queue : s.shared.queue = []

theorem Inv.sent_of_idle {good : CPU D → Prop} {s : Pool W D} (h : s.Inv good)
    (hidle : ∀ i, (s.workers i).phase = .idle) :
    (s.shared.sent : Multiset (Addr × Response)) = answers s.shared.accepted := by
  have hzero : ∑ i, (s.workers i).owed = 0 := Finset.sum_eq_zero fun i _ => owed_idle (hidle i)
  rw [← h.logs, hzero, add_zero]

/-- How far the pool is from rest. -/
def load (s : Pool W D) : Nat := perDatagram * s.shared.queue.length + ∑ i, (s.workers i).rank

theorem load_eq_zero {s : Pool W D} : s.load = 0 ↔ s.Rest := by
  unfold load
  rw [Nat.add_eq_zero_iff, Nat.mul_eq_zero, Finset.sum_eq_zero_iff, List.length_eq_zero_iff]
  constructor
  · rintro ⟨hq, hw⟩
    exact ⟨fun i => rank_eq_zero.1 (hw i (Finset.mem_univ i)), hq.resolve_left (by decide)⟩
  · intro h
    exact ⟨.inr h.queue, fun i _ => rank_eq_zero.2 (h.idle i)⟩

/-- Nothing moved but the flag and the clock. -/
structure Still (s t : Pool W D) : Prop where
  phase : ∀ i, (t.workers i).phase = (s.workers i).phase
  queue : t.shared.queue = s.shared.queue
  load : t.load = s.load

theorem Still.trans {s t u : Pool W D} (h : Still s t) (h' : Still t u) : Still s u :=
  ⟨fun i => (h'.phase i).trans (h.phase i), h'.queue.trans h.queue, h'.load.trans h.load⟩

/-- Everyone who had a step with the deadline over was at rest. -/
def AtRest (s : Pool W D) (es : List (Event W)) : Prop :=
  ∀ i now, .work i now true ∈ es → (s.workers i).phase = .idle ∧ s.shared.queue = []

section
variable [NandInterface D] {good : CPU D → Prop}

theorem step_load {s : Pool W D} (h : s.Inv good) {e : Event W} (he : arrivals [e] = []) :
    (s.step e).load < s.load ∨ Still s (s.step e) ∧ s.AtRest [e] := by
  cases e with
  | arrive d => cases he
  | toggle =>
    refine .inr ⟨⟨fun _ => rfl, rfl, rfl⟩, fun i now hm => ?_⟩
    cases List.mem_singleton.1 hm
  | work i now stop =>
    have hsum : ∑ j, (s.workers j).rank =
        (s.workers i).rank + ∑ j ∈ Finset.univ.erase i, (s.workers j).rank :=
      (Finset.add_sum_erase _ _ (Finset.mem_univ i)).symm
    have hsum' := Runs.sum_update rank s.workers i ((s.workers i).step W now stop s.shared).2
    have hload : s.load = perDatagram * s.shared.queue.length +
        ((s.workers i).rank + ∑ j ∈ Finset.univ.erase i, (s.workers j).rank) := congrArg _ hsum
    have hload' : (s.step (.work i now stop)).load =
        perDatagram * ((s.workers i).step W now stop s.shared).1.queue.length +
        (((s.workers i).step W now stop s.shared).2.rank +
          ∑ j ∈ Finset.univ.erase i, (s.workers j).rank) :=
      congrArg _ hsum'
    rcases step_nearer W now stop s.shared (h.workers i).bound with hlt | ⟨hq, hq', hphase, hrank, hidle⟩
    · refine .inl ?_
      rw [hload, hload']
      omega
    · refine .inr ⟨⟨fun j => ?_, hq'.trans hq.symm, ?_⟩, fun j now' hm => ?_⟩
      · show (Function.update s.workers i _ j).phase = _
        by_cases hj : j = i
        · rw [hj, Function.update_self]
          exact hphase
        · rw [Function.update_of_ne hj]
      · rw [hload, hload', hq, hq', hrank]
      · cases List.mem_singleton.1 hm
        exact ⟨hidle rfl, hq⟩

theorem run_load (hg : Computes good) : ∀ (es : List (Event W)) {s : Pool W D}, s.Inv good →
    arrivals es = [] → (s.run es).load < s.load ∨ Still s (s.run es) ∧ s.AtRest es
  | [], _, _, _ => .inr ⟨⟨fun _ => rfl, rfl, rfl⟩, fun _ _ hm => by cases hm⟩
  | e :: es, s, h, hes => by
    have harr := arrivals_append [e] es
    rw [show [e] ++ es = e :: es from rfl, hes] at harr
    obtain ⟨he, hes⟩ := List.append_eq_nil_iff.1 harr.symm
    have hrest := run_load hg es (step_inv hg h e).1 hes
    rcases step_load h he with hlt | ⟨hstill, hat⟩
    · refine .inl ?_
      rcases hrest with hlt' | ⟨hstill', -⟩
      · exact Nat.lt_trans hlt' hlt
      · exact hstill'.load.trans_lt hlt
    · rcases hrest with hlt' | ⟨hstill', hat'⟩
      · exact .inl (hlt'.trans_eq hstill.load)
      · refine .inr ⟨hstill.trans hstill', fun i now hm => ?_⟩
        rcases List.mem_cons.1 hm with rfl | hm
        · exact hat i now (List.mem_singleton_self _)
        · obtain ⟨hidle, hq⟩ := hat' i now hm
          exact ⟨(hstill.phase i).symm.trans hidle, hstill.queue.symm.trans hq⟩

/-- Nothing arrives, and each worker has a step with the deadline over. -/
structure Turns (es : List (Event W)) : Prop where
  arrivals : arrivals es = []
  work : ∀ i, ∃ now, .work i now true ∈ es

theorem rest_of_turns (hg : Computes good) (hW : 0 < W) :
    ∀ (rounds : List (List (Event W))) {s : Pool W D}, s.Inv good → (∀ es ∈ rounds, Turns es) →
      s.load ≤ rounds.length → (s.run rounds.flatten).Rest
  | [], _, _, _, hload => load_eq_zero.1 (Nat.le_zero.1 hload)
  | es :: rounds, s, h, hturns, hload => by
    have hes := hturns es List.mem_cons_self
    rw [List.length_cons] at hload
    have hnext : (s.run es).load ≤ rounds.length := by
      rcases run_load hg es h hes.arrivals with hlt | ⟨hstill, hat⟩
      · omega
      · have hidle : ∀ i, (s.workers i).phase = .idle ∧ s.shared.queue = [] := fun i => by
          obtain ⟨now, hm⟩ := hes.work i
          exact hat i now hm
        have hrest : s.Rest := ⟨fun i => (hidle i).1, (hidle ⟨0, hW⟩).2⟩
        rw [hstill.load, load_eq_zero.2 hrest]
        exact Nat.zero_le _
    have hrun : s.run (es :: rounds).flatten = (s.run es).run rounds.flatten := List.foldl_append
    rw [hrun]
    exact rest_of_turns hg hW rounds (run_inv hg es h).1
      (fun fs hm => hturns fs (List.mem_cons_of_mem _ hm)) hnext

theorem Turns.arrivals_flatten : ∀ (rounds : List (List (Event W))), (∀ es ∈ rounds, Turns es) →
    Pool.arrivals rounds.flatten = []
  | [], _ => rfl
  | es :: rounds, h => by
    rw [List.flatten_cons, arrivals_append, (h es List.mem_cons_self).arrivals,
      Turns.arrivals_flatten rounds fun fs hm => h fs (List.mem_cons_of_mem _ hm)]
    rfl

omit [NandInterface D] in
theorem start_inv {cpus : Fin W → CPU D} (hcpus : ∀ i, good (cpus i)) (p : Fin W → Nat → Pending)
    (resp : Fin W → Nat → Response) (isboost : Bool) : (start cpus p resp isboost).Inv good where
  workers i := ⟨hcpus i, Nat.zero_le _, fun _ h => by cases h⟩
  logs := (zero_add _).trans (Finset.sum_eq_zero fun _ _ => owed_idle rfl)

/-- The pool after the events `es`. -/
structure Served (es : List (Event W)) (s : Pool W D) : Prop where
  bound : ∀ i, (s.workers i).n ≤ LANES
  /-- Every whole request that arrives is accepted, in this order, or still in the socket. -/
  accepted : s.shared.accepted ++ s.shared.queue.filter Datagram.whole = (arrivals es).filter Datagram.whole
  /-- No answer without its request, and none twice. -/
  sent : (s.shared.sent : Multiset (Addr × Response)) ≤ answers s.shared.accepted
  /-- Between batches none is missing. -/
  idle : (∀ i, (s.workers i).phase = .idle) →
    (s.shared.sent : Multiset (Addr × Response)) = answers s.shared.accepted
  /-- After enough turns everything is answered. -/
  rest : ∃ k, ∀ rounds : List (List (Event W)), (∀ r ∈ rounds, Turns r) → k ≤ rounds.length →
    (s.run rounds.flatten).Rest ∧ ((s.run rounds.flatten).shared.sent : Multiset (Addr × Response)) =
      answers ((arrivals es).filter Datagram.whole)

/-- **Exactly one answer to each request, to its sender.** -/
theorem exactly_once (hg : Computes good) (hW : 0 < W) (cpus : Fin W → CPU D) (hcpus : ∀ i, good (cpus i))
    (p : Fin W → Nat → Pending) (resp : Fin W → Nat → Response) (isboost : Bool) (es : List (Event W)) :
    Served es ((start cpus p resp isboost).run es) := by
  obtain ⟨hinv, hreq⟩ := run_inv hg es (start_inv hcpus p resp isboost)
  generalize (start cpus p resp isboost).run es = s at hinv hreq
  have hreq : requests s.shared = (arrivals es).filter Datagram.whole := hreq.trans (List.nil_append _)
  refine ⟨fun i => (hinv.workers i).bound, hreq, ?_, hinv.sent_of_idle, s.load,
    fun rounds hturns hload => ?_⟩
  · rw [← hinv.logs]
    exact Multiset.le_add_right _ _
  · have hrest := rest_of_turns hg hW rounds hinv hturns hload
    obtain ⟨hinv', hreq'⟩ := run_inv hg rounds.flatten hinv
    refine ⟨hrest, ?_⟩
    rw [hinv'.sent_of_idle hrest.idle]
    rw [Turns.arrivals_flatten rounds hturns, List.filter_nil, List.append_nil, hreq] at hreq'
    refine congrArg answers (Eq.trans ?_ hreq')
    unfold requests
    rw [hrest.queue, List.filter_nil, List.append_nil]

end

/-! ## On flash -/

section
variable {rom : List RomT} {net : Netlist} {cells : List Cell} {last : Int} {l0 l1 : Lane}
  (hc : RoundCode rom net cells last l0 l1)
include hc

theorem between_computes : Computes (CPU.Between rom) where
  keeps c h inA inB := by
    obtain ⟨c', hrun, hb, -⟩ := h.round hc inA inB (Nat.le_refl _)
    have hround : (c.setIn inA inB).round = c' := congrArg Prod.snd hrun
    rw [hround]
    exact hb
  answers c h inA inB := by
    obtain ⟨c', hrun, -, hsub⟩ := h.round hc inA inB (Nat.le_refl _)
    have hround : (c.setIn inA inB).round = c' := congrArg Prod.snd hrun
    rw [hround]
    exact hsub.boost

end

/-- Two workers on erased flash. -/
theorem exactly_once_two : ∃ c g',
    CPU.new ⟨0, 0⟩ (.replicate ROM_SIZE 0) (⟨fun _ => 0xff, 786432⟩ : Flash) = some (c, g') ∧
      ∀ (p : Fin 2 → Nat → Pending) (resp : Fin 2 → Nat → Response) (es : List (Event 2)),
        Served es ((start (fun _ => c) p resp false).run es) := by
  obtain ⟨rom, g', net, cells, last, l0, l1, hc, hinit⟩ := romInit_spec
  have hs : SizeOk 786432 := ⟨by decide, by decide, by decide⟩
  obtain ⟨c, hnew, hr⟩ := CPU.new_ready ((CPU.flash_flat 786432).boot hs) hs
    (fun _ ho _ => (CPU.flash_flat 786432).erased ho) hc.linked.size hinit ⟨0, 0⟩ (.replicate ROM_SIZE 0)
    (d := ⟨fun _ => 0xff, 786432⟩) rfl
  refine ⟨c, g', hnew, fun p resp es => ?_⟩
  exact exactly_once (between_computes hc) (by decide) _ (fun _ => ⟨786432, 0, hs, hr⟩) p resp false es

end Pool

end NandServer
