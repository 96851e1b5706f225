import HsqOverNand.Lib.Fifo
import HsqOverNand.Lib.Polling
import HsqOverNand.Lib.Runs
import HsqOverNand.Qspi.Driver

/-!
# The polling loops of the HAT driver (`src/qspi/w25n_pio.c`)

The loops that move words between memory and a FIFO of the PIO: `qtxBulkLoop`, `rxBulkLoop` and `quadReadBufLoop`.
The state machine takes words from the TX FIFO, or fills the RX FIFO (and waits while it is full),
between any two steps of the host.

* `TxLoop.sim`, `RxLoop.sim`: the steps of a loop are `Polling.Step`s.
* `polling_loops`: no put into a full FIFO and no get from an empty one; a send that ends has put its
  words, a receive that ends has the first words of the state machine, in order; a loop ends, with a
  timeout only after more than `IDLE_MAX` polls without progress.
* `Dev.qtxBulk_loop`, `Pins.quadUnpack_loop`: what `Dev.TxEnv` says of a failed send, and the bytes of a
  quad read, are those of the loops.

The sleeps are left out.
-/

set_option autoImplicit false

namespace NandServer

/-- The limit of `idle`. -/
def IDLE_MAX : Nat := 100000

/-- What a loop does to the PIO, with the level of the FIFO at that time. -/
inductive FifoAccess
  | level (lvl : Nat)
  | put (lvl : Nat) (w : Word)
  | get (lvl : Nat)

inductive LoopPc
  /-- `while (sent < nwords)`, `while (got < ...)` -/
  | outer
  /-- The inner loop, with its counter. -/
  | inner (lvl : Nat)
  | done
  | timeout

/-! ## Sending -/

/-- The polling loop of `qtx_bulk`. -/
structure TxLoop (depth : Nat) where
  pc : LoopPc
  sent : Nat
  idle : Nat
  fifo : Fifo Word depth
  log : List FifoAccess

inductive TxEvent
  | host
  /-- The state machine takes a word, if there is one. -/
  | drive

def TxEvent.isHost : TxEvent → Bool
  | host => true
  | drive => false

namespace TxLoop

variable {depth : Nat}

def host (words : List Word) (s : TxLoop depth) : TxLoop depth :=
  match s.pc with
  | .outer =>
    if s.sent < words.length then
      let lvl := s.fifo.level
      let s : TxLoop depth := { s with log := s.log ++ [.level lvl] }
      if depth ≤ lvl then
        let s : TxLoop depth := { s with idle := s.idle + 1 }
        if IDLE_MAX < s.idle then { s with pc := .timeout } else s
      else { s with idle := 0, pc := .inner lvl }
    else { s with pc := .done }
  | .inner lvl =>
    if lvl < depth ∧ s.sent < words.length then
      let w := words.getD s.sent 0
      { s with
        pc := .inner (lvl + 1)
        sent := s.sent + 1
        fifo := s.fifo.put w
        log := s.log ++ [.put s.fifo.level w] }
    else { s with pc := .outer }
  | .done | .timeout => s

def step (words : List Word) (s : TxLoop depth) : TxEvent → TxLoop depth
  | .host => s.host words
  | .drive => { s with fifo := s.fifo.drain }

def start (fifo : Fifo Word depth) : TxLoop depth := ⟨.outer, 0, 0, fifo, []⟩

end TxLoop

/-- The loop of `qtx_bulk` on these words. -/
def qtxBulkLoop {depth : Nat} (fifo : Fifo Word depth) (words : List Word) (es : List TxEvent) : TxLoop depth :=
  es.foldl (TxLoop.step words) (.start fifo)

/-! ## Receiving -/

/-- The polling loops of `rx_bulk` and `w25n_quad_read_buf`. -/
structure RxLoop (depth : Nat) where
  pc : LoopPc
  got : Nat
  idle : Nat
  /-- `d->words` -/
  words : Nat → Word
  fifo : Fifo Word depth
  log : List FifoAccess

inductive RxEvent
  /-- `junk` is what an empty FIFO would give. -/
  | host (junk : Word)
  /-- The state machine produces a word, if there is room. -/
  | produce (w : Word)

def RxEvent.isHost : RxEvent → Bool
  | host _ => true
  | produce _ => false

namespace RxLoop

variable {depth : Nat}

def host (n : Nat) (junk : Word) (s : RxLoop depth) : RxLoop depth :=
  match s.pc with
  | .outer =>
    if s.got < n then
      let lvl := s.fifo.level
      let s : RxLoop depth := { s with log := s.log ++ [.level lvl] }
      if lvl = 0 then
        let s : RxLoop depth := { s with idle := s.idle + 1 }
        if IDLE_MAX < s.idle then { s with pc := .timeout } else s
      else { s with idle := 0, pc := .inner lvl }
    else { s with pc := .done }
  | .inner lvl =>
    -- `lvl--` makes 0 the largest number, but the loop is left
    if lvl ≠ 0 ∧ s.got < n then
      let r := s.fifo.take.getD (junk, s.fifo)
      { s with
        pc := .inner (lvl - 1)
        got := s.got + 1
        words := Function.update s.words s.got r.1
        fifo := r.2
        log := s.log ++ [.get s.fifo.level] }
    else { s with pc := .outer }
  | .done | .timeout => s

def step (n : Nat) (s : RxLoop depth) : RxEvent → RxLoop depth
  | .host junk => s.host n junk
  | .produce w => { s with fifo := s.fifo.put w }

/-- After `pio_sm_init`, which clears the FIFO. -/
def start (words : Nat → Word) : RxLoop depth := ⟨.outer, 0, 0, words, .empty, []⟩

end RxLoop

/-- The loop of `rx_bulk`. -/
def rxBulkLoop (depth len : Nat) (words : Nat → Word) (es : List RxEvent) : RxLoop depth :=
  es.foldl (RxLoop.step (len / 4)) (.start words)

/-- The loop of `w25n_quad_read_buf`. -/
def quadReadBufLoop (depth len : Nat) (words : Nat → Word) (es : List RxEvent) : RxLoop depth :=
  es.foldl (RxLoop.step (2 * len)) (.start words)

/-! ## The loops poll -/

def LoopPc.abs (room : Nat → Nat) : LoopPc → Polling.Pc
  | outer => .poll
  | inner lvl => .burst (room lvl)
  | done => .done
  | timeout => .timeout

def FifoAccess.abs (room : Nat → Nat) : FifoAccess → Polling.Access
  | level lvl => .poll (room lvl)
  | put lvl _ | get lvl => .move (room lvl)

section
variable {depth : Nat}

open Polling (Channel State Step Inv)

namespace TxLoop

def channel (words : List Word) : Channel (Fifo Word depth) where
  room f := depth - f.level
  move i f f' := f' = f.put (words.getD i 0)
  other f f' := f' = f.drain
  room_move := by
    rintro i f _ rfl
    have := f.level_put_le (x := words.getD i 0)
    omega
  room_other := by
    rintro f _ rfl
    have := f.level_drain_le
    omega

def abs (s : TxLoop depth) : State (Fifo Word depth) where
  pc := s.pc.abs (depth - ·)
  moved := s.sent
  idle := s.idle
  chan := s.fifo
  log := s.log.map (FifoAccess.abs (depth - ·))

theorem sim (words : List Word) (s : TxLoop depth) (e : TxEvent) :
    Step (channel words) IDLE_MAX words.length s.abs e.isHost (s.step words e).abs := by
  cases e with
  | drive => exact .other _ rfl
  | host =>
    show Step _ _ _ s.abs true (s.host words).abs
    cases hpc : s.pc with
    | outer =>
      have hsample : (s.host words).abs = s.abs.sample (channel words) IDLE_MAX words.length := by
        unfold host State.sample
        simp only [hpc, abs, channel, Nat.sub_eq_zero_iff_le]
        split
        · split
          · rename_i hfull
            split <;> simp [LoopPc.abs, FifoAccess.abs, Nat.sub_eq_zero_of_le hfull]
          · simp [LoopPc.abs, FifoAccess.abs]
        · rfl
      rw [hsample]
      exact .sample (by simp [abs, hpc, LoopPc.abs])
    | inner lvl =>
      have hburst : s.abs.pc = .burst (depth - lvl) := by simp [abs, hpc, LoopPc.abs]
      by_cases hmore : lvl < depth ∧ s.sent < words.length
      · obtain ⟨k, hk⟩ := Nat.exists_eq_add_of_lt hmore.1
        have hstep : (s.host words).abs = { s.abs with
            pc := .burst k, moved := s.sent + 1, chan := s.fifo.put (words.getD s.sent 0)
            log := s.abs.log ++ [.move (depth - s.fifo.level)] } := by
          have hnext : depth - (lvl + 1) = k := by omega
          simp [host, abs, hpc, hmore, hnext, LoopPc.abs, FifoAccess.abs]
        rw [hstep]
        refine .move k _ (hburst.trans ?_) hmore.2 rfl
        rw [show depth - lvl = k + 1 by omega]
      · have hstep : (s.host words).abs = { s.abs with pc := .poll } := by
          simp only [host, abs, hpc, hmore, if_false, LoopPc.abs]
        rw [hstep]
        refine .again _ hburst ?_
        show depth - lvl = 0 ∨ words.length ≤ s.sent
        omega
    | done =>
      have hstep : s.host words = s := by simp only [host, hpc]
      rw [hstep]
      exact .ended (.inl (by simp [abs, hpc, LoopPc.abs]))
    | timeout =>
      have hstep : s.host words = s := by simp only [host, hpc]
      rw [hstep]
      exact .ended (.inr (by simp [abs, hpc, LoopPc.abs]))

/-- With the words that were sent. -/
structure Inv (fifo : Fifo Word depth) (words : List Word) (s : TxLoop depth) : Prop where
  polls : Polling.Inv (channel words) IDLE_MAX words.length s.abs
  inn : s.fifo.inn = fifo.inn ++ words.take s.sent

theorem Inv.step {fifo : Fifo Word depth} {words : List Word} {s : TxLoop depth}
    (h : s.Inv fifo words) (e : TxEvent) : (s.step words e).Inv fifo words := by
  refine ⟨h.polls.step (s.sim words e), ?_⟩
  cases e with
  | drive => exact (Fifo.drain_inn).trans h.inn
  | host =>
    show (s.host words).fifo.inn = fifo.inn ++ words.take (s.host words).sent
    unfold host
    split
    · dsimp only
      split
      · split
        · split <;> exact h.inn
        · exact h.inn
      · exact h.inn
    · rename_i lvl hpc
      split
      · rename_i hmore
        have hburst := (h.polls.burst (depth - lvl) (by simp [abs, hpc, LoopPc.abs])).1
        have hlvl : s.fifo.level < depth := by
          have : depth - lvl ≤ depth - s.fifo.level := hburst
          omega
        show (s.fifo.put (words.getD s.sent 0)).inn = fifo.inn ++ words.take (s.sent + 1)
        rw [Fifo.put_inn hlvl, h.inn, List.take_add_one, List.append_assoc,
          List.getD_eq_getElem?_getD, List.getElem?_eq_getElem hmore.2]
        rfl
      · exact h.inn
    · exact h.inn
    · exact h.inn

end TxLoop

namespace RxLoop

def channel : Channel (Fifo Word depth × (Nat → Word)) where
  room c := c.1.level
  move i c c' := ∃ junk, c' =
    ((c.1.take.getD (junk, c.1)).2, Function.update c.2 i (c.1.take.getD (junk, c.1)).1)
  other c c' := ∃ w, c' = (c.1.put w, c.2)
  room_move := by
    rintro i c _ ⟨junk, rfl⟩
    cases htake : c.1.take with
    | none => exact Nat.le_succ _
    | some r => exact (Fifo.take_spec htake).2.2.le
  room_other := by
    rintro c _ ⟨w, rfl⟩
    exact Fifo.level_le_put

def abs (s : RxLoop depth) : State (Fifo Word depth × (Nat → Word)) where
  pc := s.pc.abs id
  moved := s.got
  idle := s.idle
  chan := (s.fifo, s.words)
  log := s.log.map (FifoAccess.abs id)

theorem sim (n : Nat) (s : RxLoop depth) (e : RxEvent) :
    Step channel IDLE_MAX n s.abs e.isHost (s.step n e).abs := by
  cases e with
  | produce w => exact .other _ ⟨w, rfl⟩
  | host junk =>
    show Step _ _ _ s.abs true (s.host n junk).abs
    cases hpc : s.pc with
    | outer =>
      have hsample : (s.host n junk).abs = s.abs.sample channel IDLE_MAX n := by
        unfold host State.sample
        simp only [hpc, abs, channel]
        split
        · split
          · rename_i hempty
            split <;> simp [LoopPc.abs, FifoAccess.abs, hempty]
          · simp [LoopPc.abs, FifoAccess.abs]
        · rfl
      rw [hsample]
      exact .sample (by simp [abs, hpc, LoopPc.abs])
    | inner lvl =>
      have hburst : s.abs.pc = .burst lvl := by simp [abs, hpc, LoopPc.abs]
      by_cases hmore : lvl ≠ 0 ∧ s.got < n
      · obtain ⟨k, rfl⟩ := Nat.exists_eq_succ_of_ne_zero hmore.1
        have hstep : (s.host n junk).abs = { s.abs with
            pc := .burst k, moved := s.got + 1
            chan := ((s.fifo.take.getD (junk, s.fifo)).2,
              Function.update s.words s.got (s.fifo.take.getD (junk, s.fifo)).1)
            log := s.abs.log ++ [.move s.fifo.level] } := by
          simp [host, abs, hpc, hmore.2, LoopPc.abs, FifoAccess.abs]
        rw [hstep]
        exact .move k _ hburst hmore.2 ⟨junk, rfl⟩
      · have hstep : (s.host n junk).abs = { s.abs with pc := .poll } := by
          simp only [host, abs, hpc, hmore, if_false, LoopPc.abs]
        rw [hstep]
        refine .again _ hburst ?_
        show lvl = 0 ∨ n ≤ s.got
        omega
    | done =>
      have hstep : s.host n junk = s := by simp only [host, hpc]
      rw [hstep]
      exact .ended (.inl (by simp [abs, hpc, LoopPc.abs]))
    | timeout =>
      have hstep : s.host n junk = s := by simp only [host, hpc]
      rw [hstep]
      exact .ended (.inr (by simp [abs, hpc, LoopPc.abs]))

/-- With the words that were received. -/
structure Inv (n : Nat) (s : RxLoop depth) : Prop where
  polls : Polling.Inv channel IDLE_MAX n s.abs
  out : s.fifo.out = (List.range s.got).map s.words

theorem Inv.step {n : Nat} {s : RxLoop depth} (h : s.Inv n) (e : RxEvent) : (s.step n e).Inv n := by
  refine ⟨h.polls.step (s.sim n e), ?_⟩
  cases e with
  | produce w => exact (Fifo.put_out).trans h.out
  | host junk =>
    show (s.host n junk).fifo.out = (List.range (s.host n junk).got).map (s.host n junk).words
    unfold host
    split
    · dsimp only
      split
      · split
        · split <;> exact h.out
        · exact h.out
      · exact h.out
    · rename_i lvl hpc
      split
      · rename_i hmore
        have hburst := (h.polls.burst lvl (by simp [abs, hpc, LoopPc.abs])).1
        have hlvl : 0 < s.fifo.level := by
          have : lvl ≤ s.fifo.level := hburst
          omega
        obtain ⟨w, f', htake⟩ := Fifo.take_of_pos hlvl
        have hold : (List.range s.got).map (Function.update s.words s.got w) =
            (List.range s.got).map s.words :=
          List.map_congr_left fun i hi =>
            Function.update_of_ne (Nat.ne_of_lt (List.mem_range.1 hi)) _ _
        simp only [htake, Option.getD_some]
        rw [(Fifo.take_spec htake).1, h.out, List.range_succ, List.map_append, hold, List.map_singleton,
          Function.update_self]
      · exact h.out
    · exact h.out
    · exact h.out

end RxLoop

/-! ## Runs -/

/-- A loop that timed out: its last accesses are more than `IDLE_MAX` polls of this kind. -/
def TimedOut (log : List FifoAccess) (stuck : Nat → Prop) : Prop :=
  ∃ pre polls, log = pre ++ polls ∧ IDLE_MAX < polls.length ∧ ∀ a ∈ polls, ∃ lvl, a = .level lvl ∧ stuck lvl

theorem timedOut {σ : Type} {C : Channel σ} {n : Nat} {t : State σ} (h : Inv C IDLE_MAX n t)
    (hpc : t.pc = .timeout) {room : Nat → Nat} {log : List FifoAccess}
    (hlog : t.log = log.map (FifoAccess.abs room)) : TimedOut log fun lvl => room lvl = 0 := by
  obtain ⟨pre, hpre⟩ := h.idle
  obtain ⟨pre', polls, hsplit, -, hpolls⟩ := List.map_eq_append_iff.1 (hlog.symm.trans hpre)
  refine ⟨pre', polls, hsplit, ?_, fun a ha => ?_⟩
  · rw [← List.length_map (FifoAccess.abs room), hpolls, List.length_replicate]
    exact h.timeout hpc
  · have hmem : a.abs room ∈ List.replicate t.idle (.poll 0) := by
      rw [← hpolls]
      exact List.mem_map_of_mem ha
    have hidle : a.abs room = .poll 0 := List.eq_of_mem_replicate hmem
    cases a with
    | level lvl => exact ⟨lvl, rfl, Polling.Access.poll.inj hidle⟩
    | put lvl w => cases hidle
    | get lvl => cases hidle

/-- So many steps the host makes at most for `n` words. -/
def loopSteps (n : Nat) : Nat := n * (IDLE_MAX + 3) + IDLE_MAX + 2

def LoopPc.Over (pc : LoopPc) : Prop := pc = .done ∨ pc = .timeout

theorem LoopPc.over_of_abs {room : Nat → Nat} {pc : LoopPc}
    (h : pc.abs room = .done ∨ pc.abs room = .timeout) : pc.Over := by
  cases pc with
  | outer => rcases h with h | h <;> cases h
  | inner lvl => rcases h with h | h <;> cases h
  | done => exact .inl rfl
  | timeout => exact .inr rfl

structure TxOk (fifo : Fifo Word depth) (words : List Word) (es : List TxEvent) (s : TxLoop depth) :
    Prop where
  /-- No put into a full FIFO. -/
  put : ∀ lvl w, .put lvl w ∈ s.log → lvl < depth
  done : s.pc = .done → s.sent = words.length ∧ s.fifo.inn = fifo.inn ++ words
  timeout : s.pc = .timeout → TimedOut s.log (depth ≤ ·)
  stops : loopSteps words.length ≤ es.countP TxEvent.isHost → s.pc.Over

structure RxOk (n : Nat) (es : List RxEvent) (s : RxLoop depth) : Prop where
  /-- No get from an empty FIFO. -/
  get : ∀ lvl, .get lvl ∈ s.log → 0 < lvl
  done : s.pc = .done → s.got = n ∧ n ≤ s.fifo.inn.length ∧ (List.range n).map s.words = s.fifo.inn.take n
  timeout : s.pc = .timeout → TimedOut s.log (· = 0)
  stops : loopSteps n ≤ es.countP RxEvent.isHost → s.pc.Over

theorem qtxBulkLoop_inv (fifo : Fifo Word depth) (words : List Word) (es : List TxEvent) :
    (qtxBulkLoop fifo words es).Inv fifo words :=
  List.foldlRecOn (motive := TxLoop.Inv fifo words) es (TxLoop.step words)
    ⟨.start fifo, (List.append_nil _).symm⟩ fun _ h e _ => h.step e

theorem qtxBulkLoop_ok (fifo : Fifo Word depth) (words : List Word) (es : List TxEvent) :
    TxOk fifo words es (qtxBulkLoop fifo words es) := by
  have hinv := qtxBulkLoop_inv fifo words es
  have htodo := Runs.todo_foldl (fun s : TxLoop depth => s.abs.todo IDLE_MAX words.length)
    TxEvent.isHost (fun s e => (s.sim words e).todo) es (.start fifo)
  change (qtxBulkLoop fifo words es).abs.todo IDLE_MAX words.length ≤ loopSteps words.length - _ at htodo
  generalize qtxBulkLoop fifo words es = s at hinv htodo
  refine ⟨fun lvl w hm => ?_, fun hd => ?_, fun ht => ?_, fun hstop => ?_⟩
  · have hroom := hinv.polls.room (depth - lvl) (List.mem_map.2 ⟨_, hm, rfl⟩)
    omega
  · have hsent : s.sent = words.length := hinv.polls.done (by simp [TxLoop.abs, hd, LoopPc.abs])
    refine ⟨hsent, ?_⟩
    rw [hinv.inn, hsent, List.take_length]
  · obtain ⟨pre, polls, hlog, hlen, hpolls⟩ :=
      timedOut hinv.polls (by simp [TxLoop.abs, ht, LoopPc.abs]) rfl
    refine ⟨pre, polls, hlog, hlen, fun a ha => ?_⟩
    obtain ⟨lvl, rfl, hzero⟩ := hpolls a ha
    exact ⟨lvl, rfl, Nat.le_of_sub_eq_zero hzero⟩
  · have hzero : s.abs.todo IDLE_MAX words.length = 0 := by omega
    exact LoopPc.over_of_abs (State.over_of_todo hzero)

theorem RxOk.word {n : Nat} {es : List RxEvent} {s : RxLoop depth} (h : RxOk n es s) (hdone : s.pc = .done)
    {k : Nat} (hk : k < n) : s.words k = s.fifo.inn.getD k 0 := by
  have hget := congrArg (·[k]?) (h.done hdone).2.2
  rw [List.getD_eq_getElem?_getD]
  simpa [hk] using congrArg (Option.getD · 0) hget

theorem rx_inv (n : Nat) (words : Nat → Word) (es : List RxEvent) :
    (es.foldl (RxLoop.step n) (.start words : RxLoop depth)).Inv n :=
  List.foldlRecOn (motive := RxLoop.Inv n) es (RxLoop.step n) ⟨.start _, rfl⟩ fun _ h e _ => h.step e

theorem rx_ok (n : Nat) (words : Nat → Word) (es : List RxEvent) :
    RxOk n es (es.foldl (RxLoop.step n) (.start words : RxLoop depth)) := by
  have hinv : (es.foldl (RxLoop.step n) (.start words : RxLoop depth)).Inv n := rx_inv n words es
  have htodo := Runs.todo_foldl (fun s : RxLoop depth => s.abs.todo IDLE_MAX n)
    RxEvent.isHost (fun s e => (s.sim n e).todo) es (.start words)
  change _ ≤ loopSteps n - _ at htodo
  generalize es.foldl (RxLoop.step n) (.start words : RxLoop depth) = s at hinv htodo
  refine ⟨fun lvl hm => ?_, fun hd => ?_, fun ht => ?_, fun hstop => ?_⟩
  · exact hinv.polls.room lvl (List.mem_map.2 ⟨_, hm, rfl⟩)
  · have hgot : s.got = n := hinv.polls.done (by simp [RxLoop.abs, hd, LoopPc.abs])
    have hlen : s.fifo.out.length = n := by rw [hinv.out, List.length_map, List.length_range, hgot]
    refine ⟨hgot, ?_, ?_⟩
    · rw [← s.fifo.flow, List.length_append]
      omega
    · rw [← hgot, ← hinv.out, hgot, ← hlen]
      exact Fifo.out_eq_take
  · exact timedOut hinv.polls (by simp [RxLoop.abs, ht, LoopPc.abs]) rfl
  · have hzero : s.abs.todo IDLE_MAX n = 0 := by omega
    exact LoopPc.over_of_abs (State.over_of_todo hzero)

end

/-- **Nothing is lost, sent twice or out of order, and the loops end.** -/
theorem polling_loops (depth : Nat) :
    (∀ (fifo : Fifo Word depth) (words : List Word) (es : List TxEvent),
      TxOk fifo words es (qtxBulkLoop fifo words es)) ∧
    (∀ (len : Nat) (words : Nat → Word) (es : List RxEvent),
      RxOk (len / 4) es (rxBulkLoop depth len words es)) ∧
    (∀ (len : Nat) (words : Nat → Word) (es : List RxEvent),
      RxOk (2 * len) es (quadReadBufLoop depth len words es)) :=
  ⟨qtxBulkLoop_ok, fun len => rx_ok (len / 4), fun len => rx_ok (2 * len)⟩

/-! ## The calls -/

section
variable {depth : Nat}

/-- What was driven and what is queued, in the words of the call. -/
theorem qtxBulkLoop_words (words : List Word) (es : List TxEvent) {t : TxLoop depth}
    (ht : t = qtxBulkLoop .empty words es) : words.take t.fifo.out.length = t.fifo.out ∧
      (words.drop t.fifo.out.length).take t.fifo.queue.length = t.fifo.queue := by
  have hinv : t.Inv .empty words := by
    rw [ht]
    exact qtxBulkLoop_inv .empty words es
  have hinn : t.fifo.inn = words.take t.sent := hinv.inn
  have hflow := t.fifo.flow
  rw [hinn] at hflow
  have hpre : t.fifo.out ++ t.fifo.queue <+: words := hflow ▸ List.take_prefix _ _
  obtain ⟨rest, hrest⟩ := hpre
  rw [← hrest, List.append_assoc, List.take_left, List.drop_left, List.take_left]
  exact ⟨rfl, rfl⟩

/-- A failed send leaves the latches and the FIFO as its loop does. -/
theorem Dev.qtxBulk_loop (d : Dev) (s : Bus) (h : Nat) (data : List Byte) (env : Dev.TxEnv)
    (es : List TxEvent) {t : TxLoop depth}
    (ht : t = qtxBulkLoop .empty (d.pins.qtxWords (s.others h) data) es)
    (hfail : ((d.enterMode s .qtx).1.setupDma env).sendOk env = false)
    (hdriven : env.driven = t.fifo.out.length) (hqueued : env.queued = t.fifo.queue.length) :
    (d.qtxBulk s h data env).2.2 =
      (t.fifo.out.foldl (Bus.driveWord ((d.enterMode s .qtx).1.setupDma env).pins)
        (d.enterMode s .qtx).2).setSm ((d.enterMode s .qtx).1.setupDma env).sm
          fun m => { m with fifo := t.fifo.queue } := by
  obtain ⟨hout, hqueue⟩ := qtxBulkLoop_words _ es ht
  unfold Dev.qtxBulk
  dsimp only
  rw [if_neg (by rw [hfail]; exact Bool.false_ne_true), hdriven, hqueued, hout, hqueue]

/-- The bytes of a quad read come from the first words that the state machine produced. -/
theorem Pins.quadUnpack_loop (p : Pins) {data : List Byte} (hlen : data.length ≤ BULK_MAX)
    (junk : Nat → Word) (es : List RxEvent) {t : RxLoop depth}
    (ht : t = quadReadBufLoop depth data.length junk es) (hdone : t.pc = .done) {words : Words}
    (hwords : ∀ k, words.get k = t.words k)
    (hbytes : ∀ i < data.length, p.unpackByte (t.fifo.inn.getD (2 * i) 0) (t.fifo.inn.getD (2 * i + 1) 0) =
      data.getD i 0) : p.quadUnpack words data.length = some data := by
  have hok : RxOk (2 * data.length) es t := by
    rw [ht]
    exact rx_ok _ junk es
  refine quadUnpack_eq hlen fun i hi k0 k1 hk0 hk1 => ?_
  rw [hwords, hwords, hok.word hdone (by omega), hok.word hdone (by omega), hk0, hk1]
  exact hbytes i hi

end

end NandServer
