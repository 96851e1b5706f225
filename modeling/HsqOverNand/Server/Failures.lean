import HsqOverNand.Server.Proof.Flat

/-!
# Failing device calls

`Failing`: a flash device on which any call of the calculation phase may fail; a failed call changes
nothing. The server looks at no status there, so a failure that loses something goes into the answers.

* `answers_right`: as long as no failed call loses anything (`lost`), every answer of every batch is
  right.
* `silent_failure`: all calls fail, and a wrong answer is sent.

Until a call loses something the CPU does what it does on the fault-free flash (`instr_follows`,
`round_follows`).
-/

set_option autoImplicit false

namespace NandServer

open NandInterface

structure Failing where
  flash : Flash
  /-- Whether call `n` of the calculation phase fails. -/
  fails : Nat → Bool
  /-- Calls of the calculation phase so far. -/
  calls : Nat
  /-- Before the first erase of the calculation area. -/
  boot : Bool
  /-- A failed call would have changed a cell or the caller's buffer. -/
  lost : Bool

namespace Failing

/-- A call that leads to `flash` if it does not fail. -/
def call (d : Failing) (loses : Bool) (flash : Flash) : Bool × Failing :=
  if d.boot then (true, { d with flash := flash })
  else
    let f := d.fails d.calls
    (!f, { d with
      flash := if f then d.flash else flash
      calls := d.calls + 1
      lost := d.lost || (f && loses) })

def eraseLoses (m : AndMemory.Mem 8) (offset length : Nat) : Bool :=
  (List.range length).any fun i => m (offset + i) ≠ 0xff

def writeLoses {n : Nat} (m : AndMemory.Mem 8) (offset : Nat) (buffer : Vector Byte n) : Bool :=
  (List.finRange n).any fun i => m (offset + i) &&& buffer.get i ≠ m (offset + i)

end Failing

instance : NandInterface Failing where
  erase d offset length := { d with boot := d.boot && decide (offset = 0) }.call
    (Failing.eraseLoses d.flash.mem offset length) (NandInterface.erase d.flash offset length).2
  read {n} d offset buffer :=
    let good := AndMemory.readOut d.flash.mem offset n
    let r := d.call (decide (buffer ≠ good)) d.flash
    (r.1, if r.1 then good else buffer, r.2)
  write d offset buffer := d.call (Failing.writeLoses d.flash.mem offset buffer)
    (NandInterface.write d.flash offset buffer).2
  size d := d.flash.size

namespace Failing

section
variable {d : Failing}

/-- A call that loses nothing has the effect of the successful one. -/
theorem call_kept {loses : Bool} {flash : Flash} (hsame : loses = false → flash = d.flash)
    (h : (d.call loses flash).2.lost = false) : d.lost = false ∧ (d.call loses flash).2.flash = flash := by
  unfold call at h ⊢
  split at h
  · rename_i hb
    rw [if_pos hb]
    exact ⟨h, rfl⟩
  · rename_i hb
    rw [if_neg hb]
    simp only [Bool.or_eq_false_iff, Bool.and_eq_false_iff] at h
    refine ⟨h.1, ?_⟩
    show (if d.fails d.calls then d.flash else flash) = flash
    split
    · rename_i hf
      exact (hsame (h.2.resolve_left (by rw [hf]; decide))).symm
    · rfl

/-- A failed call that loses nothing had nothing to do. -/
theorem call_failed {loses : Bool} {flash : Flash} (hst : (d.call loses flash).1 = false)
    (h : (d.call loses flash).2.lost = false) : loses = false := by
  unfold call at h hst
  split at h
  · rename_i hb
    rw [if_pos hb] at hst
    cases hst
  · rename_i hb
    rw [if_neg hb] at hst
    simp only [Bool.or_eq_false_iff, Bool.and_eq_false_iff] at h
    refine h.2.resolve_left ?_
    simpa using hst

theorem erase_kept {offset length : Nat} (h : (NandInterface.erase d offset length).2.lost = false) :
    d.lost = false ∧ (NandInterface.erase d offset length).2.flash =
      (NandInterface.erase d.flash offset length).2 := by
  refine call_kept (fun hl => ?_) h
  have hmem : AndMemory.erase d.flash.mem offset length = d.flash.mem := by
    funext a
    by_cases ha : offset ≤ a ∧ a < offset + length
    · obtain ⟨i, rfl⟩ := Nat.exists_eq_add_of_le ha.1
      have hi := (List.any_eq_false.1 hl) i (List.mem_range.2 (by omega))
      rw [AndMemory.erase_in ha.1 ha.2]
      exact (by simpa using hi : d.flash.mem (offset + i) = 0xff).symm
    · exact AndMemory.erase_other (by omega)
  show ({ d.flash with mem := _ } : Flash) = d.flash
  rw [hmem]

theorem write_kept {n offset : Nat} {buffer : Vector Byte n}
    (h : (NandInterface.write d offset buffer).2.lost = false) :
    d.lost = false ∧ (NandInterface.write d offset buffer).2.flash =
      (NandInterface.write d.flash offset buffer).2 := by
  refine call_kept (fun hl => ?_) h
  have hmem : AndMemory.program d.flash.mem offset buffer = d.flash.mem := by
    refine AndMemory.program_eq_self fun i hi => ?_
    have hi' := (List.any_eq_false.1 hl) ⟨i, hi⟩ (List.mem_finRange _)
    exact (by simpa using hi' : d.flash.mem (offset + i) &&& buffer.get ⟨i, hi⟩ = d.flash.mem (offset + i))
  show ({ d.flash with mem := _ } : Flash) = d.flash
  rw [hmem]

theorem read_kept {n offset : Nat} {buffer : Vector Byte n}
    (h : (NandInterface.read d offset buffer).2.2.lost = false) :
    d.lost = false ∧ (NandInterface.read d offset buffer).2.2.flash = d.flash ∧
      (NandInterface.read d offset buffer).2.1 = (NandInterface.read d.flash offset buffer).2.1 := by
  obtain ⟨hlost, hflash⟩ := call_kept (fun _ => rfl) h
  refine ⟨hlost, hflash, ?_⟩
  show (if (d.call _ d.flash).1 then _ else buffer) = AndMemory.readOut d.flash.mem offset n
  split
  · rfl
  · rename_i hst
    have hloses := call_failed (by simpa using hst) h
    simpa using hloses

end

end Failing

/-! ## Following the fault-free device -/

namespace CPU

/-- The same CPU on another device. -/
def withNand {D E : Type} (c : CPU D) (d : E) : CPU E where
  pc := c.pc
  out := c.out
  inA := c.inA
  inB := c.inB
  signal := c.signal
  isJmp := c.isJmp
  page := c.page
  rom := c.rom
  romSize := c.romSize
  getinCnt := c.getinCnt
  pageOffset := c.pageOffset
  preOffset := c.preOffset
  nandSize := c.nandSize
  nand := d
  shadow := c.shadow

/-- The same CPU on the flash as it is. -/
def onFlash (c : CPU Failing) : CPU Flash := c.withNand c.nand.flash

/-- `c'` has lost nothing: neither had `c`, and the flash CPU goes the same way. -/
def Follows (c c' : CPU Failing) (f' : CPU Flash) : Prop :=
  c'.nand.lost = false → c.nand.lost = false ∧ c'.onFlash = f'

section
variable {c c' : CPU Failing}

/-- Steps that leave the device alone. -/
theorem Follows.pure {f' : CPU Flash} (hnand : c'.nand = c.nand) (h : c'.onFlash = f') : Follows c c' f' :=
  fun hl => ⟨hnand ▸ hl, h⟩

theorem refill_follows : Follows c c.refill c.onFlash.refill := by
  unfold refill
  by_cases hp : c.pc % PAGE_SIZ = 0
  · intro hl
    rw [if_pos hp] at hl ⊢
    obtain ⟨hlost, hflash, hbuf⟩ := Failing.read_kept hl
    refine ⟨hlost, ?_⟩
    rw [if_pos (show c.onFlash.pc % PAGE_SIZ = 0 from hp)]
    unfold onFlash withNand
    dsimp only
    rw [hflash, hbuf]
    rfl
  · rw [if_neg hp, if_neg (show ¬ c.onFlash.pc % PAGE_SIZ = 0 from hp)]
    exact .pure rfl rfl

theorem write_follows (addr : Nat) : Follows c (c.write addr) (c.onFlash.write addr) := by
  intro hl
  unfold write at hl ⊢
  obtain ⟨hw, hrflash, hbuf⟩ := Failing.read_kept hl
  obtain ⟨hlost, hwflash⟩ := Failing.write_kept hw
  refine ⟨hlost, ?_⟩
  unfold onFlash withNand
  dsimp only
  rw [hrflash, hbuf, hwflash]
  rfl

theorem erase_follows : Follows c c.erase c.onFlash.erase := by
  intro hl
  unfold erase at hl ⊢
  obtain ⟨hlost, hflash⟩ := Failing.erase_kept hl
  refine ⟨hlost, ?_⟩
  unfold onFlash withNand
  dsimp only
  rw [hflash]

theorem raise_follows (dest src : Nat) : Follows c (c.raise dest src) (c.onFlash.raise dest src) := by
  unfold raise
  by_cases hlast : dest % LANES = LANES - 1
  · rw [if_pos hlast, if_pos hlast]
    dsimp only
    by_cases hwrap : u32 (u32 (RAM + u32 (c.pageOffset + PAGE_SIZ)) + PAGE_SIZ) > c.nandSize
    · rw [if_pos hwrap, if_pos (show u32 (u32 (RAM + u32 (c.onFlash.pageOffset + PAGE_SIZ)) + PAGE_SIZ) >
        c.onFlash.nandSize from hwrap)]
      exact fun hl => erase_follows hl
    · rw [if_neg hwrap, if_neg (show ¬ u32 (u32 (RAM + u32 (c.onFlash.pageOffset + PAGE_SIZ)) + PAGE_SIZ) >
        c.onFlash.nandSize from hwrap)]
      exact .pure rfl rfl
  · rw [if_neg hlast, if_neg hlast]
    exact .pure rfl rfl

theorem dispatch_follows (code : Opcode) (dest src : Nat) :
    Follows c (c.dispatch code dest src) (c.onFlash.dispatch code dest src) := by
  cases code with
  | mov => exact .pure rfl rfl
  | invMov => exact .pure rfl rfl
  | capIn => exact .pure rfl rfl
  | getIn => exact .pure rfl rfl
  | prgNand => exact write_follows dest
  | pushOut => exact .pure rfl rfl
  | raise => exact raise_follows dest src
  | erase => exact erase_follows

theorem instr_follows : Follows c c.instr c.onFlash.instr := by
  intro hl
  obtain ⟨hf, hexec⟩ := dispatch_follows (c := { c.fetch.2 with signal := false }) _ _ _ hl
  obtain ⟨hlost, hrefill⟩ := refill_follows hf
  refine ⟨hlost, ?_⟩
  have hfetch : c.onFlash.fetch = (c.fetch.1, c.fetch.2.onFlash) := by
    rw [fetch, ← hrefill]
    rfl
  have hinstr : c.onFlash.instr = c.fetch.2.onFlash.execute c.fetch.1 := by rw [instr, hfetch]
  rw [hinstr]
  exact congrArg (fun x : CPU Flash => ({ x with pc := c.fetch.1.next.toNat } : CPU Flash)) hexec

/-- The loop over the instructions. -/
theorem runUntilSignal_follows (n : Nat) (hl : (runUntilSignal n c).2.nand.lost = false) :
    c.nand.lost = false ∧
      runUntilSignal n c.onFlash = ((runUntilSignal n c).1, (runUntilSignal n c).2.onFlash) := by
  induction n generalizing c with
  | zero => exact ⟨hl, rfl⟩
  | succ n ih =>
    unfold runUntilSignal at hl ⊢
    by_cases hsig : c.instr.signal = true
    · rw [if_pos hsig] at hl ⊢
      obtain ⟨hlost, heq⟩ := instr_follows hl
      refine ⟨hlost, ?_⟩
      rw [← heq, if_pos (show c.instr.onFlash.signal = true from hsig)]
    · rw [if_neg hsig] at hl ⊢
      obtain ⟨hlost', hrun⟩ := ih hl
      obtain ⟨hlost, heq⟩ := instr_follows hlost'
      refine ⟨hlost, ?_⟩
      rw [← heq, if_neg (show ¬ c.instr.onFlash.signal = true from hsig), hrun]

theorem round_follows : Follows c c.round c.onFlash.round := by
  intro hl
  obtain ⟨hlost, hrun⟩ := runUntilSignal_follows c.romSize hl
  refine ⟨hlost, ?_⟩
  have hround : c.onFlash.round = (runUntilSignal c.romSize c.onFlash).2 := rfl
  rw [hround, hrun]
  rfl

end

end CPU

/-! ## Construction -/

namespace Failing

/-- A device before its first call. -/
def fresh (flash : Flash) (fails : Nat → Bool) : Failing := ⟨flash, fails, 0, true, false⟩

/-- In the constructor, before the calculation area is erased. -/
structure Booting (size : Nat) (fails : Nat → Bool) (d : Failing) : Prop where
  boot : d.boot = true
  lost : d.lost = false
  size : d.flash.size = size
  fails : d.fails = fails

section
variable {size : Nat} {d : Failing}

theorem call_boot (hb : d.boot = true) (loses : Bool) (flash : Flash) :
    d.call loses flash = (true, { d with flash := flash }) := if_pos hb

theorem call_calc (hb : d.boot = false) (loses : Bool) (flash : Flash) :
    d.call loses flash = (!d.fails d.calls, { d with
      flash := if d.fails d.calls then d.flash else flash
      calls := d.calls + 1
      lost := d.lost || (d.fails d.calls && loses) }) := if_neg (by rw [hb]; decide)

theorem read_boot (hb : d.boot = true) {n : Nat} (offset : Nat) (buf : Vector Byte n) :
    NandInterface.read d offset buf = (true, AndMemory.readOut d.flash.mem offset n, d) := by
  show ((d.call _ d.flash).1, (if (d.call _ d.flash).1 then _ else buf), (d.call _ d.flash).2) = _
  rw [call_boot hb]
  rfl

theorem write_boot (hb : d.boot = true) {n : Nat} (offset : Nat) (buf : Vector Byte n) :
    NandInterface.write d offset buf =
      (true, { d with flash := (NandInterface.write d.flash offset buf).2 }) :=
  call_boot hb _ _

theorem erase_boot (hb : d.boot = true) (length : Nat) : NandInterface.erase d 0 length =
    (true, { d with flash := (NandInterface.erase d.flash 0 length).2 }) := by
  have hsame : ({ d with boot := d.boot && decide (0 = 0) } : Failing) = d := by
    rw [decide_eq_true rfl, Bool.and_true]
  show ({ d with boot := d.boot && decide (0 = 0) } : Failing).call _ _ = _
  rw [hsame]
  exact call_boot hb _ _

/-- The calculation phase starts with the erase of the calculation area. -/
theorem erase_ram (d : Failing) (length : Nat) :
    (NandInterface.erase d RAM length).2.boot = false ∧
      (NandInterface.erase d RAM length).2.fails = d.fails ∧
      ((NandInterface.erase d RAM length).2.flash = d.flash ∨
        (NandInterface.erase d RAM length).2.flash = (NandInterface.erase d.flash RAM length).2) := by
  have hboot : (d.boot && decide (RAM = 0)) = false := by rw [decide_eq_false (by decide), Bool.and_false]
  have herase : NandInterface.erase d RAM length = _ :=
    call_calc (d := { d with boot := d.boot && decide (RAM = 0) }) hboot
      (eraseLoses d.flash.mem RAM length) (NandInterface.erase d.flash RAM length).2
  rw [herase]
  refine ⟨hboot, rfl, ?_⟩
  dsimp only
  split
  · exact .inl rfl
  · exact .inr rfl

theorem boots (fails : Nat → Bool) : CPU.BootDevice (·.flash.mem) (Booting size fails)
    (fun d => d.flash.size = size ∧ d.boot = false) size where
  size_eq _ h := h.size
  read d buf h := by
    rw [read_boot h.boot]
    exact ⟨h, rfl, fun _ _ => rfl⟩
  erase d h := by
    rw [erase_boot h.boot]
    exact ⟨rfl, ⟨h.boot, h.lost, h.size, h.fails⟩,
      fun a ha => AndMemory.erase_in (Nat.zero_le a) (by omega)⟩
  write d buf h := by
    rw [write_boot h.boot]
    exact ⟨⟨h.boot, h.lost, h.size, h.fails⟩, fun a ha => AndMemory.program_zero ha⟩
  eraseCalc d h := by
    obtain ⟨hboot, -, hflash⟩ := erase_ram d (size - RAM)
    rcases hflash with hflash | hflash
    · rw [hflash]
      exact ⟨⟨h.size, hboot⟩, fun _ _ => rfl⟩
    · rw [hflash]
      exact ⟨⟨h.size, hboot⟩, fun a ha => AndMemory.erase_other (.inl ha)⟩

/-! ### A failed erase that had nothing to do -/

/-- In the calculation phase, with no failure ahead. -/
structure Sound (size : Nat) (d : Failing) : Prop where
  boot : d.boot = false
  lost : d.lost = false
  size : d.flash.size = size
  fails : ∀ n, d.calls ≤ n → d.fails n = false

theorem Sound.call (h : Sound size d) (loses : Bool) {flash : Flash} (hsize : flash.size = size) :
    (d.call loses flash).1 = true ∧ (d.call loses flash).2.flash = flash ∧
      Sound size (d.call loses flash).2 := by
  have hok := h.fails d.calls le_rfl
  rw [call_calc h.boot, hok]
  refine ⟨rfl, rfl, h.boot, ?_, hsize, fun n hn => h.fails n (Nat.le_of_succ_le hn)⟩
  rw [Bool.false_and, Bool.or_false]
  exact h.lost

theorem Sound.erase (h : Sound size d) (offset length : Nat) :
    (NandInterface.erase d offset length).1 = true ∧ Sound size (NandInterface.erase d offset length).2 ∧
      (NandInterface.erase d offset length).2.flash.mem = AndMemory.erase d.flash.mem offset length := by
  have hsame : ({ d with boot := d.boot && decide (offset = 0) } : Failing) = d := by
    rw [h.boot, Bool.false_and, ← h.boot]
  have hsize : (NandInterface.erase d.flash offset length).2.size = size := h.size
  obtain ⟨hst, hflash, hsound⟩ := h.call (eraseLoses d.flash.mem offset length) hsize
  have herase : NandInterface.erase d offset length = d.call (eraseLoses d.flash.mem offset length)
      (NandInterface.erase d.flash offset length).2 := by
    show ({ d with boot := d.boot && decide (offset = 0) } : Failing).call _ _ = _
    rw [hsame]
  rw [herase]
  exact ⟨hst, hsound, congrArg Flash.mem hflash⟩

theorem sound_flat (size : Nat) : CPU.FlatDevice (·.flash.mem) (Sound size) size where
  size_eq _ h := h.size
  read_ok _ _ _ _ _ h := (h.call _ h.size).2.2
  read _ _ _ _ _ h := if_pos (h.call _ h.size).1
  read_mem _ _ _ _ _ h := congrArg Flash.mem (h.call _ h.size).2.1
  write_ok d off _ buf _ h :=
    (h.call _ (show (NandInterface.write d.flash off buf).2.size = size from h.size)).2.2
  write d off _ buf _ h := congrArg Flash.mem
    (h.call _ (show (NandInterface.write d.flash off buf).2.size = size from h.size)).2.1
  erase_rom _ h := h.erase 0 ROM_SIZE
  erase_calc _ h := (h.erase RAM _).2

/-- Before the first call of the calculation phase, with a blank calculation area. -/
structure Blank (size : Nat) (fails : Nat → Bool) (d : Failing) : Prop extends Booting size fails d where
  calls : d.calls = 0
  blank : ∀ a, RAM ≤ a → d.flash.mem a = 0xff

/-- Only the erase of the calculation area fails. -/
theorem blank_boots {fails : Nat → Bool} (hfails : ∀ n, 0 < n → fails n = false) :
    CPU.BootDevice (·.flash.mem) (Blank size fails) (Sound size) size where
  size_eq _ h := h.size
  read d buf h := by
    rw [read_boot h.boot]
    exact ⟨h, rfl, fun _ _ => rfl⟩
  erase d h := by
    rw [erase_boot h.boot]
    refine ⟨rfl, ⟨⟨h.boot, h.lost, h.size, h.fails⟩, h.calls, fun a ha => ?_⟩, fun a ha => ?_⟩
    · exact (AndMemory.erase_other (.inr (by omega))).trans (h.blank a ha)
    · exact AndMemory.erase_in (Nat.zero_le a) (by omega)
  write d buf h := by
    rw [write_boot h.boot]
    refine ⟨⟨⟨h.boot, h.lost, h.size, h.fails⟩, h.calls, fun a ha => ?_⟩, fun a ha => AndMemory.program_zero ha⟩
    exact (AndMemory.program_other (.inr (by omega))).trans (h.blank a ha)
  eraseCalc d h := by
    have hboot : (d.boot && decide (RAM = 0)) = false := by rw [decide_eq_false (by decide), Bool.and_false]
    have hloses : eraseLoses d.flash.mem RAM (size - RAM) = false :=
      List.any_eq_false.2 fun i _ => by simpa using h.blank (RAM + i) (Nat.le_add_right _ _)
    have herase : NandInterface.erase d RAM (size - RAM) = _ :=
      call_calc (d := { d with boot := d.boot && decide (RAM = 0) }) hboot
        (eraseLoses d.flash.mem RAM (size - RAM)) (NandInterface.erase d.flash RAM (size - RAM)).2
    rw [herase, hloses]
    refine ⟨⟨hboot, ?_, ?_, fun n hn => ?_⟩, fun a ha => ?_⟩
    · rw [Bool.and_false, Bool.or_false]
      exact h.lost
    · dsimp only
      split
      · exact h.size
      · exact h.size
    · have hn : d.calls + 1 ≤ n := hn
      exact (congrFun h.fails n).trans (hfails n (by omega))
    · dsimp only
      split
      · rfl
      · exact AndMemory.erase_other (.inl ha)

theorem blank_erased {fails : Nat → Bool} (h : Blank size fails d) {a length : Nat} (ha : RAM ≤ a)
    (hlt : a < RAM + length) : (NandInterface.erase d RAM length).2.flash.mem a = 0xff := by
  obtain ⟨-, -, hflash⟩ := erase_ram d length
  rcases hflash with hflash | hflash <;> rw [hflash]
  · exact h.blank a ha
  · exact AndMemory.erase_in ha hlt

end

end Failing

namespace CPU

/-- The batches `(requests, n)` of a worker in CPU mode, one after the other. -/
def serve {D : Type} [NandInterface D] (c : CPU D) (batches : List (Vector Request LANES × Nat)) : CPU D :=
  batches.foldl (fun c b => (c.load b.1 b.2).round) c

section
variable {D : Type} [NandInterface D] {mem : D → AndMemory.Mem 8} {Ok : D → Prop} {rom : List RomT} {net : Netlist}
  {cells : List Cell} {last : Int} {l0 l1 : Lane} {size : Nat} {G : List Nat}
  (hc : RoundCode rom net cells last l0 l1) (hs : SizeOk size) (hd : CalcDevice mem Ok rom size G)
include hc hs hd

/-- **A batch** leads to the next page, with the answers of Boost mode. -/
theorem Ready.batch {k : Nat} {c : CPU D} (h : Ready mem Ok rom size k c) (p : Vector Request LANES) (n : Nat) :
    Ready mem Ok rom size ((k + 1) % pages size) (c.load p n).round ∧
      ∀ i : Fin LANES, i < n → (c.load p n).round.responses.get i = boost (p.get i) := by
  have hin := h.setIn (.ofFn fun i => if i < n then (p.get i).a else 0)
    (.ofFn fun i => if i < n then (p.get i).b else 0)
  obtain ⟨c', hrun, hready, hsub⟩ := round_ready hc hs hd hin (Nat.le_refl _)
  have hround : (c.load p n).round = c' := by
    rw [load, CPU.round, hin.romSize, hrun]
  rw [hround]
  exact ⟨hready, fun i hi => answer_of_load hsub.boost i hi⟩

theorem Ready.serve : ∀ (bs : List (Vector Request LANES × Nat)) {k : Nat} {c : CPU D},
    Ready mem Ok rom size k c → ∃ k', Ready mem Ok rom size k' (c.serve bs)
  | [], _, _, h => ⟨_, h⟩
  | b :: bs, _, _, h => Ready.serve bs (Ready.batch hc hs hd h b.1 b.2).1

end

section
variable {rom : List RomT} {net : Netlist} {cells : List Cell} {last : Int} {l0 l1 : Lane} {size : Nat}
  (hc : RoundCode rom net cells last l0 l1)

/-- Between two batches: if nothing is lost, the flash CPU is between two rounds. -/
abbrev FlashReady (rom : List RomT) (size : Nat) (c : CPU Failing) : Prop :=
  c.nand.lost = false → ∃ k, Ready Flash.mem (WithRom Flash.mem (·.size = size) rom) rom size k c.onFlash

/-- A batch that loses nothing. -/
theorem batch_flash {c : CPU Failing} (p : Vector Request LANES) (n : Nat)
    (hl : (c.load p n).round.nand.lost = false) :
    c.nand.lost = false ∧ (c.load p n).round.onFlash = (c.onFlash.load p n).round :=
  round_follows hl

include hc

theorem FlashReady.batch (hs : SizeOk size) {c : CPU Failing} (h : FlashReady rom size c)
    (p : Vector Request LANES) (n : Nat) (hl : (c.load p n).round.nand.lost = false) :
    (∃ k, Ready Flash.mem (WithRom Flash.mem (·.size = size) rom) rom size k (c.load p n).round.onFlash) ∧
      ∀ i : Fin LANES, i < n → (c.load p n).round.responses.get i = boost (p.get i) := by
  obtain ⟨hlost, hflash⟩ := batch_flash p n hl
  obtain ⟨k, hk⟩ := h hlost
  obtain ⟨hready, hright⟩ := hk.batch hc hs ((flash_flat size).calc hs) p n
  rw [← hflash] at hready hright
  exact ⟨⟨_, hready⟩, hright⟩

theorem FlashReady.serve (hs : SizeOk size) : ∀ (bs : List (Vector Request LANES × Nat)) {c : CPU Failing},
    FlashReady rom size c → FlashReady rom size (c.serve bs)
  | [], _, h => h
  | b :: bs, _, h => FlashReady.serve hs bs fun hl => (FlashReady.batch hc hs h b.1 b.2 hl).1

end

/-- The constructor: its last erase may already lose something. -/
theorem new_flash {rom : List RomT} {size : Nat} (hs : SizeOk size) (hrom : rom.length * 8 ≤ ROM_SIZE)
    {g' : Globals} (hinit : ∀ g, romInit g = some (rom, g')) (g : Globals) (garbage : Vector Byte ROM_SIZE)
    {fails : Nat → Bool} {d : Failing} (hd : Failing.Booting size fails d) :
    ∃ c, CPU.new g garbage d = some (c, g') ∧ FlashReady rom size c := by
  obtain ⟨c, d', hnew, hseat, ⟨⟨hsize, -⟩, hrom⟩, hd', hnand⟩ :=
    new_seated (Failing.boots fails) hs hrom hinit g garbage hd
  refine ⟨c, hnew, fun hl => ⟨0, ⟨hseat.pc, hseat.nandSize, hseat.romSize, hseat.pageOffset, hseat.lt,
    hseat.preOffset⟩, ⟨hsize, hrom⟩, fun a ha hlt => ?_⟩⟩
  rw [hnand] at hl
  have hflash := (Failing.erase_kept hl).2
  show c.nand.flash.mem a = 0xff
  rw [hnand, hflash]
  exact AndMemory.erase_in (by omega) (by omega)

/-- See the module doc. -/
theorem answers_right (g : Globals) (garbage : Vector Byte ROM_SIZE) (flash : Flash)
    (hs : SizeOk flash.size) (fails : Nat → Bool) :
    ∃ c g', CPU.new g garbage (Failing.fresh flash fails) = some (c, g') ∧
      ∀ (past : List (Vector Request LANES × Nat)) (p : Vector Request LANES) (n : Nat),
        ((c.serve past).load p n).round.nand.lost = false →
          ∀ i : Fin LANES, i < n → ((c.serve past).load p n).round.responses.get i = boost (p.get i) := by
  obtain ⟨rom, g', net, cells, last, l0, l1, hc, hinit⟩ := romInit_spec
  obtain ⟨c, hnew, hready⟩ := new_flash hs hc.linked.size hinit g garbage
    (d := Failing.fresh flash fails) ⟨rfl, rfl, rfl, rfl⟩
  refine ⟨c, g', hnew, fun past p n hl => ?_⟩
  exact (FlashReady.batch hc hs (FlashReady.serve hc hs past hready) p n hl).2

/-- **The erase of the calculation area fails on erased flash**: it had nothing to do, so nothing is ever lost,
and every answer of every batch is right. -/
theorem answers_right_erase : ∃ c g',
    CPU.new ⟨0, 0⟩ (.replicate ROM_SIZE 0) (Failing.fresh ⟨fun _ => 0xff, 786432⟩ (· = 0)) = some (c, g') ∧
      ∀ (past : List (Vector Request LANES × Nat)) (p : Vector Request LANES) (n : Nat),
        ((c.serve past).load p n).round.nand.lost = false ∧
          ∀ i : Fin LANES, i < n → ((c.serve past).load p n).round.responses.get i = boost (p.get i) := by
  have hs : SizeOk 786432 := ⟨by decide, by decide, by decide⟩
  obtain ⟨c, g', hnew, hright⟩ := answers_right ⟨0, 0⟩ (.replicate ROM_SIZE 0) ⟨fun _ => 0xff, 786432⟩ hs (· = 0)
  obtain ⟨rom, g'', net, cells, last, l0, l1, hc, hinit⟩ := romInit_spec
  have hfails : ∀ n, 0 < n → decide (n = 0) = false := fun n hn => decide_eq_false (by omega)
  obtain ⟨c', hnew', hready⟩ := new_ready (Failing.blank_boots hfails) hs
    (fun d hd a ha hlt => Failing.blank_erased hd ha (hlt.trans_eq (Nat.add_sub_of_le hs.ram.le).symm))
    hc.linked.size hinit ⟨0, 0⟩ (.replicate ROM_SIZE 0) (d := Failing.fresh ⟨fun _ => 0xff, 786432⟩ (· = 0))
    ⟨⟨rfl, rfl, rfl, rfl⟩, rfl, fun _ _ => rfl⟩
  cases hnew'.symm.trans hnew
  have hd : CalcDevice _ _ rom 786432 _ := (Failing.sound_flat 786432).calc hs
  have hlost (past) (p : Vector Request LANES) (n : Nat) : ((c.serve past).load p n).round.nand.lost = false := by
    obtain ⟨k, hk⟩ := Ready.serve hc hs hd past hready
    exact (hk.batch hc hs hd p n).1.ok.1.lost
  exact ⟨c, g', hnew, fun past p n => ⟨hlost past p n, hright past p n (hlost past p n)⟩⟩

/-! ## All calls fail -/

/-- The ROM buffer is still zero, an operation that moves on to itself. -/
structure Stuck (c : CPU Failing) : Prop where
  boot : c.nand.boot = false
  fails : ∀ n, c.nand.fails n = true
  pc : c.pc = 0
  rom : c.rom = .replicate PAGE_SIZ 0
  out : c.out = .replicate LANES 0

theorem Stuck.refill {c : CPU Failing} (h : Stuck c) : Stuck c.refill := by
  have hread : NandInterface.read c.nand c.pc c.rom = (false, c.rom,
      { c.nand with
        flash := if c.nand.fails c.nand.calls then c.nand.flash else c.nand.flash
        calls := c.nand.calls + 1
        lost := c.nand.lost || (c.nand.fails c.nand.calls &&
          decide (c.rom ≠ AndMemory.readOut c.nand.flash.mem c.pc PAGE_SIZ)) }) := by
    show ((c.nand.call _ _).1, (if (c.nand.call _ _).1 then _ else c.rom), (c.nand.call _ _).2) = _
    rw [Failing.call_calc h.boot, h.fails]
    rfl
  have hrefill : c.refill = { c with
      rom := (NandInterface.read c.nand c.pc c.rom).2.1
      nand := (NandInterface.read c.nand c.pc c.rom).2.2 } := if_pos (by rw [h.pc]; rfl)
  rw [hrefill, hread]
  exact ⟨h.boot, h.fails, h.pc, h.rom, h.out⟩

theorem Stuck.instr {c : CPU Failing} (h : Stuck c) : Stuck c.instr ∧ c.instr.signal = false := by
  have hr := h.refill
  have hword : c.refill.romWord = 0 := by
    have hbytes : (fun k => if h : c.refill.pc % PAGE_SIZ + k < PAGE_SIZ then
        c.refill.rom[c.refill.pc % PAGE_SIZ + k] else 0) = fun _ => (0 : Byte) := by
      funext k
      split
      · rw [getElem_congr_coll hr.rom]
        exact Vector.getElem_replicate _
      · rfl
    rw [romWord, hbytes]
    rfl
  have hop : c.fetch.1 = ⟨.mov, 0, 0, 0⟩ := by
    show unpackWord c.refill.romWord = _
    rw [hword]
    decide
  unfold CPU.instr
  rw [hop]
  exact ⟨⟨hr.boot, hr.fails, rfl, hr.rom, hr.out⟩, rfl⟩

theorem Stuck.run {c : CPU Failing} (h : Stuck c) (n : Nat) : Stuck (runUntilSignal n c).2 := by
  induction n generalizing c with
  | zero => exact h
  | succ n ih =>
    obtain ⟨hi, hsig⟩ := h.instr
    unfold runUntilSignal
    rw [if_neg (by rw [hsig]; decide)]
    exact ih hi

/-- **All calls fail, and the answer to `1 - 0` is 0.** -/
theorem silent_failure : ∃ c g',
    CPU.new ⟨0, 0⟩ (.replicate ROM_SIZE 0) (Failing.fresh ⟨fun _ => 0xff, 786432⟩ fun _ => true) =
      some (c, g') ∧
      (c.load (.replicate LANES ⟨0, 1⟩) 1).round.responses.get 0 ≠ boost ⟨0, 1⟩ := by
  have hs : SizeOk 786432 := ⟨by decide, by decide, by decide⟩
  obtain ⟨rom, g', net, cells, last, l0, l1, hc, hinit⟩ := romInit_spec
  obtain ⟨c, d', hnew, hseat, -, hd', hnand⟩ := new_seated (Failing.boots fun _ => true) hs hc.linked.size
    hinit ⟨0, 0⟩ (.replicate ROM_SIZE 0) (d := Failing.fresh ⟨fun _ => 0xff, 786432⟩ fun _ => true)
    ⟨rfl, rfl, rfl, rfl⟩
  refine ⟨c, g', hnew, fun hresp => ?_⟩
  obtain ⟨hboot, hfails, -⟩ := Failing.erase_ram d' (786432 - RAM)
  obtain ⟨romLen, d, rfl⟩ := new_eq_some hnew
  have hstuck : Stuck (((init romLen d).erase).load (.replicate LANES ⟨0, 1⟩) 1) := by
    refine ⟨?_, fun n => ?_, rfl, rfl, rfl⟩
    · exact (congrArg Failing.boot hnand).trans hboot
    · rw [show (((init romLen d).erase).load (.replicate LANES ⟨0, 1⟩) 1).nand.fails = _ from
        (congrArg Failing.fails hnand).trans (hfails.trans hd'.fails)]
  have hout := (hstuck.run (((init romLen d).erase).load (.replicate LANES ⟨0, 1⟩) 1).romSize).out
  have hone : (((init romLen d).erase).load (.replicate LANES ⟨0, 1⟩) 1).round.out.get 0 = 1 :=
    (congrArg Response.c (Vector.getElem_ofFn (0 : Fin LANES).isLt)).symm.trans (congrArg Response.c hresp)
  have hzero : (((init romLen d).erase).load (.replicate LANES ⟨0, 1⟩) 1).round.out.get 0 = 0 := by
    rw [CPU.round, hout]
    exact Vector.getElem_replicate _
  rw [hzero] at hone
  exact absurd hone (by decide)

end CPU

end NandServer
