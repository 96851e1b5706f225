import HsqOverNand.Qspi.Threads

/-!
# Threads on the HAT

`threads_alone`: one thread for each chip, any calls, any order of their steps: every thread ends with the
answers, and every chip with the contents, of its calls one after the other on a flat memory, as no word
goes out on four lines while another chip is selected; some thread can always go on, and the steps are
bounded.

* `*_alone`: a program by itself does what its function in `Device.lean` does.
* `*_inside`, `calls_guarded`: what each program does under the lock.
-/

set_option autoImplicit false

namespace NandServer

open RwLock (Prog)

namespace BusCode

open RwLock.Prog (Inside Guarded)
open W25NSpiFlashDevice (transmit)

variable {p : Pins} {d : Chip}

/-! ## The driver by itself -/

@[simp] theorem act_alone (a : BusAct) (w : Wire) : (act a).alone (Wire.own p) w = Wire.own p a w := rfl

@[simp] theorem setLine_low (w : Wire) : (setLine false).alone (Wire.own p) w = ((), ⟨w.chip, some ([], [])⟩) := rfl

@[simp] theorem setLine_high (bs : List Byte) (ws : List Word) :
    (setLine true).alone (Wire.own p) ⟨d, some (bs, ws)⟩ = ((), ⟨d.deselect p bs ws, none⟩) := rfl

@[simp] theorem xferByte_alone (b : Byte) (bs : List Byte) (ws : List Word) :
    (xferByte b).alone (Wire.own p) ⟨d, some (bs, ws)⟩ = (d.out bs, ⟨d, some (bs ++ [b], ws)⟩) := by
  have hback : ((d.out bs).setWidth 32).setWidth 8 = d.out bs := by
    apply BitVec.eq_of_getLsbD_eq
    intro i hi
    simp only [BitVec.getLsbD_setWidth]
    simp [hi, show i < 32 by omega]
  exact Prod.ext hback rfl

@[simp] theorem sendBytes_alone (tx bs : List Byte) (ws : List Word) :
    (sendBytes tx).alone (Wire.own p) ⟨d, some (bs, ws)⟩ = ((), ⟨d, some (bs ++ tx, ws)⟩) := by
  induction tx generalizing bs with
  | nil => simp [sendBytes]
  | cons b tx ih => simp [sendBytes, ih]

@[simp] theorem sendWords_alone (xs : List Word) (bs : List Byte) (ws : List Word) :
    (sendWords xs).alone (Wire.own p) ⟨d, some (bs, ws)⟩ = ((), ⟨d, some (bs, ws ++ xs)⟩) := by
  induction xs generalizing ws with
  | nil => simp [sendWords]
  | cons x xs ih => simp [sendWords, Wire.own, ih]

/-- The next `n` bytes of a chip that takes zeros. -/
def outs (d : Chip) (bs : List Byte) (n : Nat) : List Byte :=
  (List.range n).map fun i => d.out (bs ++ List.replicate i 0)

theorem outs_succ (bs : List Byte) (n : Nat) : outs d bs (n + 1) = d.out bs :: outs d (bs ++ [0]) n := by
  unfold outs
  rw [List.range_succ_eq_map, List.map_cons, List.map_map]
  refine congrArg₂ List.cons (congrArg d.out (List.append_nil bs)) (List.map_congr_left fun i _ => ?_)
  simp [List.replicate_succ]

@[simp] theorem receiveBytes_alone (n : Nat) (bs : List Byte) (ws : List Word) :
    (receiveBytes n).alone (Wire.own p) ⟨d, some (bs, ws)⟩ =
      (outs d bs n, ⟨d, some (bs ++ List.replicate n 0, ws)⟩) := by
  induction n generalizing bs with
  | zero => simp [receiveBytes, outs]
  | succ n ih => simp [receiveBytes, ih, outs_succ, List.replicate_succ]

@[simp] theorem receiveWords_alone (n : Nat) (bs : List Byte) (ws : List Word) :
    (receiveWords n).alone (Wire.own p) ⟨d, some (bs, ws)⟩ =
      (W25nPio.rxWords (outs d bs (4 * n)), ⟨d, some (bs ++ List.replicate (4 * n) 0, ws)⟩) := by
  induction n generalizing bs with
  | zero => simp [receiveWords, outs, W25nPio.rxWords]
  | succ n ih =>
    rw [show 4 * (n + 1) = 4 * n + 1 + 1 + 1 + 1 by omega]
    simp [receiveWords, Wire.own, Wire.exchange, ih, outs_succ, List.replicate_succ, W25nPio.rxWords]

@[simp] theorem cmd_alone (tx : List Byte) (n : Nat) :
    (cmd tx n).alone (Wire.own p) ⟨d, none⟩ =
      (outs d tx n, ⟨d.deselect p (tx ++ List.replicate n 0) [], none⟩) := by
  simp [cmd]

theorem deselect_command {op : Byte} (h : op ≠ 0x0f) (h' : op ≠ 0x32) (args : List Byte) (ws : List Word) :
    d.deselect p (op :: args) ws = d.command op args := (if_neg h).trans (if_neg h')

@[simp] theorem writeEnable_alone :
    writeEnable.alone (Wire.own p) ⟨d, none⟩ = ((), ⟨W25nPio.writeEnable d, none⟩) := by
  simp [writeEnable, deselect_command, W25nPio.writeEnable]

@[simp] theorem readStatus_alone : readStatus.alone (Wire.own p) ⟨d, none⟩ =
    ((W25nSpi.readStatus d).1, ⟨(W25nSpi.readStatus d).2, none⟩) := by
  simp [readStatus, outs, Chip.out, Chip.deselect]

@[simp] theorem waitBusy_alone (n : Nat) : (waitBusy n).alone (Wire.own p) ⟨d, none⟩ =
    (((W25nPio.waitBusy n d).1, (W25nPio.waitBusy n d).2.1), ⟨(W25nPio.waitBusy n d).2.2, none⟩) := by
  induction n generalizing d with
  | zero => simp [waitBusy, W25nPio.waitBusy]
  | succ n ih =>
    unfold waitBusy W25nPio.waitBusy
    rw [Prog.alone_bind, readStatus_alone]
    split
    · simp [*]
    · simp [*]

@[simp] theorem blockErase_alone (page : Nat) : (blockErase page).alone (Wire.own p) ⟨d, none⟩ =
    ((W25nPio.blockErase d page).1, ⟨(W25nPio.blockErase d page).2, none⟩) := by
  simp [blockErase, W25nPio.blockErase, deselect_command]

@[simp] theorem programCommit_alone (page : Nat) : (programCommit page).alone (Wire.own p) ⟨d, none⟩ =
    ((W25nPio.programCommit d page).1, ⟨(W25nPio.programCommit d page).2, none⟩) := by
  simp [programCommit, W25nPio.programCommit, deselect_command]

@[simp] theorem pageRead_alone (page : Nat) : (pageRead page).alone (Wire.own p) ⟨d, none⟩ =
    ((W25nPio.pageRead d page).1, ⟨(W25nPio.pageRead d page).2, none⟩) := by
  simp [pageRead, W25nPio.pageRead, deselect_command]

theorem loadData_alone (others : List Pins) (noQuad : Bool) (col : Nat) (data : List Byte) :
    (loadData p others noQuad col data).alone (Wire.own p) ⟨d, none⟩ =
      ((), ⟨W25nPio.loadData p others noQuad d col data, none⟩) := by
  unfold loadData W25nPio.loadData
  rw [Prog.alone_bind, setLine_low]
  split
  · simp [Wire.own, Chip.deselect]
  · simp [deselect_command]

@[simp] theorem programBegin_alone (others : List Pins) (noQuad : Bool) (col : Nat) (data : List Byte) :
    (programBegin p others noQuad col data).alone (Wire.own p) ⟨d, none⟩ =
      ((W25nPio.programBegin p others noQuad d col data).1,
        ⟨(W25nPio.programBegin p others noQuad d col data).2, none⟩) := by
  simp [programBegin, W25nPio.programBegin, loadData_alone]

theorem outs_buffer (hd : d.busy = false) (col len : Nat) :
    outs d (0x03 :: W25nSpi.colBytes col ++ [0x00]) len =
      (List.range len).map fun i => d.buffer (Chip.colOf (.ofNat 8 (col >>> 8)) (.ofNat 8 col) + i) := by
  unfold outs
  apply List.map_congr_left
  intro i _
  simp [W25nSpi.colBytes, Chip.out, hd]

/-- A read of the buffer of a chip that is ready. -/
theorem readBuf_alone (hd : d.busy = false) (col len : Nat) : ∃ data,
    W25nPio.readBuf d col len = some data ∧
    (readBuf col len).alone (Wire.own p) ⟨d, none⟩ = (data, ⟨d, none⟩) := by
  have hsent : ∀ n, d.deselect p (0x03 :: W25nSpi.colBytes col ++ [0x00] ++ List.replicate n 0) [] = d := by
    intro n
    have hop : d.command 0x03 (W25nSpi.colBytes col ++ [0x00] ++ List.replicate n 0) = d := by
      unfold Chip.command
      rw [if_neg (by rw [hd]; decide), if_neg (by decide), if_neg (by decide)]
      split
      · rw [if_neg (by decide), if_neg (by decide), if_neg (by decide)]
      · rfl
    exact (deselect_command (by decide) (by decide) _ _).trans hop
  have hreceived : d.received 0x03 (W25nSpi.colBytes col ++ [0x00]) len =
      some (outs d (0x03 :: W25nSpi.colBytes col ++ [0x00]) len) := by
    rw [outs_buffer hd]
    simp [Chip.received, W25nSpi.colBytes, hd]
  unfold W25nPio.readBuf readBuf
  dsimp only
  rw [hreceived]
  split
  · exact ⟨_, rfl, (cmd_alone _ _).trans (by rw [hsent])⟩
  · next hlen =>
    have hfour : 4 * (len / 4) = len := by omega
    refine ⟨_, rfl, ?_⟩
    simp only [Prog.alone_bind, setLine_low, sendBytes_alone, List.nil_append, receiveWords_alone, hfour,
      setLine_high, hsent, Prog.alone_pure]

theorem pageRead_ready (d : Chip) (page : Nat) :
    (W25nPio.pageRead d page).1 = true ∧ (W25nPio.pageRead d page).2.busy = false := by
  unfold W25nPio.pageRead
  rw [show W25nPio.polls 100000 = 33332 + 1 from rfl, W25nPio.waitBusy_eq]
  exact ⟨rfl, rfl⟩

/-! ## The device by itself -/

theorem readLoop_alone {n : Nat} (length : Nat) : ∀ (e : W25NFlashDevice) (offset : Nat)
    (buffer : Vector Byte n) (pos : Nat),
    (readLoop offset buffer pos length).alone (Wire.own p) ⟨e.chip, none⟩ =
      (((e.readLoop offset buffer pos length).1, (e.readLoop offset buffer pos length).2.1),
        ⟨(e.readLoop offset buffer pos length).2.2.chip, none⟩) ∧
    ∃ c, (e.readLoop offset buffer pos length).2.2 = e.setChip c := by
  induction length using Nat.strongRecOn with
  | ind length ih =>
    intro e offset buffer pos
    unfold readLoop W25NFlashDevice.readLoop
    by_cases h0 : 0 < length
    · have hcol : offset % W25N_PAGE_SIZE < W25N_PAGE_SIZE := Nat.mod_lt _ (by decide)
      rw [if_pos h0, if_pos h0]
      generalize hcnt : min (W25N_PAGE_SIZE - offset % W25N_PAGE_SIZE) length = cnt
      obtain ⟨hok, hready⟩ := pageRead_ready e.chip (offset / W25N_PAGE_SIZE)
      obtain ⟨data, hdata, halone⟩ := readBuf_alone (p := p) hready (offset % W25N_PAGE_SIZE) cnt
      simp only [Prog.alone_bind, pageRead_alone, hok, if_true, halone, hdata]
      exact ih (length - cnt) (by omega) (e.setChip _) _ _ _
    · rw [if_neg h0, if_neg h0]
      exact ⟨rfl, e.chip, rfl⟩

theorem writeLoop_alone {n : Nat} (buffer : Vector Byte n) (length : Nat) : ∀ (e : W25NFlashDevice)
    (offset pos : Nat),
    (writeLoop e.pins e.others e.noQuad offset buffer pos length).alone (Wire.own e.pins) ⟨e.chip, none⟩ =
      ((e.writeLoop offset buffer pos length).1, ⟨(e.writeLoop offset buffer pos length).2.chip, none⟩) ∧
    ∃ c, (e.writeLoop offset buffer pos length).2 = e.setChip c := by
  induction length using Nat.strongRecOn with
  | ind length ih =>
    intro e offset pos
    unfold writeLoop W25NFlashDevice.writeLoop
    by_cases h0 : 0 < length
    · have hcol : offset % W25N_PAGE_SIZE < W25N_PAGE_SIZE := Nat.mod_lt _ (by decide)
      rw [if_pos h0, if_pos h0]
      generalize hcnt : min (W25N_PAGE_SIZE - offset % W25N_PAGE_SIZE) length = cnt
      simp only [hcnt, Prog.alone_bind, Prog.alone_locked, programBegin_alone]
      generalize W25nPio.programBegin e.pins e.others e.noQuad e.chip (offset % W25N_PAGE_SIZE)
        (transmit buffer pos cnt) = l
      split
      · simp only [Prog.alone_bind, Prog.alone_locked, programCommit_alone]
        generalize W25nPio.programCommit l.2 (offset / W25N_PAGE_SIZE) = r
        split
        · exact ih (length - cnt) (by omega) (e.setChip r.2) _ _
        · exact ⟨rfl, r.2, rfl⟩
      · exact ⟨rfl, l.2, rfl⟩
    · rw [if_neg h0, if_neg h0]
      exact ⟨rfl, e.chip, rfl⟩

theorem eraseBlocks_alone (stop : Nat) : ∀ (fuel : Nat) (e : W25NFlashDevice) (off : Nat),
    (eraseBlocks stop fuel off).alone (Wire.own p) ⟨e.chip, none⟩ =
      ((e.eraseBlocks stop fuel off).1, ⟨(e.eraseBlocks stop fuel off).2.chip, none⟩) ∧
    ∃ c, (e.eraseBlocks stop fuel off).2 = e.setChip c
  | 0, e, _ => ⟨rfl, e.chip, rfl⟩
  | fuel + 1, e, off => by
    unfold eraseBlocks W25NFlashDevice.eraseBlocks
    by_cases hlt : off < stop
    · rw [if_pos hlt, if_pos hlt]
      simp only [Prog.alone_bind, blockErase_alone]
      split
      · exact eraseBlocks_alone stop fuel (e.setChip _) _
      · exact ⟨rfl, _, rfl⟩
    · rw [if_neg hlt, if_neg hlt]
      exact ⟨rfl, e.chip, rfl⟩

theorem call_alone (e : W25NFlashDevice) (c : DeviceCall) :
    (call e.pins e.others e.noQuad c).alone (Wire.own e.pins) ⟨e.chip, none⟩ =
      ((c.onHat e).1, ⟨(c.onHat e).2.chip, none⟩) ∧ ∃ x, (c.onHat e).2 = e.setChip x := by
  cases c with
  | @read offset n buffer =>
    obtain ⟨halone, hset⟩ := readLoop_alone (p := e.pins) n e offset buffer 0
    refine ⟨?_, hset⟩
    simp only [call, read, Prog.alone_bind, Prog.alone_locked, halone, Prog.alone_pure]
    rfl
  | @write offset n buffer =>
    obtain ⟨halone, hset⟩ := writeLoop_alone buffer n e offset 0
    refine ⟨?_, hset⟩
    simp only [call, Prog.alone_bind, halone, Prog.alone_pure]
    rfl
  | erase offset length =>
    obtain ⟨halone, hset⟩ := eraseBlocks_alone (p := e.pins) (u32 (offset + length)) length e offset
    simp only [call, erase, DeviceCall.onHat, NandInterface.erase, W25NFlashDevice.erase]
    split
    · exact ⟨rfl, e.chip, rfl⟩
    · refine ⟨?_, hset⟩
      simp only [Prog.alone_bind, Prog.alone_locked, halone, Prog.alone_pure]

theorem calls_alone : ∀ (cs : List DeviceCall) (e : W25NFlashDevice),
    (calls e.pins e.others e.noQuad cs).alone (Wire.own e.pins) ⟨e.chip, none⟩ =
      ((DeviceCall.runHat e cs).1, ⟨(DeviceCall.runHat e cs).2.chip, none⟩)
  | [], _ => rfl
  | c :: cs, e => by
    obtain ⟨halone, x, hx⟩ := call_alone e c
    have hrest : (calls e.pins e.others e.noQuad cs).alone (Wire.own e.pins) ⟨(e.setChip x).chip, none⟩ = _ :=
      calls_alone cs (e.setChip x)
    unfold calls DeviceCall.runHat
    simp only [Prog.alone_bind, halone, Prog.alone_pure, hx]
    rw [hrest]

/-! ## Under the lock -/

section
variable {m : RwLock.Mode}

theorem narrow_inside {a : BusAct} (h : a.wide = false) : (act a).Inside BusAct.wide m :=
  ⟨fun hw => absurd (h.symm.trans hw) Bool.false_ne_true, fun _ => trivial⟩

theorem wide_inside (a : BusAct) : (act a).Inside BusAct.wide .unique := ⟨fun _ => rfl, fun _ => trivial⟩

theorem setLine_inside (value : Bool) : (setLine value).Inside BusAct.wide m :=
  (narrow_inside rfl).bind fun _ => trivial

theorem xferByte_inside (b : Byte) : (xferByte b).Inside BusAct.wide m :=
  (narrow_inside rfl).bind fun _ => trivial

theorem sendBytes_inside : ∀ bs : List Byte, (sendBytes bs).Inside BusAct.wide m
  | [] => trivial
  | b :: bs => (xferByte_inside b).bind fun _ => sendBytes_inside bs

theorem receiveBytes_inside : ∀ n : Nat, (receiveBytes n).Inside BusAct.wide m
  | 0 => trivial
  | n + 1 => (xferByte_inside 0).bind fun _ => (receiveBytes_inside n).bind fun _ => trivial

theorem receiveWords_inside : ∀ n : Nat, (receiveWords n).Inside BusAct.wide m
  | 0 => trivial
  | n + 1 => (narrow_inside rfl).bind fun _ => (receiveWords_inside n).bind fun _ => trivial

theorem sendWords_inside : ∀ ws : List Word, (sendWords ws).Inside BusAct.wide .unique
  | [] => trivial
  | _ :: ws => (wide_inside _).bind fun _ => sendWords_inside ws

theorem cmd_inside (tx : List Byte) (n : Nat) : (cmd tx n).Inside BusAct.wide m :=
  (setLine_inside false).bind fun _ => (sendBytes_inside tx).bind fun _ =>
    (receiveBytes_inside n).bind fun _ => (setLine_inside true).bind fun _ => trivial

theorem writeEnable_inside : writeEnable.Inside BusAct.wide m := (cmd_inside [0x06] 0).bind fun _ => trivial

theorem readStatus_inside : readStatus.Inside BusAct.wide m := (cmd_inside [0x0f, 0xc0] 1).bind fun _ => trivial

theorem waitBusy_inside : ∀ n : Nat, (waitBusy n).Inside BusAct.wide m
  | 0 => readStatus_inside.bind fun _ => trivial
  | n + 1 => readStatus_inside.bind fun sr3 => by
    split
    · exact trivial
    · exact waitBusy_inside n

theorem blockErase_inside (page : Nat) : (blockErase page).Inside BusAct.wide m :=
  writeEnable_inside.bind fun _ => (cmd_inside _ 0).bind fun _ => (waitBusy_inside _).bind fun _ => trivial

theorem programCommit_inside (page : Nat) : (programCommit page).Inside BusAct.wide m :=
  (cmd_inside _ 0).bind fun _ => (waitBusy_inside _).bind fun _ => trivial

theorem pageRead_inside (page : Nat) : (pageRead page).Inside BusAct.wide m :=
  (cmd_inside _ 0).bind fun _ => (waitBusy_inside _).bind fun _ => trivial

theorem readBuf_inside (col len : Nat) : (readBuf col len).Inside BusAct.wide m := by
  unfold readBuf
  dsimp only
  split
  · exact cmd_inside _ len
  · exact (setLine_inside false).bind fun _ => (sendBytes_inside _).bind fun _ =>
      (receiveWords_inside _).bind fun _ => (setLine_inside true).bind fun _ => trivial

/-- The only program that drives pins of other chips. -/
theorem programBegin_inside (others : List Pins) (noQuad : Bool) (col : Nat) (data : List Byte) :
    (programBegin p others noQuad col data).Inside BusAct.wide .unique := by
  refine writeEnable_inside.bind fun _ => Inside.bind ?_ fun _ => trivial
  refine (setLine_inside false).bind fun _ => ?_
  split
  · exact (sendBytes_inside _).bind fun _ => (sendWords_inside _).bind fun _ =>
      (setLine_inside true).bind fun _ => (wide_inside _).bind fun _ => trivial
  · exact (sendBytes_inside _).bind fun _ => (sendBytes_inside data).bind fun _ => setLine_inside true

theorem readLoop_inside {n : Nat} (length : Nat) : ∀ (offset : Nat) (buffer : Vector Byte n) (pos : Nat),
    (readLoop offset buffer pos length).Inside BusAct.wide m := by
  induction length using Nat.strongRecOn with
  | ind length ih =>
    intro offset buffer pos
    unfold readLoop
    split
    · have hcol : offset % W25N_PAGE_SIZE < W25N_PAGE_SIZE := Nat.mod_lt _ (by decide)
      refine (pageRead_inside _).bind fun ok => ?_
      cases ok with
      | false => exact trivial
      | true => exact (readBuf_inside _ _).bind fun _ => ih _ (by omega) _ _ _
    · exact trivial

theorem eraseBlocks_inside (stop : Nat) : ∀ fuel off : Nat, (eraseBlocks stop fuel off).Inside BusAct.wide m
  | 0, _ => trivial
  | fuel + 1, off => by
    unfold eraseBlocks
    split
    · refine (blockErase_inside _).bind fun ok => ?_
      cases ok with
      | false => exact trivial
      | true => exact eraseBlocks_inside stop fuel _
    · exact trivial

end

/-- The CS line is high. -/
def Unselected (w : Wire) : Prop := w.taken = none

/-- It keeps the rules of `busMu`. -/
abbrev Orderly {ρ : Type} (p : Pins) (x : BusCode ρ) (d : Chip) : Prop :=
  x.Guarded (Wire.own p) BusAct.wide Unselected none ⟨d, none⟩

theorem writeLoop_orderly {n : Nat} (buffer : Vector Byte n) (length : Nat) : ∀ (e : W25NFlashDevice)
    (offset pos : Nat), Orderly e.pins (writeLoop e.pins e.others e.noQuad offset buffer pos length) e.chip := by
  induction length using Nat.strongRecOn with
  | ind length ih =>
    intro e offset pos
    unfold writeLoop
    split
    · have hcol : offset % W25N_PAGE_SIZE < W25N_PAGE_SIZE := Nat.mod_lt _ (by decide)
      generalize hcnt : min (W25N_PAGE_SIZE - offset % W25N_PAGE_SIZE) length = cnt
      dsimp only
      refine Guarded.bind ((programBegin_inside _ _ _ _).locked rfl (by rw [programBegin_alone]; rfl)) ?_
      rw [hcnt, Prog.alone_locked, programBegin_alone]
      generalize W25nPio.programBegin e.pins e.others e.noQuad e.chip (offset % W25N_PAGE_SIZE)
        (transmit buffer pos cnt) = l
      split
      · refine Guarded.bind ((programCommit_inside _).locked rfl (by rw [programCommit_alone]; rfl)) ?_
        rw [Prog.alone_locked, programCommit_alone]
        generalize W25nPio.programCommit l.2 (offset / W25N_PAGE_SIZE) = r
        split
        · exact ih (length - cnt) (by omega) (e.setChip r.2) _ _
        · exact .pure _ rfl
      · exact .pure _ rfl
    · exact .pure _ rfl

theorem call_orderly (e : W25NFlashDevice) (c : DeviceCall) :
    Orderly e.pins (call e.pins e.others e.noQuad c) e.chip := by
  cases c with
  | @read offset n buffer =>
    have hend := (readLoop_alone (p := e.pins) n e offset buffer 0).1
    refine Guarded.bind ((readLoop_inside n _ _ _).locked rfl (by rw [hend]; rfl)) (.pure _ ?_)
    rw [read, Prog.alone_locked, hend]
    rfl
  | @write offset n buffer =>
    refine Guarded.bind (writeLoop_orderly buffer n e offset 0) (.pure _ ?_)
    rw [(writeLoop_alone buffer n e offset 0).1]
    rfl
  | erase offset length =>
    have hend := (eraseBlocks_alone (p := e.pins) (u32 (offset + length)) length e offset).1
    simp only [call, erase]
    split
    · exact .pure _ rfl
    · refine Guarded.bind ((eraseBlocks_inside _ _ _).locked rfl (by rw [hend]; rfl)) (.pure _ ?_)
      rw [Prog.alone_locked, hend]
      rfl

theorem calls_orderly : ∀ (cs : List DeviceCall) (e : W25NFlashDevice),
    Orderly e.pins (calls e.pins e.others e.noQuad cs) e.chip
  | [], _ => .pure _ rfl
  | c :: cs, e => by
    obtain ⟨halone, x, hx⟩ := call_alone e c
    refine Guarded.bind (call_orderly e c) ?_
    rw [halone, hx]
    refine Guarded.bind (calls_orderly cs (e.setChip x)) (.pure _ ?_)
    exact congrArg (fun r => r.2.taken) (calls_alone cs (e.setChip x))

end BusCode

/-! ## Threads -/

/-- Other acts drive the pins of their own chip. -/
theorem BusAct.drives_own {p : Pins} {a : BusAct} {g : Nat} (ha : a.wide = false) (hd : a.drives p g) :
    g ∈ p.gpios := by
  cases a with
  | line value => exact List.mem_cons.2 (.inl hd)
  | byte b => rcases hd with rfl | rfl <;> simp [Pins.gpios]
  | rxWord => rcases hd with rfl | rfl <;> simp [Pins.gpios]
  | word x => cases ha
  | restore mask => cases ha

namespace Hat

variable {ι : Type} {devs : ι → W25NFlashDevice} {calls : ι → List DeviceCall}

theorem isolated {pins : ι → Pins} (hapart : ∀ i j, i ≠ j → (pins i).Apart (pins j))
    (glitch : ι → BusAct → ι → Wire → Wire) :
    RwLock.Isolated (Wire.other pins glitch) BusAct.wide BusCode.Unselected where
  quiet i a j w hne ha := by
    refine if_neg fun h => ?_
    obtain ⟨-, g, hg, hd⟩ := h
    exact hapart i j (Ne.symm hne) g (BusAct.drives_own ha hd) hg
  idle i a j w hw := by
    refine if_neg fun h => ?_
    rw [show w.taken = none from hw] at h
    cases h.1

variable [Fintype ι] [DecidableEq ι]

/-- The steps that are left. -/
def left (devs : ι → W25NFlashDevice) (s : Hat ι) : Nat := RwLock.left (fun i => Wire.own (devs i).pins) s

/-- **Every thread has its chip for itself**, whatever the others do. -/
theorem threads_alone (hok : ∀ i, (devs i).Ok) (hapart : ∀ i j, i ≠ j → (devs i).pins.Apart (devs j).pins)
    (hcalls : ∀ i, ∀ c ∈ calls i, c.InRange W25N_TOTAL_SIZE) (glitch : ι → BusAct → ι → Wire → Wire)
    {is : List ι} {s : Hat ι}
    (h : Runs.run (step (fun i => (devs i).pins) glitch) (start devs calls) is = some s) :
    (∀ i as, (s i).prog = .ret as →
      (as, (s i).part.chip) = ((DeviceCall.runHat (devs i) (calls i)).1, (DeviceCall.runHat (devs i) (calls i)).2.chip) ∧
      (as, ((devs i).setChip (s i).part.chip).flat) = DeviceCall.runFlat W25N_BLOCK_SIZE (devs i).flat (calls i)) ∧
    (∀ i a k, (s i).prog = .act a k → a.wide = true → ∀ j, j ≠ i → (s j).part.taken = none) ∧
    ((∃ i t, step (fun i => (devs i).pins) glitch s i = some t) ∨ ∀ i, ∃ as, (s i).prog = .ret as) ∧
    is.length + s.left devs = (start devs calls).left devs := by
  obtain ⟨hend, hwide, hgo, hlen⟩ := RwLock.run_alone (isolated hapart glitch)
    (fun i => BusCode.calls_orderly (calls i) (devs i)) h
  refine ⟨fun i as has => ?_, hwide, hgo, hlen⟩
  have hdone := (hend i as has).trans (BusCode.calls_alone (calls i) (devs i))
  have hans : as = (DeviceCall.runHat (devs i) (calls i)).1 := congrArg Prod.fst hdone
  have hchip : (s i).part.chip = (DeviceCall.runHat (devs i) (calls i)).2.chip :=
    congrArg (fun r => r.2.chip) hdone
  obtain ⟨hflat, hmem⟩ := DeviceCall.runHat_flat (calls i) (hok i) (hcalls i)
  refine ⟨Prod.ext hans hchip, Prod.ext (hans.trans hflat) (Eq.trans ?_ hmem)⟩
  rw [hchip]
  rfl

/-- U2 and U3, each with a write over two pages and a read of it. -/
def u2u3 (u3 : Bool) : W25NFlashDevice :=
  ⟨⟨fun _ _ => 0x0f, fun _ => 0, false, false⟩, if u3 then .U3 else .U2, if u3 then [.U2] else [.U3], false⟩

theorem u2u3_ok (u3 : Bool) : (u2u3 u3).Ok := by
  cases u3 with
  | false => exact ⟨rfl, Pins.u2_wired⟩
  | true => exact ⟨rfl, by decide, by decide, by decide, by decide⟩

theorem u2u3_apart : ∀ i j, i ≠ j → (u2u3 i).pins.Apart (u2u3 j).pins := by
  unfold Pins.Apart
  decide

theorem u2u3_inRange (b : Byte) :
    ∀ c ∈ [DeviceCall.write 2045 (.replicate 16 b), .read 2040 (.replicate 16 0)], c.InRange W25N_TOTAL_SIZE := by
  intro c hc
  simp only [List.mem_cons, List.not_mem_nil, or_false] at hc
  rcases hc with rfl | rfl <;> simp only [DeviceCall.InRange] <;> decide

/-- A selected chip loses its contents. -/
def wipe (_ : Bool) (_ : BusAct) (_ : Bool) (w : Wire) : Wire := ⟨⟨fun _ _ => 0, fun _ => 0, true, true⟩, w.taken⟩

theorem threads_alone_u2u3 :
    let cs : Bool → List DeviceCall := fun u3 =>
      [.write 2045 (.replicate 16 (if u3 then 0x3c else 0x55)), .read 2040 (.replicate 16 0)]
    ∃ is s, Runs.run (step (fun i => (u2u3 i).pins) wipe) (start u2u3 cs) is = some s ∧
      ∀ i, ∃ as, (s i).prog = .ret as ∧
        (as, ((u2u3 i).setChip (s i).part.chip).flat) =
          DeviceCall.runFlat W25N_BLOCK_SIZE (u2u3 i).flat (cs i) := by
  intro cs
  have hcalls : ∀ i, ∀ c ∈ cs i, c.InRange W25N_TOTAL_SIZE := fun _ => u2u3_inRange _
  obtain ⟨is, s, hs, hret⟩ := RwLock.run_complete (isolated u2u3_apart wipe)
    fun i => BusCode.calls_orderly (cs i) (u2u3 i)
  obtain ⟨hdone, -⟩ := threads_alone u2u3_ok u2u3_apart hcalls wipe hs
  refine ⟨is, s, hs, fun i => ?_⟩
  obtain ⟨as, has⟩ := hret i
  exact ⟨as, has, (hdone i as has).2⟩

end Hat

end NandServer
