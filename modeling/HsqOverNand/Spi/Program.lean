import HsqOverNand.Lib.CallLog
import HsqOverNand.Spi.Device

/-!
# Asynchronous programs

`ProgramDriver.write` is `W25NSpiFlashDevice::write` over any driver of the three program calls.
With the chips of a bundle as driver it is the `write` of `Spi/Device.lean` (`bundle_write`). With
the driver that records the calls and answers them from `oracle` (`recorder`) it keeps the
protocol (`write_protocol`): the `pendingPage` table tells at any time which chips have a program
that was issued and not waited for (`Tracked`).
-/

set_option autoImplicit false

namespace NandServer

open CallLog W25NSpiFlashDevice

/-- The program calls of the driver, as `write` uses them: `false` is a negative return value. -/
structure ProgramDriver (N : Nat) (σ : Type) where
  programLoad : Fin N → (col : Nat) → List Byte → σ → Bool × σ
  programIssue : Fin N → (page : Nat) → σ → Bool × σ
  programWait : Fin N → σ → Bool × σ

namespace ProgramDriver

variable {N : Nat} {σ : Type} (drv : ProgramDriver N σ)

def waitChip (s : σ) (pending : Pending N) (idx : Fin N) : Bool × Pending N × σ :=
  match pending.get idx with
  | none => (true, pending, s)
  | some _ =>
    let r := drv.programWait idx s
    (r.1, pending.put idx none, r.2)

def loadIssue (s : σ) (idx : Fin N) (phys col : Nat) (data : List Byte) : Bool × σ :=
  let l := drv.programLoad idx col data s
  if l.1 then drv.programIssue idx phys l.2 else (false, l.2)

/-- The loop of `write`; it stops at the first failure. -/
def writeLoop [NeZero N] {n : Nat} (s : σ) (pending : Pending N) (offset : Nat)
    (buffer : Vector Byte n) (pos length : Nat) : Bool × Pending N × σ :=
  if 0 < length then
    let page := offset / W25N_SPI_PAGE_SIZE
    let col := offset % W25N_SPI_PAGE_SIZE
    let chunk := min (W25N_SPI_PAGE_SIZE - col) length
    let idx : Fin N := chipIndexOf page
    let phys := physPageOf N page
    let w := drv.waitChip s pending idx
    if w.1 then
      let r := drv.loadIssue w.2.2 idx phys col (transmit buffer pos chunk)
      if r.1 then
        writeLoop r.2 (w.2.1.put idx (some phys)) (u32 (offset + chunk)) buffer (pos + chunk)
          (length - chunk)
      else (false, w.2.1, r.2)
    else (false, w.2.1, w.2.2)
  else (true, pending, s)
termination_by length
decreasing_by
  have : offset % 2048 < 2048 := Nat.mod_lt _ (by decide)
  show length - min (2048 - offset % 2048) length < length
  omega

/-- `ok = waitChip(i) && ok` for the chips of a list. -/
def waitAll (s : σ) (pending : Pending N) (ok : Bool) : List (Fin N) → Bool × σ
  | [] => (ok, s)
  | i :: is =>
    let w := drv.waitChip s pending i
    waitAll w.2.2 w.2.1 (w.1 && ok) is

def write [NeZero N] {n : Nat} (s : σ) (offset : Nat) (buffer : Vector Byte n) : Bool × σ :=
  let r := drv.writeLoop s (.replicate N none) offset buffer 0 n
  drv.waitAll r.2.2 r.2.1 r.1 (List.finRange N)

/-! ## The bundle -/

/-- The chips of a bundle. -/
def bundle (N : Nat) : ProgramDriver N (W25NSpiFlashDevice N) where
  programLoad i col data d :=
    let r := W25nSpi.programLoad (d.chips.get i) col data
    (r.1, d.setChip i r.2)
  programIssue i page d :=
    let r := W25nSpi.programIssue (d.chips.get i) page
    (r.1, d.setChip i r.2)
  programWait i d :=
    let r := W25nSpi.programWait (d.chips.get i)
    (r.1, d.setChip i r.2)

theorem setChip_setChip (d : W25NSpiFlashDevice N) (i : Fin N) (c c' : Chip) :
    (d.setChip i c).setChip i c' = d.setChip i c' := by
  have : (d.chips.put i c).put i c' = d.chips.put i c' := Vector.set_set ..
  rw [setChip, setChip, setChip, this]

theorem bundle_loadIssue (d : W25NSpiFlashDevice N) (i : Fin N) (phys col : Nat) (data : List Byte) :
    (bundle N).loadIssue d i phys col data = W25NSpiFlashDevice.loadIssue d i phys col data := by
  simp [loadIssue, W25NSpiFlashDevice.loadIssue, bundle, setChip_setChip, W25nSpi.programLoad]
  simp [setChip]

theorem bundle_writeLoop [NeZero N] {n : Nat} (d : W25NSpiFlashDevice N) (pending : Pending N)
    (offset : Nat) (buffer : Vector Byte n) (pos length : Nat) :
    (bundle N).writeLoop d pending offset buffer pos length =
      W25NSpiFlashDevice.writeLoop d pending offset buffer pos length := by
  fun_induction W25NSpiFlashDevice.writeLoop d pending offset buffer pos length with
  | case1 d pending offset pos length h page col chunk idx phys w hw r hr ih =>
    rw [writeLoop, if_pos h]
    simp only [bundle_loadIssue]
    exact (if_pos hw).trans ((if_pos hr).trans ih)
  | case2 d pending offset pos length h page col chunk idx phys w hw r hr =>
    rw [writeLoop, if_pos h]
    simp only [bundle_loadIssue]
    exact (if_pos hw).trans (if_neg hr)
  | case3 d pending offset pos length h page idx w hw =>
    rw [writeLoop, if_pos h]
    exact if_neg hw
  | case4 d pending offset pos length h => rw [writeLoop, if_neg h]

theorem bundle_waitAll (l : List (Fin N)) : ∀ (d : W25NSpiFlashDevice N) (pending : Pending N)
    (ok : Bool), (bundle N).waitAll d pending ok l = W25NSpiFlashDevice.waitAll d pending ok l := by
  induction l with
  | nil => exact fun _ _ _ => rfl
  | cons i l ih => exact fun _ _ _ => ih _ _ _

/-- **`write` on the chips is `write` of the bundle.** -/
theorem bundle_write [NeZero N] {n : Nat} (d : W25NSpiFlashDevice N) (offset : Nat)
    (buffer : Vector Byte n) :
    (bundle N).write d offset buffer = W25NSpiFlashDevice.write d offset buffer := by
  rw [write, W25NSpiFlashDevice.write, bundle_writeLoop, bundle_waitAll]

/-! ## Recorded calls -/

/-- A call with its outcome. -/
inductive Call (N : Nat)
  | load (idx : Fin N) (col : Nat) (data : List Byte) (ok : Bool)
  | issue (idx : Fin N) (page : Nat) (ok : Bool)
  | wait (idx : Fin N) (ok : Bool)
  deriving DecidableEq, Repr

namespace Call

def ok : Call N → Bool
  | load _ _ _ b | issue _ _ b | wait _ b => b

/-- An issued program. -/
def opens (i : Fin N) : Call N → Bool
  | issue j _ b => decide (j = i) && b
  | _ => false

def closes (i : Fin N) : Call N → Bool
  | wait j _ => decide (j = i)
  | _ => false

end Call

/-- The driver that records its calls; the `k`-th call has the outcome `oracle k`. -/
def recorder (N : Nat) (oracle : Nat → Bool) : ProgramDriver N (List (Call N)) where
  programLoad i col data log := (oracle log.length, log ++ [.load i col data (oracle log.length)])
  programIssue i page log := (oracle log.length, log ++ [.issue i page (oracle log.length)])
  programWait i log := (oracle log.length, log ++ [.wait i (oracle log.length)])

/-- A program was issued to the chip and not waited for. -/
abbrev outstanding (i : Fin N) (log : List (Call N)) : Bool :=
  isOpen (Call.opens i) (Call.closes i) log

/-- A load or an issue goes to a chip without an outstanding program, a wait to one with. -/
def Allowed (pre : List (Call N)) : Call N → Prop
  | .load i _ _ _ | .issue i _ _ => outstanding i pre = false
  | .wait i _ => outstanding i pre = true

/-- After a failure there are only waits. -/
def Quiet (pre : List (Call N)) (e : Call N) : Prop :=
  (∃ f ∈ pre, f.ok = false) → ∃ i b, e = .wait i b

/-- What the chips were told: the data loaded into each, and the bytes programmed, by their address
in the bundle. -/
structure Told (N : Nat) where
  buffer : Fin N → Option (Nat × List Byte)
  issued : List (Nat × Byte)

/-- The bytes a program of `page` writes on chip `i`. -/
def bytesAt (i : Fin N) (page : Nat) (l : Nat × List Byte) : List (Nat × Byte) :=
  l.2.zipIdx.map fun p => ((page * N + i) * W25N_SPI_PAGE_SIZE + l.1 + p.2, p.1)

def Told.step (t : Told N) : Call N → Told N
  | .load i col data b =>
    { t with buffer := Function.update t.buffer i (if b then some (col, data) else none) }
  | .issue i page b =>
    if b then { t with issued := t.issued ++ ((t.buffer i).map (bytesAt i page)).getD [] } else t
  | .wait _ _ => t

def told (log : List (Call N)) : Told N := log.foldl Told.step ⟨fun _ => none, []⟩

/-! ## The protocol -/

theorem told_concat (log : List (Call N)) (e : Call N) : told (log ++ [e]) = (told log).step e := by
  rw [told, List.foldl_concat]
  rfl

/-- The `pendingPage` table tells what is outstanding, and the log so far keeps the protocol. -/
structure Tracked (pending : Pending N) (log : List (Call N)) : Prop where
  allowed : Each Allowed log
  quiet : Each Quiet log
  table : ∀ i, outstanding i log = (pending.get i).isSome

/-- Every call succeeded. -/
def AllOk (log : List (Call N)) : Prop := ∀ e ∈ log, e.ok = true

theorem allOk_concat {log : List (Call N)} {e : Call N} :
    AllOk (log ++ [e]) ↔ AllOk log ∧ e.ok = true := by
  simp [AllOk, or_imp, forall_and]

theorem AllOk.quiet {log : List (Call N)} (h : AllOk log) (e : Call N) : Quiet log e := by
  rintro ⟨f, hf, hfalse⟩
  rw [h f hf] at hfalse
  cases hfalse

theorem tracked_nil : Tracked (.replicate N none) ([] : List (Call N)) where
  allowed := each_nil
  quiet := each_nil
  table i := by
    have : (Vector.replicate N (none : Option Nat)).get i = none := Vector.getElem_replicate i.isLt
    rw [this]
    rfl

section
variable {pending : Pending N} {log : List (Call N)} {idx : Fin N}

theorem Tracked.wait (h : Tracked pending log) (hp : (pending.get idx).isSome) (b : Bool) :
    Tracked (pending.put idx none) (log ++ [.wait idx b]) where
  allowed := each_concat.2 ⟨h.allowed, (h.table idx).trans hp⟩
  quiet := each_concat.2 ⟨h.quiet, fun _ => ⟨idx, b, rfl⟩⟩
  table i := by
    rw [outstanding, isOpen_concat]
    rcases eq_or_ne i idx with rfl | hne
    · simp [Call.opens, Call.closes]
    · rw [Vector.get_put_ne _ hne, ← h.table i]
      simp [Call.opens, Call.closes, hne.symm]

theorem Tracked.load (h : Tracked pending log) (hok : AllOk log) (hp : pending.get idx = none)
    (col : Nat) (data : List Byte) (b : Bool) : Tracked pending (log ++ [.load idx col data b]) where
  allowed := each_concat.2 ⟨h.allowed, (h.table idx).trans (by rw [hp]; rfl)⟩
  quiet := each_concat.2 ⟨h.quiet, hok.quiet _⟩
  table i := by
    rw [outstanding, isOpen_concat]
    exact h.table i

theorem Tracked.issue (h : Tracked pending log) (hok : AllOk log) (hp : pending.get idx = none)
    (page : Nat) (b : Bool) :
    Tracked (if b then pending.put idx (some page) else pending) (log ++ [.issue idx page b]) where
  allowed := each_concat.2 ⟨h.allowed, (h.table idx).trans (by rw [hp]; rfl)⟩
  quiet := each_concat.2 ⟨h.quiet, hok.quiet _⟩
  table i := by
    rw [outstanding, isOpen_concat]
    cases b with
    | false => simpa [Call.opens, Call.closes] using h.table i
    | true =>
      rcases eq_or_ne i idx with rfl | hne
      · simp [Call.opens]
      · rw [if_pos rfl, Vector.get_put_ne _ hne, ← h.table i]
        simp [Call.opens, Call.closes, hne.symm]

end

/-! ### The steps of `write` -/

section
variable {oracle : Nat → Bool} {pending : Pending N} {log : List (Call N)}

/-- `waitChip` frees its chip, and no other chip gets a program. -/
structure Waited (pending : Pending N) (log : List (Call N)) (idx : Fin N)
    (w : Bool × Pending N × List (Call N)) : Prop where
  tracked : Tracked w.2.1 w.2.2
  free : w.2.1.get idx = none
  other : ∀ i, pending.get i = none → w.2.1.get i = none
  ok : AllOk w.2.2 ↔ AllOk log ∧ w.1 = true
  issued : (told w.2.2).issued = (told log).issued

theorem waitChip_waited (h : Tracked pending log) (idx : Fin N) :
    Waited pending log idx ((recorder N oracle).waitChip log pending idx) := by
  unfold waitChip
  cases hp : pending.get idx with
  | none => exact ⟨h, hp, fun _ hi => hi, by simp, rfl⟩
  | some page =>
    refine ⟨h.wait (by rw [hp]; rfl) _, Vector.get_put_self .., fun i hi => ?_, allOk_concat, ?_⟩
    · have hne : i ≠ idx := by
        rintro rfl
        rw [hi] at hp
        cases hp
      exact (Vector.get_put_ne _ hne _).trans hi
    · show (told (log ++ _)).issued = _
      rw [told_concat]
      rfl

/-- `program_load` failed, or `program_issue` followed. -/
theorem loadIssue_cases (oracle : Nat → Bool) (log : List (Call N)) (idx : Fin N) (phys col : Nat)
    (data : List Byte) :
    (recorder N oracle).loadIssue log idx phys col data = (false, log ++ [.load idx col data false]) ∨
      ∃ b, (recorder N oracle).loadIssue log idx phys col data =
        (b, log ++ [.load idx col data true] ++ [.issue idx phys b]) := by
  cases hl : oracle log.length with
  | false =>
    left
    simp [loadIssue, recorder, hl]
  | true =>
    refine .inr ⟨oracle (log ++ [Call.load idx col data true]).length, ?_⟩
    simp [loadIssue, recorder, hl]

theorem loadIssue_tracked (h : Tracked pending log) (hok : AllOk log) {idx : Fin N}
    (hp : pending.get idx = none) (phys col : Nat) (data : List Byte)
    {r : Bool × List (Call N)} (hr : (recorder N oracle).loadIssue log idx phys col data = r) :
    Tracked (if r.1 then pending.put idx (some phys) else pending) r.2 ∧
      (AllOk r.2 ↔ r.1 = true) ∧
      (r.1 = true → (told r.2).issued = (told log).issued ++ bytesAt idx phys (col, data)) := by
  rcases loadIssue_cases oracle log idx phys col data with he | ⟨b, he⟩
  · rw [he] at hr
    subst hr
    refine ⟨h.load hok hp col data false, ?_, fun hf => by simp at hf⟩
    simp [allOk_concat, Call.ok]
  · rw [he] at hr
    subst hr
    have hok' : AllOk (log ++ [.load idx col data true]) := allOk_concat.2 ⟨hok, rfl⟩
    refine ⟨(h.load hok hp col data true).issue hok' hp phys b,
      allOk_concat.trans (and_iff_right hok'), fun ht => ?_⟩
    replace ht : b = true := ht
    rw [told_concat, told_concat]
    simp [Told.step, ht]

/-- The rest of a buffer and its addresses. -/
def bytesFrom {n : Nat} (offset : Nat) (buffer : Vector Byte n) (pos : Nat) : List (Nat × Byte) :=
  ((buffer.toList.drop pos).zipIdx pos).map fun p => (u32 (offset + p.2), p.1)

/-- A chunk that stays in its page. -/
theorem bytesAt_chunk [NeZero N] {n start offset pos chunk : Nat} (buffer : Vector Byte n)
    (ho : offset = u32 (start + pos))
    (hc : chunk ≤ W25N_SPI_PAGE_SIZE - offset % W25N_SPI_PAGE_SIZE) (hn : pos + chunk ≤ n) :
    bytesAt (chipIndexOf (offset / W25N_SPI_PAGE_SIZE) : Fin N)
        (physPageOf N (offset / W25N_SPI_PAGE_SIZE))
        (offset % W25N_SPI_PAGE_SIZE, transmit buffer pos chunk) ++
      bytesFrom start buffer (pos + chunk) = bytesFrom start buffer pos := by
  have hlen : (transmit buffer pos chunk).length = chunk := by
    simp [transmit]
    omega
  have hsplit : buffer.toList.drop pos =
      transmit buffer pos chunk ++ buffer.toList.drop (pos + chunk) := by
    rw [transmit, ← List.drop_drop, List.take_append_drop]
  have hpage : physPageOf N (offset / W25N_SPI_PAGE_SIZE) * N +
      (chipIndexOf (offset / W25N_SPI_PAGE_SIZE) : Fin N) = offset / W25N_SPI_PAGE_SIZE :=
    Nat.div_add_mod' ..
  rw [bytesFrom, bytesFrom, hsplit, List.zipIdx_append, List.map_append, hlen]
  congr 1
  rw [bytesAt, List.zipIdx_eq_map_add (i := pos), List.map_map]
  refine List.map_congr_left fun p hp => ?_
  have hlt : p.2 < chunk := hlen ▸ List.snd_lt_of_mem_zipIdx hp
  have haddr : (offset / 2048) * 2048 + offset % 2048 + p.2 = u32 (start + (pos + p.2)) := by
    replace hc : chunk ≤ 2048 - offset % 2048 := hc
    unfold u32 at ho ⊢
    omega
  rw [hpage]
  exact Prod.ext haddr rfl

/-- The loop keeps the protocol, notices every failure and issues the rest of the buffer otherwise. -/
theorem writeLoop_tracked [NeZero N] {n : Nat} {start offset : Nat} {buffer : Vector Byte n}
    {pos length : Nat} (h : Tracked pending log) (hok : AllOk log)
    (ho : offset = u32 (start + pos)) (hn : pos + length = n)
    {r : Bool × Pending N × List (Call N)}
    (hr : (recorder N oracle).writeLoop log pending offset buffer pos length = r) :
    Tracked r.2.1 r.2.2 ∧ (AllOk r.2.2 ↔ r.1 = true) ∧
      (r.1 = true → (told r.2.2).issued = (told log).issued ++ bytesFrom start buffer pos) := by
  fun_induction (recorder N oracle).writeLoop log pending offset buffer pos length with
  | case1 log pending offset pos length hlen page col chunk idx phys w hw l hl ih =>
    have hwait : Waited pending log idx w := waitChip_waited h idx
    have hok' := hwait.ok.2 ⟨hok, hw⟩
    have hli := loadIssue_tracked hwait.tracked hok' hwait.free phys col (transmit buffer pos chunk)
      (r := l) rfl
    have hchunk : chunk ≤ W25N_SPI_PAGE_SIZE - offset % W25N_SPI_PAGE_SIZE := min_le_left _ _
    have hle : chunk ≤ length := min_le_right _ _
    have hnext := ih (by simpa [hl] using hli.1) (hli.2.1.2 hl)
      (by rw [ho]; unfold u32; omega) (by omega) hr
    refine ⟨hnext.1, hnext.2.1, fun ht => ?_⟩
    rw [hnext.2.2 ht, hli.2.2 hl, hwait.issued, List.append_assoc]
    congr 1
    exact bytesAt_chunk buffer ho hchunk (by omega)
  | case2 log pending offset pos length hlen page col chunk idx phys w hw l hl =>
    subst hr
    have hwait : Waited pending log idx w := waitChip_waited h idx
    have hli := loadIssue_tracked hwait.tracked (hwait.ok.2 ⟨hok, hw⟩) hwait.free phys col
      (transmit buffer pos chunk) (r := l) rfl
    refine ⟨by simpa [hl] using hli.1, hli.2.1.trans ?_, fun hf => by simp at hf⟩
    simp [hl]
  | case3 log pending offset pos length hlen page idx w hw =>
    subst hr
    have hwait : Waited pending log idx w := waitChip_waited h idx
    refine ⟨hwait.tracked, hwait.ok.trans ?_, fun hf => by simp at hf⟩
    simp [hw]
  | case4 log pending offset pos length hlen =>
    subst hr
    refine ⟨h, by simpa using hok, fun _ => ?_⟩
    rw [bytesFrom, List.drop_of_length_le (by simp; omega)]
    simp

/-- The sweep waits for every chip of the list. -/
theorem waitAll_tracked (l : List (Fin N)) : ∀ {log : List (Call N)} {pending : Pending N} {ok : Bool}
    {r : Bool × List (Call N)}, (recorder N oracle).waitAll log pending ok l = r →
    Tracked pending log → (AllOk log ↔ ok = true) → (r.1 = true → ok = true) ∧ ∃ pending',
      Tracked pending' r.2 ∧ (∀ i, i ∈ l ∨ pending.get i = none → pending'.get i = none) ∧
      (AllOk r.2 ↔ r.1 = true) ∧ (told r.2).issued = (told log).issued := by
  induction l with
  | nil =>
    rintro log pending ok r rfl h hok
    exact ⟨id, pending, h, by simp, hok, rfl⟩
  | cons idx l ih =>
    intro log pending ok r hr h hok
    have hwait : Waited pending log idx ((recorder N oracle).waitChip log pending idx) :=
      waitChip_waited h idx
    have hboth : AllOk ((recorder N oracle).waitChip log pending idx).2.2 ↔
        (((recorder N oracle).waitChip log pending idx).1 && ok) = true := by
      rw [hwait.ok, hok, Bool.and_eq_true, and_comm]
    obtain ⟨hmono, pending', ht, hfree, hok', hiss⟩ := ih hr hwait.tracked hboth
    refine ⟨fun ht => (Bool.and_eq_true_iff.1 (hmono ht)).2, pending', ht, ?_, hok',
      hiss.trans hwait.issued⟩
    rintro i (hi | hi)
    · rcases List.mem_cons.1 hi with rfl | hi
      · exact hfree _ (.inr hwait.free)
      · exact hfree i (.inl hi)
    · exact hfree i (.inr (hwait.other i hi))

end

theorem Allowed.pairs {pre : List (Call N)} {e : Call N} (he : Allowed pre e) (i : Fin N) :
    (e.opens i = true → outstanding i pre = false) ∧ (e.closes i = true → outstanding i pre = true) := by
  cases e with
  | load j col data b => exact ⟨fun h => by simp [Call.opens] at h, fun h => by simp [Call.closes] at h⟩
  | issue j page b =>
    refine ⟨fun h => ?_, fun h => by simp [Call.closes] at h⟩
    obtain ⟨rfl, -⟩ : j = i ∧ b = true := by simpa [Call.opens] using h
    exact he
  | wait j b =>
    refine ⟨fun h => by simp [Call.opens] at h, fun h => ?_⟩
    obtain rfl : j = i := by simpa [Call.closes] using h
    exact he

/-- **The program protocol**, for every outcome of the calls: loads and issues go to chips without an
outstanding program; every issued program is waited for exactly once and none is outstanding at the
return; after a failure there are only waits; and `write` returns `true` exactly when every call
succeeded and all its bytes were issued. -/
theorem write_protocol {N : Nat} [NeZero N] (oracle : Nat → Bool) {n : Nat} (offset : Nat)
    (ho : offset < 2 ^ 32) (buffer : Vector Byte n) {ok : Bool} {log : List (Call N)}
    (hw : (recorder N oracle).write [] offset buffer = (ok, log)) :
    Each Allowed log ∧
    (∀ i, Paired (Call.opens i) (Call.closes i) (log.filter fun e => e.opens i || e.closes i)) ∧
    (∀ i, outstanding i log = false) ∧ Each Quiet log ∧
    (ok = true ↔ (∀ e ∈ log, e.ok = true) ∧
      (told log).issued = buffer.toList.zipIdx.map fun p => (u32 (offset + p.2), p.1)) := by
  unfold write at hw
  generalize hr : (recorder N oracle).writeLoop [] (.replicate N none) offset buffer 0 n = r at hw
  have hloop := writeLoop_tracked tracked_nil (by simp [AllOk]) (u32_of_lt ho).symm (Nat.zero_add n) hr
  obtain ⟨hstay, pending', ht, hfree, hok, hiss⟩ := waitAll_tracked _ hw hloop.1 hloop.2.1
  have hend : ∀ i, outstanding i log = false := fun i => by
    rw [ht.table i, hfree i (.inl (List.mem_finRange i))]
    rfl
  refine ⟨ht.allowed, fun i => paired_of_each (ht.allowed.mono fun pre e he => ?_) (hend i), hend,
    ht.quiet, fun htrue => ⟨hok.2 htrue, ?_⟩, fun h => hok.1 h.1⟩
  · exact he.pairs i
  · rw [hiss, hloop.2.2 (hstay htrue)]
    simp [bytesFrom, told]

/-- Two chips, a byte at offset 2049: the program on chip 1 is issued and its wait fails. -/
theorem write_protocol_wait_fails :
    let log : List (Call 2) := [.load 1 1 [0xab] true, .issue 1 0 true, .wait 1 false]
    Each Allowed log ∧
    (∀ i, Paired (Call.opens i) (Call.closes i) (log.filter fun e => e.opens i || e.closes i)) ∧
    (∀ i, outstanding i log = false) ∧ Each Quiet log ∧
    (false = true ↔ (∀ e ∈ log, e.ok = true) ∧
      (told log).issued = [0xab].zipIdx.map fun p => (u32 (2049 + p.2), p.1)) := by
  refine write_protocol (fun k => k != 2) 2049 (by decide) #v[0xab] ?_
  rw [write, writeLoop, if_pos (by decide)]
  simp only
  rw [writeLoop]
  rfl

end ProgramDriver

end NandServer
