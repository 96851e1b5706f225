import HsqOverNand.Qspi.Device
import HsqOverNand.Spi.Bundle

/-!
# A chip of the HAT answers as a chip on spidev

`onHat_spi`: on a ready chip every call of `W25NFlashDevice` has the answer of a bundle of that one
chip, and leaves the chip the bundle leaves. The four-bit load puts the bytes into the buffer
that 02h puts there (`sampled_qtxWords`), the packed receive gives the bytes back (`rxUnpack_rxWords`),
and waiting for each program is waiting for all of them at the end of `write`.
-/

set_option autoImplicit false

namespace NandServer

/-! ## The words of a transfer -/

namespace Pins

variable {p : Pins} {others : List Pins}

theorem getLsbD_levels (w : Word) {g : Nat} (hs : p.InSpan g) (hg : g < 32) :
    (p.levels w).getLsbD g = p.driven w g := by
  have hle : ¬ g < p.io3 := Nat.not_lt.2 hs.1
  rw [levels, driven, BitVec.getLsbD_shiftLeft]
  simp [hg, hle]

theorem qtxWords_cons (b : Byte) (bs : List Byte) : p.qtxWords others (b :: bs) =
    p.sent others (b >>> 4).toNat :: p.sent others (b &&& 15).toNat :: p.qtxWords others bs := by
  have hrest : ∀ k, p.sent others (nibbleAt ((b :: bs).getD ((k + 2) / 2) 0) (k + 2)) =
      p.sent others (nibbleAt (bs.getD (k / 2) 0) k) := fun k => by
    rw [show (k + 2) / 2 = k / 2 + 1 by omega, List.getD_cons_succ, nibbleAt, nibbleAt,
      Nat.add_mod_right]
  unfold qtxWords
  rw [List.length_cons, show 2 * (bs.length + 1) = 2 * bs.length + 1 + 1 by omega,
    List.range_succ_eq_map, List.range_succ_eq_map]
  simp only [List.map_cons, List.map_map]
  refine congrArg₂ List.cons rfl (congrArg₂ List.cons rfl (List.map_congr_left fun k _ => ?_))
  exact hrest k

/-- **The chip takes the bytes that were sent.** -/
theorem sampled_qtxWords (h : p.Wired others) (data : List Byte) :
    p.sampled (p.qtxWords others data) = data := by
  induction data with
  | nil => rfl
  | cons b bs ih =>
    rw [qtxWords_cons, sampled, ih]
    have hbyte := h.unpackByte (b := b) (fun g hs hg => getLsbD_levels _ hs hg)
      (fun g hs hg => getLsbD_levels _ hs hg)
    rw [hbyte]

end Pins

/-! ## The driver on a ready chip -/

namespace W25nPio

open Chip

/-- The first poll may find the chip busy, the second does not. -/
theorem waitBusy_eq (d : Chip) (n : Nat) : waitBusy (n + 1) d = (true, 0x00, d.ready) := by
  have h0 : (0x00 : Byte) &&& 0x01 = 0 := by decide
  have h1 : ¬ (0x01 : Byte) &&& 0x01 = 0 := by decide
  have hready : W25nSpi.readStatus { d with busy := false } = (0x00, d.ready) := rfl
  unfold waitBusy
  cases hb : d.busy with
  | false =>
    have hst : W25nSpi.readStatus d = (0x00, d.ready) := by
      unfold W25nSpi.readStatus
      rw [hb]
      rfl
    rw [hst, if_pos h0]
  | true =>
    have hst : W25nSpi.readStatus d = (0x01, { d with busy := false }) := by
      unfold W25nSpi.readStatus
      rw [hb]
      rfl
    rw [hst, if_neg h1]
    cases n with
    | zero =>
      unfold waitBusy
      rw [hready]
      exact Prod.ext (decide_eq_true h0) rfl
    | succ n =>
      unfold waitBusy
      rw [hready, if_pos h0]

theorem rxUnpack_rxWords : ∀ (k : Nat) (bs : List Byte), bs.length = 4 * k → rxUnpack (rxWords bs) = bs
  | 0, bs, h => by
    rw [List.length_eq_zero_iff.1 h]
    rfl
  | k + 1, b0 :: b1 :: b2 :: b3 :: bs, h => by
    have hlen : bs.length = 4 * k := by
      simp only [List.length_cons] at h
      omega
    have hw : ∀ w : Word, w = (b0 ++ b1 ++ b2 ++ b3 : BitVec (8 + 8 + 8 + 8)) →
        (w >>> 24).setWidth 8 = b0 ∧ (w >>> 16).setWidth 8 = b1 ∧ (w >>> 8).setWidth 8 = b2 ∧
          w.setWidth 8 = b3 := by
      rintro w rfl
      refine ⟨?_, ?_, ?_, ?_⟩ <;>
      · refine BitVec.eq_of_getLsbD_eq fun i hi => ?_
        simp only [BitVec.getLsbD_setWidth, BitVec.getLsbD_ushiftRight, BitVec.getLsbD_append]
        grind
    obtain ⟨h0, h1, h2, h3⟩ := hw _ rfl
    rw [rxWords, rxUnpack, rxUnpack_rxWords k bs hlen, h0, h1, h2, h3]
  | k + 1, [], h | k + 1, [_], h | k + 1, [_, _], h | k + 1, [_, _, _], h => by
    simp only [List.length_cons, List.length_nil] at h
    omega

/-- Both transfers of `w25n_read_buf` give the bytes of the buffer. -/
theorem readBuf_spi (d : Chip) (col len : Nat) : readBuf d col len = W25nSpi.readBuf d col len := by
  unfold readBuf W25nSpi.readBuf
  simp only []
  split
  · rfl
  · next hlen =>
    cases hr : d.received 0x03 (W25nSpi.colBytes col ++ [0x00]) len with
    | none => rfl
    | some bs =>
      have hbs : bs.length = len := by
        unfold received at hr
        split at hr
        · split at hr
          · cases hr
            rw [List.length_map, List.length_range]
          · cases hr
        · cases hr
      exact congrArg some (rxUnpack_rxWords (len / 4) bs (by omega))

section
variable {d : Chip} (hd : d.busy = false)
include hd

theorem writeEnable_eq : writeEnable d = { d with wel := true } := W25nSpi.writeEnable_eq hd

theorem blockErase_eq {page : Nat} (hp : page < 2 ^ 24) : blockErase d page = (true, d.erased page) := by
  have hcmd : (writeEnable d).command 0xd8 (W25nSpi.pageBytes page) =
      ({ d with wel := true }).blockErase page := by
    rw [writeEnable_eq hd]
    unfold command
    rw [if_neg (by rw [hd]; decide), if_neg (by decide), if_neg (by decide)]
    simp only [W25nSpi.pageBytes, if_true, pageOf_bytes hp]
  have hsr : (0x00 : Byte) &&& 0x04 = 0 := by decide
  unfold blockErase
  rw [hcmd, show polls 500000 = 166665 + 1 from rfl, waitBusy_eq]
  simp only [hsr, decide_true, Bool.and_self]
  rfl

/-- The buffer takes the data, on one line or on four. -/
theorem programBegin_eq {p : Pins} {others : List Pins} (hw : p.Wired others) (noQuad : Bool)
    {col : Nat} (hc : col < 2 ^ 16) (data : List Byte) :
    programBegin p others noQuad d col data = (true, d.loaded col data) := by
  unfold programBegin loadData
  rw [writeEnable_eq hd]
  split
  · have hb : ¬ d.busy = true := by rw [hd]; decide
    simp only [Chip.quadLoad, W25nSpi.colBytes, if_neg hb, colOf_bytes hc, Pins.sampled_qtxWords hw]
    rfl
  · unfold command
    rw [if_neg (by rw [hd]; decide), if_neg (by decide), if_pos rfl]
    simp only [W25nSpi.colBytes, List.cons_append, List.nil_append, colOf_bytes hc]
    rfl

theorem programCommit_eq (hw : d.wel = true) {page : Nat} (hp : page < 2 ^ 24) :
    programCommit d page = (true, (d.issued page).ready) := by
  have hcmd : d.command 0x10 (W25nSpi.pageBytes page) = d.issued page :=
    congrArg Prod.snd (W25nSpi.programIssue_eq hd hw hp)
  have hsr : (0x00 : Byte) &&& 0x08 = 0 := by decide
  unfold programCommit
  rw [hcmd, show polls 100000 = 33332 + 1 from rfl, waitBusy_eq]
  simp only [hsr, decide_true, Bool.and_self]

theorem pageRead_eq {page : Nat} (hp : page < 2 ^ 24) : pageRead d page = (true, d.latched page) := by
  have hcmd : d.command 0x13 (W25nSpi.pageBytes page) = d.pageDataRead page := by
    unfold command
    rw [if_neg (by rw [hd]; decide), if_neg (by decide), if_neg (by decide)]
    simp only [W25nSpi.pageBytes, pageOf_bytes hp]
    rfl
  unfold pageRead
  simp only [hcmd]
  rw [show polls 100000 = 33332 + 1 from rfl, waitBusy_eq]
  unfold ready latched
  rw [hd]
  rfl

end

end W25nPio

/-! ## A bundle of one -/

namespace W25NFlashDevice

/-- The bundle of this one chip. -/
def bundle (d : W25NFlashDevice) : W25NSpiFlashDevice 1 := ⟨.replicate 1 d.chip⟩

/-- The device with the chip of the bundle. -/
def ofBundle (d : W25NFlashDevice) (b : W25NSpiFlashDevice 1) : W25NFlashDevice :=
  d.setChip (b.chips.get ⟨0, Nat.one_pos⟩)

structure Ok (d : W25NFlashDevice) : Prop where
  ready : d.chip.busy = false
  wired : d.pins.Wired d.others

/-- The contents. -/
def flat (d : W25NFlashDevice) : AndMemory.Mem 8 := fun a =>
  if a < W25N_TOTAL_SIZE then d.chip.pages (a / W25N_PAGE_SIZE) (a % W25N_PAGE_SIZE) else 0xff

open W25NSpiFlashDevice (chipIndexOf physPageOf receive transmit)

theorem index_zero (i : Fin 1) : i = 0 := Fin.ext (by omega)

theorem bundle_get (d : W25NFlashDevice) (i : Fin 1) : d.bundle.chips.get i = d.chip :=
  Vector.getElem_replicate i.isLt

theorem bundle_setChip (d : W25NFlashDevice) (i : Fin 1) (c : Chip) :
    d.bundle.setChip i c = (d.setChip c).bundle := by
  refine congrArg W25NSpiFlashDevice.mk (Vector.ext fun j hj => ?_)
  have hget := Vector.get_put d.bundle.chips i ⟨j, hj⟩ c
  rw [if_pos (by rw [index_zero i]; show 0 = j; omega)] at hget
  exact hget.trans (Vector.getElem_replicate hj).symm

theorem bundle_ofBundle (d : W25NFlashDevice) (b : W25NSpiFlashDevice 1) : (d.ofBundle b).bundle = b := by
  refine congrArg W25NSpiFlashDevice.mk (Vector.ext fun j hj => ?_)
  have hj0 : (⟨j, hj⟩ : Fin 1) = 0 := index_zero _
  refine (Vector.getElem_replicate hj).trans ?_
  show b.chips.get 0 = b.chips.get ⟨j, hj⟩
  rw [hj0]

theorem Ok.idle {d : W25NFlashDevice} (h : d.Ok) : d.bundle.Idle := fun i => by
  rw [bundle_get]
  exact h.ready

theorem Ok.ofBundle {d : W25NFlashDevice} (h : d.Ok) {b : W25NSpiFlashDevice 1} (hb : b.Idle) :
    (d.ofBundle b).Ok := ⟨hb 0, h.wired⟩

theorem Ok.setChip {d : W25NFlashDevice} (h : d.Ok) {c : Chip} (hc : c.busy = false) :
    (d.setChip c).Ok := ⟨hc, h.wired⟩

theorem physPage_one (page : Nat) : physPageOf 1 page = page := Nat.div_one page

theorem bundle_flat (d : W25NFlashDevice) : d.bundle.flat = d.flat := by
  funext a
  unfold W25NSpiFlashDevice.flat flat
  rw [bundle_get, physPage_one, Nat.mul_one]

theorem page_lt {offset length : Nat} (hin : offset + length ≤ W25N_TOTAL_SIZE) (h0 : 0 < length) :
    offset / W25N_PAGE_SIZE < 2 ^ 24 := by
  have hin : offset + length ≤ 268435456 := hin
  show offset / 2048 < 16777216
  omega

theorem col_lt (offset : Nat) : offset % W25N_PAGE_SIZE < 2 ^ 16 :=
  (Nat.mod_lt _ (by decide)).trans (by decide : 2048 < 2 ^ 16)

/-! ## The calls -/

/-- One chunk of a read. -/
theorem readChunk_spi {d : W25NFlashDevice} (h : d.Ok) {offset cnt : Nat} (h0 : 0 < cnt)
    (hin : offset + cnt ≤ W25N_TOTAL_SIZE) : ∃ data,
    W25nPio.pageRead d.chip (offset / W25N_PAGE_SIZE) =
      (true, d.chip.latched (offset / W25N_PAGE_SIZE)) ∧
    W25nPio.readBuf (d.chip.latched (offset / W25N_PAGE_SIZE)) (offset % W25N_PAGE_SIZE) cnt = some data ∧
    W25NSpiFlashDevice.readChunk d.bundle offset cnt =
      (some data, (d.setChip (d.chip.latched (offset / W25N_PAGE_SIZE))).bundle) := by
  have hpage := page_lt hin h0
  have hbuf := W25nSpi.readBuf_eq (d := d.chip.latched (offset / W25N_PAGE_SIZE)) h.ready (col_lt offset) cnt
  refine ⟨_, W25nPio.pageRead_eq h.ready hpage, (W25nPio.readBuf_spi _ _ _).trans hbuf, ?_⟩
  unfold W25NSpiFlashDevice.readChunk
  simp only [bundle_get, physPage_one, W25nSpi.pageRead_eq h.ready hpage, if_true, hbuf, bundle_setChip]

theorem readLoop_spi {n : Nat} (length : Nat) : ∀ {d : W25NFlashDevice} (offset pos : Nat)
    (buffer : Vector Byte n), d.Ok → offset + length ≤ W25N_TOTAL_SIZE →
    W25NSpiFlashDevice.readLoop d.bundle offset buffer pos length =
      ((readLoop d offset buffer pos length).1, (readLoop d offset buffer pos length).2.1,
        (readLoop d offset buffer pos length).2.2.bundle) ∧
      (readLoop d offset buffer pos length).2.2.Ok := by
  induction length using Nat.strongRecOn with
  | ind length ih =>
    intro d offset pos buffer h hin
    unfold W25NSpiFlashDevice.readLoop readLoop
    by_cases h0 : 0 < length
    · rw [if_pos h0, if_pos h0]
      have hcol : offset % W25N_PAGE_SIZE < W25N_PAGE_SIZE := Nat.mod_lt _ (by decide)
      generalize hcnt : min (W25N_PAGE_SIZE - offset % W25N_PAGE_SIZE) length = cnt
      obtain ⟨data, hpage, hbuf, hchunk⟩ := readChunk_spi h (show 0 < cnt by omega)
        (show offset + cnt ≤ W25N_TOTAL_SIZE by omega)
      have hu : u32 (offset + cnt) = offset + cnt := by
        have : offset + length ≤ 268435456 := hin
        exact u32_of_lt (show offset + cnt < 4294967296 by omega)
      simp only [hchunk, hpage, if_true, hbuf, hu]
      exact ih (length - cnt) (by omega) _ _ _ (h.setChip h.ready) (by omega)
    · rw [if_neg h0, if_neg h0]
      exact ⟨rfl, h⟩

/-- During `write` the bundle's chip may still be programming what the HAT's chip has waited for. -/
structure Ahead (d : W25NFlashDevice) (b : W25NSpiFlashDevice 1) (pending : W25NSpiFlashDevice.Pending 1) :
    Prop where
  ready : (b.chips.get 0).ready = d.chip
  idle : pending.get 0 = none → (b.chips.get 0).busy = false

theorem Ahead.bundle_of_idle {d : W25NFlashDevice} {b : W25NSpiFlashDevice 1}
    (h : (b.chips.get 0).ready = d.chip) (hb : (b.chips.get 0).busy = false) : b = d.bundle := by
  have hready : (b.chips.get 0).ready = b.chips.get 0 := by
    unfold Chip.ready
    rw [← hb]
  rw [← bundle_ofBundle d b]
  exact congrArg bundle (congrArg d.setChip (hready.symm.trans h))

/-- After the wait both chips are the same. -/
theorem Ahead.wait {d : W25NFlashDevice} {b : W25NSpiFlashDevice 1}
    {pending : W25NSpiFlashDevice.Pending 1} (h : Ahead d b pending) (i : Fin 1) :
    ∃ pending', W25NSpiFlashDevice.waitChip b pending i = (true, pending', d.bundle) := by
  rw [index_zero i]
  unfold W25NSpiFlashDevice.waitChip
  cases hp : pending.get 0 with
  | none => exact ⟨pending, Prod.ext rfl (Prod.ext rfl (bundle_of_idle h.ready (h.idle hp)))⟩
  | some page =>
    refine ⟨pending.put 0 none, ?_⟩
    simp only [W25nSpi.programWait_eq]
    refine Prod.ext rfl (Prod.ext rfl (bundle_of_idle ?_ ?_))
    · rw [W25NSpiFlashDevice.chips_setChip_self]
      exact h.ready
    · rw [W25NSpiFlashDevice.chips_setChip_self]
      rfl

/-- One chunk of a write. -/
theorem writeChunk_spi {d : W25NFlashDevice} (h : d.Ok) {offset cnt : Nat} (h0 : 0 < cnt)
    (hin : offset + cnt ≤ W25N_TOTAL_SIZE) (data : List Byte) : ∃ c : Chip,
    W25nPio.programBegin d.pins d.others d.noQuad d.chip (offset % W25N_PAGE_SIZE) data =
      (true, d.chip.loaded (offset % W25N_PAGE_SIZE) data) ∧
    W25nPio.programCommit (d.chip.loaded (offset % W25N_PAGE_SIZE) data) (offset / W25N_PAGE_SIZE) =
      (true, c.ready) ∧
    W25NSpiFlashDevice.loadIssue d.bundle (chipIndexOf (offset / W25N_PAGE_SIZE))
      (physPageOf 1 (offset / W25N_PAGE_SIZE)) (offset % W25N_PAGE_SIZE) data =
        (true, (d.setChip c).bundle) := by
  have hpage := page_lt hin h0
  refine ⟨_, W25nPio.programBegin_eq h.ready h.wired _ (col_lt offset) data,
    W25nPio.programCommit_eq (d := Chip.loaded _ _ _) h.ready rfl hpage, ?_⟩
  unfold W25NSpiFlashDevice.loadIssue
  simp only [bundle_get, physPage_one, W25nSpi.programLoad_eq h.ready (col_lt offset), if_true,
    W25nSpi.programIssue_eq (d := Chip.loaded _ _ _) h.ready rfl hpage, bundle_setChip]

/-- What the loops of `write` end with. -/
structure Wrote (r : Bool × W25NFlashDevice)
    (b : Bool × W25NSpiFlashDevice.Pending 1 × W25NSpiFlashDevice 1) : Prop where
  ok : b.1 = r.1
  ahead : Ahead r.2 b.2.2 b.2.1
  next : r.2.Ok

theorem writeLoop_spi {n : Nat} (buffer : Vector Byte n) (length : Nat) : ∀ {d : W25NFlashDevice}
    {b : W25NSpiFlashDevice 1} (pending : W25NSpiFlashDevice.Pending 1) (offset pos : Nat),
    d.Ok → Ahead d b pending → offset + length ≤ W25N_TOTAL_SIZE →
    Wrote (writeLoop d offset buffer pos length)
      (W25NSpiFlashDevice.writeLoop b pending offset buffer pos length) := by
  induction length using Nat.strongRecOn with
  | ind length ih =>
    intro d b pending offset pos h ha hin
    unfold W25NSpiFlashDevice.writeLoop writeLoop
    by_cases h0 : 0 < length
    · rw [if_pos h0, if_pos h0]
      have hcol : offset % W25N_PAGE_SIZE < W25N_PAGE_SIZE := Nat.mod_lt _ (by decide)
      generalize hcnt : min (W25N_PAGE_SIZE - offset % W25N_PAGE_SIZE) length = cnt
      have hu : u32 (offset + cnt) = offset + cnt := by
        have : offset + length ≤ 268435456 := hin
        exact u32_of_lt (show offset + cnt < 4294967296 by omega)
      obtain ⟨pending', hwait⟩ := ha.wait (chipIndexOf (offset / W25N_PAGE_SIZE))
      obtain ⟨c, hbegin, hcommit, hissue⟩ := writeChunk_spi h (show 0 < cnt by omega)
        (show offset + cnt ≤ W25N_TOTAL_SIZE by omega) (transmit buffer pos cnt)
      simp only [hcnt, hwait, hbegin, hcommit, hissue, if_true, hu]
      refine ih (length - cnt) (by omega) _ _ _ (h.setChip rfl) ⟨?_, fun hnone => ?_⟩ (by omega)
      · rw [bundle_get]
        rfl
      · rw [index_zero (chipIndexOf _), Vector.get_put, if_pos rfl] at hnone
        cases hnone
    · rw [if_neg h0, if_neg h0]
      exact ⟨rfl, ha, h⟩

theorem write_spi {n : Nat} {d : W25NFlashDevice} (h : d.Ok) {offset : Nat} (buffer : Vector Byte n)
    (hin : offset + n ≤ W25N_TOTAL_SIZE) :
    W25NSpiFlashDevice.write d.bundle offset buffer =
      ((writeLoop d offset buffer 0 n).1, (writeLoop d offset buffer 0 n).2.bundle) ∧
      (writeLoop d offset buffer 0 n).2.Ok := by
  have hready : d.chip.ready = d.chip := by
    unfold Chip.ready
    rw [← h.ready]
  obtain ⟨hok, hahead, hnext⟩ := writeLoop_spi buffer n (.replicate 1 none) offset 0 h
    (b := d.bundle) ⟨(congrArg Chip.ready (bundle_get d 0)).trans hready, fun _ => h.idle 0⟩ hin
  obtain ⟨pending', hwait⟩ := hahead.wait 0
  refine ⟨?_, hnext⟩
  have hall : List.finRange 1 = [0] := rfl
  unfold W25NSpiFlashDevice.write
  rw [hall, W25NSpiFlashDevice.waitAll, W25NSpiFlashDevice.waitAll]
  simp only [hwait, Bool.true_and, hok]

theorem eraseBlock_spi {d : W25NFlashDevice} (h : d.Ok) {off : Nat} (hin : off < W25N_TOTAL_SIZE) :
    W25nPio.blockErase d.chip (off / W25N_PAGE_SIZE) = (true, d.chip.erased (off / W25N_PAGE_SIZE)) ∧
    W25NSpiFlashDevice.eraseChips d.bundle (physPageOf 1 (off / W25N_PAGE_SIZE)) (List.finRange 1) =
      (true, (d.setChip (d.chip.erased (off / W25N_PAGE_SIZE))).bundle) := by
  have hone : off + 1 ≤ W25N_TOTAL_SIZE := hin
  have hpage := page_lt hone Nat.one_pos
  have hall : List.finRange 1 = [0] := rfl
  refine ⟨W25nPio.blockErase_eq h.ready hpage, ?_⟩
  rw [hall, W25NSpiFlashDevice.eraseChips]
  simp only [bundle_get, physPage_one, W25nSpi.blockErase_eq h.ready hpage, if_true,
    W25NSpiFlashDevice.eraseChips, bundle_setChip]

theorem groupSize_one : W25NSpiFlashDevice.groupSize 1 = W25N_BLOCK_SIZE := rfl

theorem eraseBlocks_spi {stop : Nat} (hstop : stop ≤ W25N_TOTAL_SIZE) : ∀ (fuel : Nat) {off : Nat}
    {d : W25NFlashDevice}, d.Ok →
    W25NSpiFlashDevice.eraseGroups d.bundle stop fuel off =
      ((eraseBlocks d stop fuel off).1, (eraseBlocks d stop fuel off).2.bundle) ∧
      (eraseBlocks d stop fuel off).2.Ok
  | 0, _, _, h => ⟨rfl, h⟩
  | fuel + 1, off, d, h => by
    unfold W25NSpiFlashDevice.eraseGroups eraseBlocks
    by_cases hlt : off < stop
    · obtain ⟨hhat, hspi⟩ := eraseBlock_spi h (Nat.lt_of_lt_of_le hlt hstop)
      rw [if_pos hlt, if_pos hlt]
      simp only [hhat, hspi, if_true]
      exact eraseBlocks_spi hstop fuel (h.setChip rfl)
    · rw [if_neg hlt, if_neg hlt]
      exact ⟨rfl, h⟩

theorem erase_spi {d : W25NFlashDevice} (h : d.Ok) {offset length : Nat}
    (hin : offset + length ≤ W25N_TOTAL_SIZE) :
    W25NSpiFlashDevice.erase d.bundle offset length =
      ((erase d offset length).1, (erase d offset length).2.bundle) ∧ (erase d offset length).2.Ok := by
  have hu : u32 (offset + length) = offset + length := by
    have : offset + length ≤ 268435456 := hin
    exact u32_of_lt (show offset + length < 4294967296 by omega)
  unfold W25NSpiFlashDevice.erase erase
  rw [groupSize_one, hu]
  split
  · exact ⟨rfl, h⟩
  · exact eraseBlocks_spi hin length h

end W25NFlashDevice

/-! ## The pins of a device -/

namespace W25NFlashDevice

theorem chunk_lt (offset : Nat) {length : Nat} (h0 : 0 < length) :
    length - min (W25N_PAGE_SIZE - offset % W25N_PAGE_SIZE) length < length := by
  have hcol : offset % W25N_PAGE_SIZE < W25N_PAGE_SIZE := Nat.mod_lt _ (by decide)
  omega

@[simp] theorem readLoop_pins {n : Nat} (length : Nat) : ∀ {d : W25NFlashDevice} (offset pos : Nat)
    (buffer : Vector Byte n), (readLoop d offset buffer pos length).2.2.pins = d.pins := by
  induction length using Nat.strongRecOn with
  | ind length ih =>
    intro d offset pos buffer
    unfold readLoop
    split
    case isTrue h0 =>
      dsimp only
      split
      · rfl
      · exact ih _ (chunk_lt offset h0) _ _ _
    case isFalse => rfl

@[simp] theorem writeLoop_pins {n : Nat} (buffer : Vector Byte n) (length : Nat) : ∀ {d : W25NFlashDevice}
    (offset pos : Nat), (writeLoop d offset buffer pos length).2.pins = d.pins := by
  induction length using Nat.strongRecOn with
  | ind length ih =>
    intro d offset pos
    unfold writeLoop
    split
    case isTrue h0 =>
      dsimp only
      split
      · split
        · exact ih _ (chunk_lt offset h0) _ _
        · rfl
      · rfl
    case isFalse => rfl

@[simp] theorem eraseBlocks_pins (stop : Nat) : ∀ (fuel off : Nat) (d : W25NFlashDevice),
    (eraseBlocks d stop fuel off).2.pins = d.pins
  | 0, _, _ => rfl
  | fuel + 1, off, d => by
    unfold eraseBlocks
    split
    · dsimp only
      split
      · exact eraseBlocks_pins stop fuel _ _
      · rfl
    · rfl

@[simp] theorem erase_pins (d : W25NFlashDevice) (offset length : Nat) :
    (erase d offset length).2.pins = d.pins := by
  unfold erase
  split
  · rfl
  · exact eraseBlocks_pins _ _ _ _

end W25NFlashDevice

/-! ## Sequences of calls -/

namespace DeviceCall

/-- The call on the HAT. -/
def onHat (d : W25NFlashDevice) : DeviceCall → Answer × W25NFlashDevice
  | read offset buffer =>
    let r := NandInterface.read d offset buffer
    ((r.1, r.2.1.toList), r.2.2)
  | write offset buffer =>
    let r := NandInterface.write d offset buffer
    ((r.1, []), r.2)
  | erase offset length =>
    let r := NandInterface.erase d offset length
    ((r.1, []), r.2)

def runHat (d : W25NFlashDevice) : List DeviceCall → List Answer × W25NFlashDevice
  | [] => ([], d)
  | c :: cs =>
    let r := c.onHat d
    let rs := runHat r.2 cs
    (r.1 :: rs.1, rs.2)

theorem onHat_spi {d : W25NFlashDevice} (h : d.Ok) {c : DeviceCall} (hc : c.InRange W25N_TOTAL_SIZE) :
    c.onChips d.bundle = ((c.onHat d).1, (c.onHat d).2.bundle) ∧ (c.onHat d).2.Ok := by
  cases c with
  | @read offset n buffer =>
    obtain ⟨heq, hok⟩ := W25NFlashDevice.readLoop_spi n offset 0 buffer h hc
    exact ⟨congrArg (fun r : Bool × Vector Byte n × W25NSpiFlashDevice 1 =>
      ((r.1, r.2.1.toList), r.2.2)) heq, hok⟩
  | write offset buffer =>
    obtain ⟨heq, hok⟩ := W25NFlashDevice.write_spi h buffer hc
    exact ⟨congrArg (fun r : Bool × W25NSpiFlashDevice 1 => ((r.1, ([] : List Byte)), r.2)) heq, hok⟩
  | erase offset length =>
    obtain ⟨heq, hok⟩ := W25NFlashDevice.erase_spi h hc
    exact ⟨congrArg (fun r : Bool × W25NSpiFlashDevice 1 => ((r.1, ([] : List Byte)), r.2)) heq, hok⟩

theorem runHat_spi : ∀ (cs : List DeviceCall) {d : W25NFlashDevice}, d.Ok →
    (∀ c ∈ cs, c.InRange W25N_TOTAL_SIZE) →
    runChips d.bundle cs = ((runHat d cs).1, (runHat d cs).2.bundle) ∧ (runHat d cs).2.Ok
  | [], _, h, _ => ⟨rfl, h⟩
  | c :: cs, d, h, hcs => by
    obtain ⟨hcall, hok⟩ := onHat_spi h (hcs c (.head cs))
    obtain ⟨hrest, hend⟩ := runHat_spi cs hok fun c' hc' => hcs c' (.tail c hc')
    unfold runChips runHat
    simp only [hcall, hrest]
    exact ⟨trivial, hend⟩

theorem onHat_flat {d : W25NFlashDevice} (h : d.Ok) {c : DeviceCall} (hc : c.InRange W25N_TOTAL_SIZE) :
    (c.onHat d).1 = (c.onFlat W25N_BLOCK_SIZE d.flat).1 ∧
      (c.onHat d).2.flat = (c.onFlat W25N_BLOCK_SIZE d.flat).2 := by
  obtain ⟨hans, hflat, -⟩ := onChips_flat (N := 1) (by decide) h.idle hc
  rw [(onHat_spi h hc).1, W25NFlashDevice.bundle_flat] at hans hflat
  rw [W25NFlashDevice.bundle_flat] at hflat
  exact ⟨hans, hflat⟩

theorem runHat_flat : ∀ (cs : List DeviceCall) {d : W25NFlashDevice}, d.Ok →
    (∀ c ∈ cs, c.InRange W25N_TOTAL_SIZE) →
    (runHat d cs).1 = (runFlat W25N_BLOCK_SIZE d.flat cs).1 ∧
      (runHat d cs).2.flat = (runFlat W25N_BLOCK_SIZE d.flat cs).2
  | [], _, _, _ => ⟨rfl, rfl⟩
  | c :: cs, d, h, hcs => by
    obtain ⟨hans, hflat⟩ := onHat_flat h (hcs c (.head cs))
    obtain ⟨hrest, hend⟩ := runHat_flat cs (onHat_spi h (hcs c (.head cs))).2 fun c' hc' => hcs c' (.tail c hc')
    unfold runHat runFlat
    rw [hflat] at hrest hend
    exact ⟨congrArg₂ List.cons hans hrest, hend⟩

/-- **The HAT and spidev are one and the same flash.** -/
theorem hat_refines (cs : List DeviceCall) {d : W25NFlashDevice} (h : d.Ok)
    (hcs : ∀ c ∈ cs, c.InRange W25N_TOTAL_SIZE) :
    (runHat d cs).1 = (runChips d.bundle cs).1 ∧ (runHat d cs).2.bundle = (runChips d.bundle cs).2 ∧
      (runHat d cs).1 = (runFlat W25N_BLOCK_SIZE d.flat cs).1 ∧
      (runHat d cs).2.flat = (runFlat W25N_BLOCK_SIZE d.flat cs).2 := by
  obtain ⟨hspi, -⟩ := runHat_spi cs h hcs
  exact ⟨(congrArg Prod.fst hspi).symm, (congrArg Prod.snd hspi).symm, runHat_flat cs h hcs⟩

/-- U2 next to U3: a write over two pages, with and without the four-bit load, and a read of it. -/
theorem hat_refines_u2 :
    let d : W25NFlashDevice := ⟨⟨fun _ _ => 0x0f, fun _ => 0, false, false⟩, .U2, [.U3], false⟩
    let cs : List DeviceCall := [.write 2045 (.replicate 16 0x3c), .read 2040 (.replicate 16 0)]
    (runHat d cs).1 = (runChips d.bundle cs).1 ∧ (runHat d cs).2.bundle = (runChips d.bundle cs).2 ∧
      (runHat d cs).1 = (runFlat W25N_BLOCK_SIZE d.flat cs).1 ∧
      (runHat d cs).2.flat = (runFlat W25N_BLOCK_SIZE d.flat cs).2 :=
  hat_refines _ ⟨rfl, Pins.u2_wired⟩ (by
    intro c hc
    simp only [List.mem_cons, List.not_mem_nil, or_false] at hc
    rcases hc with rfl | rfl <;> simp only [InRange] <;> decide)

end DeviceCall

end NandServer
