import HsqOverNand.Spi.Device
import HsqOverNand.Spi.Proof.Driver

/-!
# A bundle of chips is one flat memory

`flat` follows every loop of the device: `readLoop_spec`, `writeLoop_spec`, `eraseGroups_spec`. Between
two calls no chip is busy (`Idle`); inside `write` a busy chip has a pending page (`PendingOk`), so it is
waited for before its next load.
-/

set_option autoImplicit false

namespace NandServer

namespace W25NSpiFlashDevice

variable {N : Nat}

/-! ## Addresses -/

/-- Chip and physical page determine the logical page. -/
theorem page_inj {p q : Nat} (hm : p % N = q % N) (hd : p / N = q / N) : p = q := by
  rw [← Nat.div_add_mod p N, ← Nat.div_add_mod q N, hm, hd]

theorem page_lt {a : Nat} (h : a < W25N_SPI_TOTAL_SIZE * N) : a / W25N_SPI_PAGE_SIZE / N < 131072 := by
  have h : a < 268435456 * N := h
  have hp : a / 2048 < N * 131072 := by omega
  exact Nat.div_lt_of_lt_mul hp

theorem page_lt' {a : Nat} (h : a < W25N_SPI_TOTAL_SIZE * N) :
    physPageOf N (a / W25N_SPI_PAGE_SIZE) < 2 ^ 24 :=
  (page_lt h).trans (by decide)

/-- A page is inside the bundle or outside. -/
theorem page_in {a off : Nat} (h : a / W25N_SPI_PAGE_SIZE = off / W25N_SPI_PAGE_SIZE)
    (hoff : off < W25N_SPI_TOTAL_SIZE * N) : a < W25N_SPI_TOTAL_SIZE * N := by
  have h : a / 2048 = off / 2048 := h
  have hoff : off < 268435456 * N := hoff
  show a < 268435456 * N
  omega

/-- The bytes of a chunk are in one page. -/
theorem chunk_page (off i : Nat) (h : off % W25N_SPI_PAGE_SIZE + i < W25N_SPI_PAGE_SIZE) :
    (off + i) / W25N_SPI_PAGE_SIZE = off / W25N_SPI_PAGE_SIZE ∧
      (off + i) % W25N_SPI_PAGE_SIZE = off % W25N_SPI_PAGE_SIZE + i := by
  have h : off % 2048 + i < 2048 := h
  show (off + i) / 2048 = off / 2048 ∧ (off + i) % 2048 = off % 2048 + i
  omega

/-! ## Chips -/

theorem chips_setChip (d : W25NSpiFlashDevice N) (i j : Fin N) (c : Chip) :
    (d.setChip i c).chips.get j = if i.val = j.val then c else d.chips.get j := Vector.get_put _ _ _ _

theorem chips_setChip_self (d : W25NSpiFlashDevice N) (i : Fin N) (c : Chip) :
    (d.setChip i c).chips.get i = c := by
  rw [chips_setChip, if_pos rfl]

section
variable [NeZero N]

theorem flat_congr {d d' : W25NSpiFlashDevice N}
    (h : ∀ j : Fin N, (d'.chips.get j).pages = (d.chips.get j).pages) :
    d'.flat = d.flat := by
  funext a
  simp only [flat, h]

/-- A chip with the same cells. -/
theorem flat_setChip {d : W25NSpiFlashDevice N} {i : Fin N} {c : Chip}
    (h : c.pages = (d.chips.get i).pages) : (d.setChip i c).flat = d.flat := by
  refine flat_congr fun j => ?_
  rw [chips_setChip]
  by_cases hij : i.val = j.val
  · rw [if_pos hij, h, Fin.ext hij]
  · rw [if_neg hij]

omit [NeZero N] in
theorem Idle.setChip {d : W25NSpiFlashDevice N} (hd : d.Idle) {i : Fin N} {c : Chip}
    (hc : c.busy = false) : (d.setChip i c).Idle := by
  intro j
  rw [chips_setChip]
  split
  · exact hc
  · exact hd j

theorem flat_lt {d : W25NSpiFlashDevice N} {a : Nat} (h : a < W25N_SPI_TOTAL_SIZE * N) : d.flat a =
    (d.chips.get (chipIndexOf (a / W25N_SPI_PAGE_SIZE))).pages
      (physPageOf N (a / W25N_SPI_PAGE_SIZE)) (a % W25N_SPI_PAGE_SIZE) := if_pos h

theorem flat_ge {d : W25NSpiFlashDevice N} {a : Nat} (h : ¬ a < W25N_SPI_TOTAL_SIZE * N) :
    d.flat a = 0xff := if_neg h

/-! ## `read` -/

theorem receive_get {n : Nat} {buffer : Vector Byte n} {pos cnt : Nat} {f : Nat → Byte} {i : Nat}
    (hi : i < n) : (receive buffer pos ((List.range cnt).map f))[i] =
      if pos ≤ i ∧ i < pos + cnt then f (i - pos) else buffer[i] := by
  unfold receive Vector.get
  rw [Vector.getElem_ofFn]
  by_cases hp : pos ≤ i
  · by_cases hc : i < pos + cnt
    · have hlt : i - pos < cnt := by omega
      simp [hp, hc, List.getD_eq_getElem?_getD, hlt]
    · have hge : ¬ i - pos < cnt := by omega
      simp [hp, hc, List.getD_eq_getElem?_getD, hge]
  · simp [hp]

theorem readChunk_spec {d : W25NSpiFlashDevice N} (hd : d.Idle) (offset cnt : Nat)
    (hin : offset + cnt ≤ W25N_SPI_TOTAL_SIZE * N) (h0 : 0 < cnt)
    (hc : offset % W25N_SPI_PAGE_SIZE + cnt ≤ W25N_SPI_PAGE_SIZE) : ∃ d',
      readChunk d offset cnt = (some ((List.range cnt).map fun i => d.flat (offset + i)), d') ∧
        d'.flat = d.flat ∧ d'.Idle := by
  have hcol : offset % W25N_SPI_PAGE_SIZE < 2 ^ 16 :=
    (Nat.mod_lt _ (by decide)).trans (by decide : 2048 < 2 ^ 16)
  have hpage := W25nSpi.pageRead_eq (hd (chipIndexOf (offset / W25N_SPI_PAGE_SIZE)))
    (page_lt' (show offset < W25N_SPI_TOTAL_SIZE * N by omega))
  unfold readChunk
  simp only [hpage, if_true]
  rw [W25nSpi.readBuf_eq (d := Chip.latched _ _) (hd _) hcol]
  refine ⟨_, Prod.ext (congrArg some (List.map_congr_left fun i hi => ?_)) rfl, flat_setChip rfl,
    hd.setChip (hd _)⟩
  have hi : i < cnt := List.mem_range.1 hi
  obtain ⟨hp, hm⟩ := chunk_page offset i (by omega)
  rw [flat_lt (by omega), hp, hm]
  rfl

/-- The outcome of reading the bytes of the buffer from `pos` on. -/
structure ReadDone {n : Nat} (d : W25NSpiFlashDevice N) (offset : Nat) (buffer : Vector Byte n) (pos : Nat)
    (r : Bool × Vector Byte n × W25NSpiFlashDevice N) : Prop where
  ok : r.1 = true
  flat : r.2.2.flat = d.flat
  idle : r.2.2.Idle
  get : ∀ i (hi : i < n), r.2.1[i] = if i < pos then buffer[i] else d.flat (offset + (i - pos))

theorem readLoop_spec (hN : N ≤ 15) {n : Nat} (length : Nat) :
    ∀ {d : W25NSpiFlashDevice N} (offset pos : Nat) (buffer : Vector Byte n), d.Idle →
      offset + length ≤ W25N_SPI_TOTAL_SIZE * N → pos + length = n →
      ReadDone d offset buffer pos (readLoop d offset buffer pos length) := by
  induction length using Nat.strongRecOn with
  | ind length ih =>
    intro d offset pos buffer hidle hin hpos
    unfold readLoop
    by_cases h0 : 0 < length
    · rw [if_pos h0]
      have hcol : offset % W25N_SPI_PAGE_SIZE < W25N_SPI_PAGE_SIZE := Nat.mod_lt _ (by decide)
      generalize hcnt : min (W25N_SPI_PAGE_SIZE - offset % W25N_SPI_PAGE_SIZE) length = cnt
      have hu : u32 (offset + cnt) = offset + cnt := by
        have : offset + length ≤ 268435456 * N := hin
        exact u32_of_lt (show offset + cnt < 4294967296 by omega)
      obtain ⟨d', hchunk, hflat, hidle'⟩ := readChunk_spec hidle offset cnt
        (by omega) (by omega) (by omega)
      simp only [hchunk, hu]
      have hrest := ih (length - cnt) (by omega) (offset + cnt) (pos + cnt)
        (receive buffer pos ((List.range cnt).map fun i => d.flat (offset + i))) hidle' (by omega) (by omega)
      refine ⟨hrest.ok, hrest.flat.trans hflat, hrest.idle, fun i hi => ?_⟩
      rw [hrest.get i hi, receive_get hi, hflat]
      by_cases hip : i < pos
      · rw [if_pos (by omega), if_neg (by omega), if_pos hip]
      · by_cases hic : i < pos + cnt
        · rw [if_pos hic, if_pos (by omega), if_neg hip]
        · rw [if_neg hic, if_neg hip]
          exact congrArg d.flat (by omega)
    · rw [if_neg h0]
      exact ⟨rfl, rfl, hidle, fun i hi => by rw [if_pos (by omega)]⟩

/-! ## `write` -/

/-- A busy chip is waited for before its next load. -/
def PendingOk (d : W25NSpiFlashDevice N) (pending : Pending N) : Prop :=
  ∀ i : Fin N, pending.get i = none → (d.chips.get i).busy = false

/-- The chip is ready after the wait; the cells stay. -/
theorem waitChip_spec {d : W25NSpiFlashDevice N} {pending : Pending N} (h : PendingOk d pending)
    (idx : Fin N) : ∃ d' pending', waitChip d pending idx = (true, pending', d') ∧
      PendingOk d' pending' ∧ pending'.get idx = none ∧ d'.flat = d.flat ∧
      ∀ j, (d.chips.get j).busy = false → (d'.chips.get j).busy = false := by
  unfold waitChip
  cases hp : pending.get idx with
  | none => exact ⟨d, pending, rfl, h, hp, rfl, fun _ hj => hj⟩
  | some page =>
    simp only [W25nSpi.programWait_eq]
    refine ⟨_, _, rfl, fun j hj => ?_, ?_, flat_setChip rfl, fun j hj => ?_⟩
    · rw [chips_setChip]
      rw [Vector.get_put] at hj
      by_cases hij : idx.val = j.val
      · rw [if_pos hij]
        rfl
      · rw [if_neg hij] at hj ⊢
        exact h j hj
    · rw [Vector.get_put, if_pos rfl]
    · rw [chips_setChip]
      split
      · rfl
      · exact hj

/-- Programming `data` at a column leaves the other cells. -/
theorem flat_loadIssue {d : W25NSpiFlashDevice N} {offset : Nat} (data : List Byte)
    (hb : (d.chips.get (chipIndexOf (offset / W25N_SPI_PAGE_SIZE))).busy = false)
    (hin : offset < W25N_SPI_TOTAL_SIZE * N)
    (hend : offset % W25N_SPI_PAGE_SIZE + data.length ≤ W25N_SPI_PAGE_SIZE) : ∃ d',
      loadIssue d (chipIndexOf (offset / W25N_SPI_PAGE_SIZE)) (physPageOf N (offset / W25N_SPI_PAGE_SIZE))
        (offset % W25N_SPI_PAGE_SIZE) data = (true, d') ∧
      (∀ j : Fin N, j ≠ chipIndexOf (offset / W25N_SPI_PAGE_SIZE) → d'.chips.get j = d.chips.get j) ∧
      ∀ a, d'.flat a = d.flat a &&& (if offset ≤ a then data.getD (a - offset) 0xff else 0xff) := by
  have hcol : offset % W25N_SPI_PAGE_SIZE < 2 ^ 16 :=
    (Nat.mod_lt _ (by decide)).trans (by decide : 2048 < 2 ^ 16)
  have hones : ∀ x : Byte, x &&& 0xff = x := fun x => BitVec.and_allOnes
  unfold loadIssue
  simp only [W25nSpi.programLoad_eq hb hcol, if_true]
  rw [W25nSpi.programIssue_eq (d := Chip.loaded _ _ _) hb rfl (page_lt' hin)]
  refine ⟨_, rfl, fun j hj => ?_, fun a => ?_⟩
  · rw [chips_setChip, if_neg fun he => hj (Fin.ext he.symm)]
  · by_cases hpage : a / W25N_SPI_PAGE_SIZE = offset / W25N_SPI_PAGE_SIZE
    · -- the page of the data
      have hsub : offset % W25N_SPI_PAGE_SIZE ≤ a % W25N_SPI_PAGE_SIZE ↔ offset ≤ a := by
        have hpage : a / 2048 = offset / 2048 := hpage
        show offset % 2048 ≤ a % 2048 ↔ offset ≤ a
        omega
      have hpos : offset ≤ a → a % W25N_SPI_PAGE_SIZE - offset % W25N_SPI_PAGE_SIZE = a - offset := by
        have hpage : a / 2048 = offset / 2048 := hpage
        show offset ≤ a → a % 2048 - offset % 2048 = a - offset
        omega
      rw [flat_lt (page_in hpage hin), flat_lt (page_in hpage hin), hpage, chips_setChip, if_pos rfl]
      simp only [Chip.issued, Chip.loaded, if_true, hsub]
      by_cases hle : offset ≤ a
      · rw [if_pos hle, if_pos hle, hpos hle]
      · rw [if_neg hle, if_neg hle]
    · -- another page
      have hout : (if offset ≤ a then data.getD (a - offset) 0xff else 0xff) = 0xff := by
        by_cases hle : offset ≤ a
        · have hend : offset % 2048 + data.length ≤ 2048 := hend
          have hpage : a / 2048 ≠ offset / 2048 := hpage
          rw [if_pos hle, List.getD_eq_getElem?_getD, List.getElem?_eq_none (by omega)]
          rfl
        · rw [if_neg hle]
      rw [hout, hones]
      by_cases ha : a < W25N_SPI_TOTAL_SIZE * N
      · rw [flat_lt ha, flat_lt ha, chips_setChip]
        by_cases hchip : (chipIndexOf (a / W25N_SPI_PAGE_SIZE) : Fin N) =
            chipIndexOf (offset / W25N_SPI_PAGE_SIZE)
        · have hphys : physPageOf N (a / W25N_SPI_PAGE_SIZE) ≠ physPageOf N (offset / W25N_SPI_PAGE_SIZE) :=
            fun hd => hpage (page_inj (congrArg Fin.val hchip) hd)
          rw [hchip, if_pos rfl]
          simp only [Chip.issued, Chip.loaded, if_neg hphys]
        · rw [if_neg fun he => hchip (Fin.ext he.symm)]
      · rw [flat_ge ha, flat_ge ha]

/-- Byte `i` of a buffer, ones past its end. -/
def byteAt {n : Nat} (buffer : Vector Byte n) (i : Nat) : Byte := buffer.toList.getD i 0xff

omit [NeZero N] in
theorem transmit_getD {n : Nat} (buffer : Vector Byte n) (pos cnt k : Nat) :
    (transmit buffer pos cnt).getD k 0xff = if k < cnt then byteAt buffer (pos + k) else 0xff := by
  unfold transmit byteAt
  rw [List.getD_eq_getElem?_getD, List.getElem?_take, List.getElem?_drop]
  split
  · rw [List.getD_eq_getElem?_getD]
  · rfl

omit [NeZero N] in
theorem transmit_length {n : Nat} (buffer : Vector Byte n) (pos cnt : Nat) :
    (transmit buffer pos cnt).length ≤ cnt := List.length_take_le _ _

/-- `length` bytes of the buffer from `pos` on are programmed at `offset`. -/
structure WriteDone {n : Nat} (d : W25NSpiFlashDevice N) (offset : Nat) (buffer : Vector Byte n)
    (pos length : Nat) (r : Bool × Pending N × W25NSpiFlashDevice N) : Prop where
  ok : r.1 = true
  pending : PendingOk r.2.2 r.2.1
  flat : ∀ a, r.2.2.flat a = d.flat a &&&
    (if offset ≤ a ∧ a < offset + length then byteAt buffer (pos + (a - offset)) else 0xff)

theorem writeLoop_spec (hN : N ≤ 15) {n : Nat} (buffer : Vector Byte n) (length : Nat) :
    ∀ {d : W25NSpiFlashDevice N} (pending : Pending N) (offset pos : Nat), PendingOk d pending →
      offset + length ≤ W25N_SPI_TOTAL_SIZE * N → pos + length = n →
      WriteDone d offset buffer pos length (writeLoop d pending offset buffer pos length) := by
  have hones : ∀ x : Byte, x &&& 0xff = x := fun x => BitVec.and_allOnes
  induction length using Nat.strongRecOn with
  | ind length ih =>
    intro d pending offset pos hpend hin hpos
    unfold writeLoop
    by_cases h0 : 0 < length
    · rw [if_pos h0]
      have hcol : offset % W25N_SPI_PAGE_SIZE < W25N_SPI_PAGE_SIZE := Nat.mod_lt _ (by decide)
      generalize hcnt : min (W25N_SPI_PAGE_SIZE - offset % W25N_SPI_PAGE_SIZE) length = cnt
      have hu : u32 (offset + cnt) = offset + cnt := by
        have : offset + length ≤ 268435456 * N := hin
        exact u32_of_lt (show offset + cnt < 4294967296 by omega)
      obtain ⟨d1, pending1, hwait, hpend1, hnone, hflat1, -⟩ :=
        waitChip_spec hpend (chipIndexOf (offset / W25N_SPI_PAGE_SIZE))
      have hdata := transmit_length buffer pos cnt
      obtain ⟨d2, hload, hchips, hflat2⟩ := flat_loadIssue (transmit buffer pos cnt)
        (hpend1 _ hnone) (show offset < W25N_SPI_TOTAL_SIZE * N by omega) (by omega)
      simp only [hcnt, hwait, hload, if_true, hu]
      have hpend2 : PendingOk d2 (pending1.put (chipIndexOf (offset / W25N_SPI_PAGE_SIZE) : Fin N)
          (some (physPageOf N (offset / W25N_SPI_PAGE_SIZE)))) := by
        intro j hj
        rw [Vector.get_put] at hj
        split at hj
        · cases hj
        · next hne =>
          rw [hchips j fun he => hne (congrArg Fin.val he.symm)]
          exact hpend1 j hj
      have hrest := ih (length - cnt) (by omega) _ (offset + cnt) (pos + cnt) hpend2 (by omega)
        (by omega)
      refine ⟨hrest.ok, hrest.pending, fun a => ?_⟩
      rw [hrest.flat a, hflat2 a, hflat1, transmit_getD]
      by_cases h1 : offset ≤ a ∧ a < offset + cnt
      · rw [if_pos h1.1, if_pos (by omega), if_neg (by omega), if_pos (by omega), hones]
      · have hchunk : (if offset ≤ a then
            (if a - offset < cnt then byteAt buffer (pos + (a - offset)) else 0xff) else 0xff) = 0xff := by
          split
          · rw [if_neg (by omega)]
          · rfl
        rw [hchunk, hones]
        by_cases h2 : offset + cnt ≤ a ∧ a < offset + cnt + (length - cnt)
        · rw [if_pos h2, if_pos (by omega)]
          exact congrArg (fun i => d.flat a &&& byteAt buffer i) (by omega)
        · rw [if_neg h2, if_neg (by omega)]
    · rw [if_neg h0]
      exact ⟨rfl, hpend, fun a => by rw [if_neg (by omega), hones]⟩

/-- At the end of `write` every chip has been waited for. -/
theorem waitAll_spec : ∀ (is : List (Fin N)) {d : W25NSpiFlashDevice N} {pending : Pending N} (ok : Bool),
    PendingOk d pending → (waitAll d pending ok is).1 = ok ∧ (waitAll d pending ok is).2.flat = d.flat ∧
      ∀ j, (j ∈ is ∨ (d.chips.get j).busy = false) →
        ((waitAll d pending ok is).2.chips.get j).busy = false
  | [], d, _, ok, _ => ⟨rfl, rfl, fun j hj => hj.resolve_left fun h => nomatch h⟩
  | i :: is, d, pending, ok, hpend => by
    obtain ⟨d1, pending1, hwait, hpend1, hnone, hflat, hbusy⟩ := waitChip_spec hpend i
    unfold waitAll
    simp only [hwait, Bool.true_and]
    obtain ⟨hok, hflat', hidle⟩ := waitAll_spec is ok hpend1
    refine ⟨hok, hflat'.trans hflat, fun j hj => hidle j ?_⟩
    rcases hj with hj | hj
    · rcases List.mem_cons.1 hj with rfl | hj
      · exact .inr (hpend1 _ hnone)
      · exact .inl hj
    · exact .inr (hbusy j hj)

theorem write_spec (hN : N ≤ 15) {n : Nat} {d : W25NSpiFlashDevice N} (hd : d.Idle) {offset : Nat}
    (buffer : Vector Byte n) (hin : offset + n ≤ W25N_SPI_TOTAL_SIZE * N) :
    (write d offset buffer).1 = true ∧ (write d offset buffer).2.Idle ∧
      (write d offset buffer).2.flat = AndMemory.program d.flat offset buffer := by
  have hloop := writeLoop_spec hN buffer n (.replicate N none) offset 0
    (fun i _ => hd i) hin (Nat.zero_add n)
  obtain ⟨hok, hflat, hidle⟩ := waitAll_spec (List.finRange N)
    (writeLoop d (.replicate N none) offset buffer 0 n).1 hloop.pending
  refine ⟨hok.trans hloop.ok, fun j => hidle j (.inl (List.mem_finRange j)), hflat.trans ?_⟩
  funext a
  rw [hloop.flat a]
  unfold AndMemory.program byteAt
  by_cases ha : a - offset < n ∧ offset ≤ a
  · have hlt : a - offset < buffer.toList.length := by
      rw [Vector.length_toList]
      exact ha.1
    rw [dif_pos ha, if_pos (by omega), Nat.zero_add, List.getD_eq_getElem?_getD,
      List.getElem?_eq_getElem hlt, Option.getD_some, Vector.getElem_toList]
  · rw [dif_neg ha, if_neg (by omega)]
    exact BitVec.and_allOnes

/-! ## `erase` -/

omit [NeZero N] in
theorem eraseChips_spec {page : Nat} (hp : page < 2 ^ 24) : ∀ (is : List (Fin N)) {d : W25NSpiFlashDevice N},
    d.Idle → (eraseChips d page is).1 = true ∧ (eraseChips d page is).2.Idle ∧
      ∀ j p, ((eraseChips d page is).2.chips.get j).pages p =
        if j ∈ is ∧ p / W25N_SPI_BLOCK_PAGES = page / W25N_SPI_BLOCK_PAGES then fun _ => 0xff
        else (d.chips.get j).pages p
  | [], d, hd => ⟨rfl, hd, fun j p => by rw [if_neg fun h => nomatch h.1]; rfl⟩
  | i :: is, d, hd => by
    unfold eraseChips
    simp only [W25nSpi.blockErase_eq (hd i) hp, if_true]
    obtain ⟨hok, hidle, hpages⟩ := eraseChips_spec hp is
      (hd.setChip (i := i) (c := (d.chips.get i).erased page) rfl)
    refine ⟨hok, hidle, fun j p => ?_⟩
    rw [hpages j p]
    by_cases hij : j = i
    · rw [hij, chips_setChip_self]
      by_cases hblock : p / W25N_SPI_BLOCK_PAGES = page / W25N_SPI_BLOCK_PAGES
      · rw [if_pos (show i ∈ i :: is ∧ _ from ⟨.head is, hblock⟩)]
        split
        · rfl
        · exact if_pos hblock
      · simp only [hblock, and_false, if_false]
        exact if_neg hblock
    · have hmem : j ∈ i :: is ↔ j ∈ is := ⟨fun h => (List.mem_cons.1 h).resolve_left hij, .tail i⟩
      have hne : i.val ≠ j.val := fun h => hij (Fin.ext h.symm)
      rw [chips_setChip, if_neg hne]
      simp only [hmem]

omit [NeZero N] in
theorem groupSize_eq (hN : N ≤ 15) : groupSize N = 131072 * N :=
  u32_of_lt (show 131072 * N < 4294967296 by omega)

/-- One group: a block of every chip is the range of a group. -/
theorem eraseGroup_spec (hN : N ≤ 15) {d : W25NSpiFlashDevice N} (hd : d.Idle) {off : Nat}
    (hal : 131072 * N ∣ off) (hin : off < W25N_SPI_TOTAL_SIZE * N) :
    (eraseChips d (physPageOf N (off / W25N_SPI_PAGE_SIZE)) (List.finRange N)).1 = true ∧
      (eraseChips d (physPageOf N (off / W25N_SPI_PAGE_SIZE)) (List.finRange N)).2.Idle ∧
      (eraseChips d (physPageOf N (off / W25N_SPI_PAGE_SIZE)) (List.finRange N)).2.flat =
        AndMemory.erase d.flat off (131072 * N) := by
  obtain ⟨hok, hidle, hpages⟩ := eraseChips_spec (page_lt' hin) (List.finRange N) hd
  refine ⟨hok, hidle, ?_⟩
  funext a
  have hNpos : 0 < N := NeZero.pos N
  have hgroup : ∀ x, physPageOf N (x / W25N_SPI_PAGE_SIZE) / W25N_SPI_BLOCK_PAGES = x / (131072 * N) := by
    intro x
    unfold physPageOf
    rw [Nat.div_div_eq_div_mul, Nat.div_div_eq_div_mul]
    exact congrArg (x / ·) (show 2048 * (N * 64) = 131072 * N by ring)
  have hmem : a / (131072 * N) = off / (131072 * N) ↔ off ≤ a ∧ a < off + 131072 * N := by
    obtain ⟨g, rfl⟩ := hal
    have hpos : 0 < 131072 * N := by omega
    rw [Nat.mul_div_cancel_left g hpos, Nat.div_eq_iff hpos]
    constructor
    · rintro ⟨h1, h2⟩
      rw [Nat.mul_comm]
      omega
    · rintro ⟨h1, h2⟩
      rw [Nat.mul_comm] at h1 h2
      omega
  unfold AndMemory.erase
  by_cases ha : a < W25N_SPI_TOTAL_SIZE * N
  · rw [flat_lt ha, hpages, hgroup, hgroup]
    by_cases hg : a / (131072 * N) = off / (131072 * N)
    · rw [if_pos ⟨List.mem_finRange _, hg⟩, if_pos (hmem.1 hg)]
      rfl
    · rw [if_neg fun h => hg h.2, if_neg fun h => hg (hmem.2 h), flat_lt ha]
  · rw [flat_ge ha, flat_ge ha]
    split <;> rfl

theorem eraseGroups_spec (hN : N ≤ 15) {stop : Nat} (hstop : stop ≤ W25N_SPI_TOTAL_SIZE * N)
    (hals : 131072 * N ∣ stop) : ∀ (fuel : Nat) {off : Nat} {d : W25NSpiFlashDevice N}, d.Idle →
      131072 * N ∣ off → off ≤ stop → stop ≤ off + fuel →
      (eraseGroups d stop fuel off).1 = true ∧ (eraseGroups d stop fuel off).2.Idle ∧
        (eraseGroups d stop fuel off).2.flat = AndMemory.erase d.flat off (stop - off)
  | 0, off, d, hd, _, hle, hfuel => by
    refine ⟨decide_eq_true (by omega), hd, ?_⟩
    funext a
    exact (AndMemory.erase_other (by omega)).symm
  | fuel + 1, off, d, hd, hal, hle, hfuel => by
    unfold eraseGroups
    by_cases hlt : off < stop
    · have hstop' : stop ≤ 268435456 * N := hstop
      obtain ⟨x, rfl⟩ := hal
      obtain ⟨y, rfl⟩ := hals
      have hNpos : 0 < 131072 * N := by have := NeZero.pos N; omega
      have hxy : x + 1 ≤ y := Nat.lt_of_mul_lt_mul_left hlt
      have hnext : 131072 * N * (x + 1) ≤ 131072 * N * y := Nat.mul_le_mul_left _ hxy
      rw [Nat.mul_succ] at hnext
      obtain ⟨hok, hidle, hflat⟩ := eraseGroup_spec hN hd ⟨x, rfl⟩
        (show 131072 * N * x < W25N_SPI_TOTAL_SIZE * N by omega)
      have hu : u32 (131072 * N * x + groupSize N) = 131072 * N * x + 131072 * N := by
        rw [groupSize_eq hN]
        exact u32_of_lt (show 131072 * N * x + 131072 * N < 4294967296 by omega)
      rw [if_pos hlt]
      simp only [hok, if_true, hu]
      obtain ⟨hok', hidle', hflat'⟩ := eraseGroups_spec hN hstop ⟨y, rfl⟩ fuel hidle
        ⟨x + 1, (Nat.mul_succ _ _).symm⟩ hnext (by omega)
      refine ⟨hok', hidle', hflat'.trans ?_⟩
      rw [hflat]
      funext a
      unfold AndMemory.erase
      generalize 131072 * N * x = s at *
      generalize 131072 * N * y = e at *
      by_cases h1 : s + 131072 * N ≤ a ∧ a < s + 131072 * N + (e - (s + 131072 * N))
      · rw [if_pos h1, if_pos (by omega)]
      · rw [if_neg h1]
        by_cases h2 : s ≤ a ∧ a < s + 131072 * N
        · rw [if_pos h2, if_pos (by omega)]
        · rw [if_neg h2, if_neg (by omega)]
    · rw [if_neg hlt]
      refine ⟨rfl, hd, ?_⟩
      funext a
      exact (AndMemory.erase_other (by omega)).symm

/-- A range of whole groups. -/
def Aligned (N offset length : Nat) : Prop :=
  offset % (131072 * N) = 0 ∧ length % (131072 * N) = 0

instance (N offset length : Nat) : Decidable (Aligned N offset length) :=
  inferInstanceAs (Decidable (_ ∧ _))

omit [NeZero N] in
theorem erase_refused (hN : N ≤ 15) {d : W25NSpiFlashDevice N} {offset length : Nat}
    (h : ¬ Aligned N offset length) : erase d offset length = (false, d) := by
  unfold erase
  rw [groupSize_eq hN]
  refine if_pos ?_
  unfold Aligned at h
  omega

theorem erase_spec (hN : N ≤ 15) {d : W25NSpiFlashDevice N} (hd : d.Idle) {offset length : Nat}
    (hin : offset + length ≤ W25N_SPI_TOTAL_SIZE * N) (h : Aligned N offset length) :
    (erase d offset length).1 = true ∧ (erase d offset length).2.Idle ∧
      (erase d offset length).2.flat = AndMemory.erase d.flat offset length := by
  have hin' : offset + length ≤ 268435456 * N := hin
  have hoff := Nat.dvd_of_mod_eq_zero h.1
  have hlen := Nat.dvd_of_mod_eq_zero h.2
  have hu : u32 (offset + length) = offset + length :=
    u32_of_lt (show offset + length < 4294967296 by omega)
  unfold erase
  rw [groupSize_eq hN, if_neg (by unfold Aligned at h; omega), hu]
  have hspec := eraseGroups_spec hN hin (Nat.dvd_add hoff hlen) length hd hoff (Nat.le_add_right _ _)
    (Nat.le_refl _)
  rw [Nat.add_sub_cancel_left] at hspec
  exact hspec

end

end W25NSpiFlashDevice

end NandServer
