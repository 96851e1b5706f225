import HsqOverNand.Server.Proof.Exec

/-!
# Microcode: words, ROM image and replay

* `unpackWord_packWord`, `leWord_wordByte`: a packed operation survives the ROM.
* `fetch_eq`: at `pc = 8 * t` `fetch` returns operation `t`, on any device that returns the ROM image
  for its pages (`RomDevice`); the `rom` buffer is refilled at page boundaries.
* `replay`: running the instructions of a stretch of operations executes them (`Exec Refilled`).
-/

set_option autoImplicit false

namespace NandServer

/-! ## Words -/

theorem Opcode.ofBits_toBits (op : Opcode) : Opcode.ofBits op.toBits = op := by cases op <;> rfl

theorem packWord_toNat (o : RomT) : (packWord o).toNat =
    o.code.toBits.toNat * 2305843009213693952 + o.dest.toNat * 1099511627776 +
      o.src.toNat * 1048576 + o.next.toNat := by
  have hc := o.code.toBits.isLt
  have hd := o.dest.isLt
  have hs := o.src.isLt
  have hn := o.next.isLt
  simp only [packWord, BitVec.toNat_add, BitVec.toNat_shiftLeft, BitVec.toNat_setWidth,
    Nat.shiftLeft_eq, Nat.reducePow] at *
  omega

/-- A 20-bit field of a word. -/
theorem field_toNat (w : BitVec 64) (k : Nat) :
    (((w >>> k) &&& 0xfffff).setWidth 20).toNat = w.toNat / 2 ^ k % 1048576 := by
  have h : ∀ x : Nat, x &&& 1048575 = x % 1048576 := fun x => Nat.and_two_pow_sub_one_eq_mod x 20
  rw [BitVec.toNat_setWidth, BitVec.toNat_and, BitVec.toNat_ushiftRight, Nat.shiftRight_eq_div_pow]
  show (w.toNat / 2 ^ k &&& 1048575) % 1048576 = _
  rw [h, Nat.mod_mod]

theorem unpackWord_packWord (o : RomT) : unpackWord (packWord o) = o := by
  have hc : o.code.toBits.toNat < 8 := o.code.toBits.isLt
  have hd : o.dest.toNat < 1048576 := o.dest.isLt
  have hs : o.src.toNat < 1048576 := o.src.isLt
  have hn : o.next.toNat < 1048576 := o.next.isLt
  have hw := packWord_toNat o
  have h1 : ((packWord o >>> 61).setWidth 3) = o.code.toBits := by
    apply BitVec.eq_of_toNat_eq
    rw [BitVec.toNat_setWidth, BitVec.toNat_ushiftRight, Nat.shiftRight_eq_div_pow, hw]
    show _ / 2305843009213693952 % 8 = _
    omega
  have h2 : (((packWord o >>> 40) &&& 0xfffff).setWidth 20) = o.dest := by
    apply BitVec.eq_of_toNat_eq
    rw [field_toNat, hw]
    show _ / 1099511627776 % 1048576 = _
    omega
  have h3 : (((packWord o >>> 20) &&& 0xfffff).setWidth 20) = o.src := by
    apply BitVec.eq_of_toNat_eq
    rw [field_toNat, hw]
    show _ / 1048576 % 1048576 = _
    omega
  have h4 : (((packWord o >>> 0) &&& 0xfffff).setWidth 20) = o.next := by
    apply BitVec.eq_of_toNat_eq
    rw [field_toNat, hw]
    show _ / 1 % 1048576 = _
    omega
  simp only [unpackWord, h1, h2, h3, h4, Opcode.ofBits_toBits]

theorem leWord_wordByte (w : BitVec 64) : leWord (wordByte w) = w := by
  refine BitVec.eq_of_getLsbD_eq fun i hi => ?_
  simp only [leWord, wordByte, BitVec.getLsbD_append, BitVec.getLsbD_extractLsb']
  repeat' split
  all_goals
    rw [decide_eq_true (by omega), Bool.true_and]
    exact congrArg _ (by omega)

theorem leWord_congr {b b' : Nat → Byte} (h : ∀ k < 8, b k = b' k) : leWord b = leWord b' := by
  simp only [leWord, h 0 (by decide), h 1 (by decide), h 2 (by decide), h 3 (by decide),
    h 4 (by decide), h 5 (by decide), h 6 (by decide), h 7 (by decide)]

/-! ## The ROM image -/

/-- Byte `a` of the ROM area. -/
def romByte (rom : List RomT) (a : Nat) : Byte :=
  match rom[a / 8]? with
  | some o => wordByte (packWord o) (a % 8)
  | none => 0xff

theorem getElem_romImage (rom : List RomT) {a : Nat} (h : a < ROM_SIZE) :
    (romImage rom)[a] = romByte rom a := by
  unfold romImage romByte
  rewrite [Vector.getElem_ofFn, List.getElem?_toArray]
  cases rom[a / 8]? with
  | none => rfl
  | some o => rfl

theorem romByte_word (rom : List RomT) {t : Nat} (ht : t < rom.length) {k : Nat} (hk : k < 8) :
    romByte rom (8 * t + k) = wordByte (packWord rom[t]) k := by
  have h1 : (8 * t + k) / 8 = t := by omega
  have h2 : (8 * t + k) % 8 = k := by omega
  simp only [romByte, h1, h2, List.getElem?_eq_getElem ht]

/-- Reading the word of operation `t` back. -/
theorem unpack_romByte (rom : List RomT) {t : Nat} (ht : t < rom.length) :
    unpackWord (leWord fun k => romByte rom (8 * t + k)) = rom[t] := by
  rw [leWord_congr fun k hk => romByte_word rom ht hk, leWord_wordByte, unpackWord_packWord]

namespace CPU

variable {D : Type} [NandInterface D] {Ok : D → Prop} {rom : List RomT}

/-! ## `fetch` -/

/-- The device returns the ROM image for the pages of the ROM area. -/
structure RomDevice (Ok : D → Prop) (rom : List RomT) : Prop where
  ok : ∀ d (buf : Vector Byte PAGE_SIZ) p, p < ROM_SIZE → p % PAGE_SIZ = 0 → Ok d →
    Ok (NandInterface.read d p buf).2.2
  rom : ∀ d (buf : Vector Byte PAGE_SIZ) p, p < ROM_SIZE → p % PAGE_SIZ = 0 → Ok d →
    ∀ i (hi : i < PAGE_SIZ), (NandInterface.read d p buf).2.1[i] = romByte rom (p + i)

/-- The `rom` buffer holds the page of the `pc`. -/
def RomLoaded (rom : List RomT) (c : CPU D) : Prop :=
  ∀ i (hi : i < PAGE_SIZ), c.rom[i] = romByte rom (pageStart c.pc + i)

/-- About to fetch operation `t`. -/
structure RomAt (rom : List RomT) (c : CPU D) (t : Nat) : Prop where
  pc : c.pc = 8 * t
  loaded : c.pc % PAGE_SIZ ≠ 0 → RomLoaded rom c

theorem refill_pc (c : CPU D) : c.refill.pc = c.pc := by
  unfold refill
  split <;> rfl

theorem refill_frame (c : CPU D) : Frame c c.refill := by
  unfold refill
  split <;> exact ⟨rfl, rfl, rfl, rfl, rfl, rfl, rfl, rfl, rfl⟩

theorem refill_page (c : CPU D) : c.refill.page = c.page := by
  unfold refill
  split <;> rfl

theorem refill_loaded (hd : RomDevice Ok rom) {c : CPU D} {t : Nat} (h : RomAt rom c t)
    (ht : 8 * t < ROM_SIZE) (ho : Ok c.nand) : Ok c.refill.nand ∧ RomLoaded rom c.refill := by
  have hlt : c.pc < ROM_SIZE := h.pc ▸ ht
  unfold RomLoaded
  rw [refill_pc]
  unfold refill
  by_cases hp : c.pc % PAGE_SIZ = 0
  · rw [if_pos hp, pageStart_self hp]
    exact ⟨hd.ok _ _ _ hlt hp ho, hd.rom _ _ _ hlt hp ho⟩
  · rw [if_neg hp]
    exact ⟨ho, h.loaded hp⟩

/-- `fetch` returns the operation at the `pc`. -/
theorem fetch_eq (hd : RomDevice Ok rom) {c : CPU D} {t : Nat} (h : RomAt rom c t)
    (hsize : rom.length * 8 ≤ ROM_SIZE) (ht : t < rom.length) (ho : Ok c.nand) :
    c.fetch.1 = rom[t] := by
  have hl := (refill_loaded hd h (by omega) ho).2
  have hpc : c.refill.pc = 8 * t := (refill_pc c).trans h.pc
  show unpackWord c.refill.romWord = rom[t]
  rw [← unpack_romByte rom ht]
  unfold romWord
  refine congrArg _ (leWord_congr fun k hk => ?_)
  have hin : c.refill.pc % PAGE_SIZ + k < PAGE_SIZ := by
    rw [hpc]
    show 8 * t % 2048 + k < 2048
    omega
  rw [dif_pos hin, hl _ hin]
  refine congrArg _ ?_
  rw [hpc]
  show 8 * t / 2048 * 2048 + (8 * t % 2048 + k) = 8 * t + k
  omega

/-! ## Replay -/

theorem runUntilSignal_succ {n : Nat} {c : CPU D} (h : c.instr.signal = false) :
    runUntilSignal (n + 1) c = (fun r => (r.1 + 1, r.2)) (runUntilSignal n c.instr) := by
  rw [runUntilSignal, h]
  rfl

/-- What `fetch` changes: the `pc` is set and the `rom` buffer refilled at a page boundary. -/
def Refilled (c c' : CPU D) : Prop := ∃ pc < ROM_SIZE, c' = (c.setPc pc).refill

/-- An operation that neither ends the round nor leaves the page at `RAM`. -/
structure Quiet (e : Emit) : Prop where
  erase : e.1 ≠ .erase
  prg : e.1 = .prgNand → pageStart (e.2.1 % 2 ^ 20) = RAM
  raise : e.1 = .raise → e.2.1 % 2 ^ 20 % LANES ≠ LANES - 1

theorem exec_rom (c : CPU D) (e : Emit) : (c.exec e).rom = c.rom := by
  obtain ⟨op, dest, src⟩ := e
  cases op <;> try rfl
  unfold exec dispatch raise
  simp only []
  split
  · split <;> rfl
  · rfl

/-- The physical page at `P` stands for the page at `RAM`. -/
def Maps (c : CPU D) (P : Nat) : Prop := ∀ a, pageStart a = RAM → pageStart (c.phys a) = P

theorem exec_quiet {P : Nat} (hok : PageOk Ok P) {e : Emit} (hq : Quiet e) {c : CPU D}
    (hm : Maps c P) (ho : Ok c.nand) : Ok (c.exec e).nand ∧
      (c.exec e).pageOffset = c.pageOffset ∧ (c.exec e).signal = false := by
  obtain ⟨op, dest, src⟩ := e
  cases op with
  | mov => exact ⟨ho, rfl, rfl⟩
  | invMov => exact ⟨ho, rfl, rfl⟩
  | capIn => exact ⟨ho, rfl, rfl⟩
  | getIn => exact ⟨ho, rfl, rfl⟩
  | pushOut => exact ⟨ho, rfl, rfl⟩
  | erase => exact absurd rfl hq.erase
  | prgNand =>
    have hP : pageStart (({ c with signal := false }).phys (dest % 2 ^ 20)) = P :=
      hm _ (hq.prg rfl)
    refine ⟨?_, rfl, rfl⟩
    show Ok (({ c with signal := false }).write (dest % 2 ^ 20)).nand
    unfold CPU.write
    simp only [hP]
    exact hok.read _ _ (hok.write _ _ ho)
  | raise =>
    have he : c.exec (.raise, dest, src) = { c with
        signal := false
        isJmp := c.isJmp.put (laneOf (dest % 2 ^ 20))
          (majorityVote (({ c with signal := false }).read (src % 2 ^ 20))) } := by
      show ({ c with signal := false }).raise (dest % 2 ^ 20) (src % 2 ^ 20) = _
      unfold CPU.raise
      exact if_neg (hq.raise rfl)
    rw [he]
    exact ⟨ho, rfl, rfl⟩

section
variable (hd : RomDevice Ok rom) (hsize : rom.length * 8 ≤ ROM_SIZE)
include hd hsize

/-- One instruction is a refill and the effect of the fetched operation. -/
theorem instr_eq {c : CPU D} {t : Nat} {e : Emit} {next : BitVec 20} (h : RomAt rom c t)
    (hrom : rom[t]? = some (toRom e next)) (ho : Ok c.nand) :
    c.instr = (c.refill.exec e).setPc next.toNat := by
  obtain ⟨ht, he⟩ := List.getElem?_eq_some_iff.1 hrom
  show c.refill.execute c.fetch.1 = _
  rw [fetch_eq hd h hsize ht ho, he, execute_toRom]

/-- After an operation that does not end a ROM page the buffer still holds the page of the `pc`. -/
theorem romAt_next {c : CPU D} {t : Nat} (h : RomAt rom c t) (ht : t < rom.length) (ho : Ok c.nand)
    (e : Emit) : RomAt rom ((c.refill.exec e).setPc (8 * (t + 1))) (t + 1) where
  pc := rfl
  loaded hp i hi := by
    have hp : 8 * (t + 1) % 2048 ≠ 0 := hp
    have hpage : pageStart (8 * (t + 1)) = pageStart c.refill.pc := by
      rw [refill_pc, h.pc]
      show 8 * (t + 1) / 2048 * 2048 = 8 * t / 2048 * 2048
      have hdiv : 8 * (t + 1) / 2048 = 8 * t / 2048 := by omega
      rw [hdiv]
    show (c.refill.exec e).rom[i] = romByte rom (pageStart (8 * (t + 1)) + i)
    simp only [exec_rom, hpage]
    exact (refill_loaded hd h (by omega) ho).2 i hi

/-- **Replay**: quiet operations run one by one. -/
theorem replay {P : Nat} (hok : PageOk Ok P) (es : List Emit) : ∀ (t : Nat) {X : CPU D},
    RomAt rom (X.setPc (8 * t)) t → Ok X.nand → Maps X P → (∀ e ∈ es, Quiet e) →
    (∀ i (hi : i < es.length), rom[t + i]? = some (toRom es[i] (.ofNat 20 (8 * (t + i + 1))))) →
    ∃ X', Exec Refilled X es X' ∧ RomAt rom (X'.setPc (8 * (t + es.length))) (t + es.length) ∧
      Ok X'.nand ∧ X'.pageOffset = X.pageOffset ∧
      ∀ fuel, runUntilSignal (fuel + es.length) (X.setPc (8 * t)) =
        (fun r => (r.1 + es.length, r.2))
          (runUntilSignal fuel (X'.setPc (8 * (t + es.length)))) := by
  induction es with
  | nil => exact fun t X h ho _ _ _ => ⟨X, .nil X, h, ho, rfl, fun _ => rfl⟩
  | cons e es ih =>
    intro t X h ho hm hq hrom
    have hrom0 : rom[t]? = some (toRom e (.ofNat 20 (8 * (t + 1)))) := hrom 0 (by simp)
    have ht : t < rom.length := (List.getElem?_eq_some_iff.1 hrom0).1
    have hnext : (BitVec.ofNat 20 (8 * (t + 1))).toNat = 8 * (t + 1) := by
      rw [BitVec.toNat_ofNat]
      have hlt : 8 * (t + 1) < 1048576 := by
        have : rom.length * 8 ≤ 655360 := hsize
        omega
      exact Nat.mod_eq_of_lt hlt
    have hY : Ok (X.setPc (8 * t)).refill.nand := (refill_loaded hd h (by omega) ho).1
    have hf := refill_frame (X.setPc (8 * t))
    have hmY : Maps (X.setPc (8 * t)).refill P := fun a ha => by
      rw [phys_congr hf.pageOffset]
      exact hm a ha
    obtain ⟨hox, hpo, hsig⟩ := exec_quiet hok (hq e (.head _)) hmY hY
    have hinstr := instr_eq hd hsize h hrom0 ho
    rw [hnext] at hinstr
    have hmX : Maps ((X.setPc (8 * t)).refill.exec e) P := fun a ha => by
      rw [phys_congr (hpo.trans hf.pageOffset)]
      exact hm a ha
    obtain ⟨X', hex, hat, hox', hpo', hrun⟩ := ih (t + 1)
      (romAt_next hd hsize h ht ho e) hox hmX (fun e' he' => hq e' (.tail _ he')) (by
        intro i hi
        have := hrom (i + 1) (by simpa using hi)
        rwa [List.getElem_cons_succ, show t + (i + 1) = t + 1 + i by omega] at this)
    rw [List.length_cons, Nat.add_comm es.length 1, ← Nat.add_assoc t]
    refine ⟨X', .cons ⟨8 * t, by omega, rfl⟩ hex, hat, hox', hpo'.trans (hpo.trans hf.pageOffset),
      fun fuel => ?_⟩
    have hsig' : (X.setPc (8 * t)).instr.signal = false := by
      rw [hinstr]
      exact hsig
    rw [Nat.add_comm 1, ← Nat.add_assoc, runUntilSignal_succ hsig', hinstr, hrun fuel]
    simp only [Nat.add_assoc]

end

end CPU

end NandServer
