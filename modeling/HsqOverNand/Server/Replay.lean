import HsqOverNand.Server.Proof.Life

/-!
# Replaying a stored ROM

`chain`: the words of any operations, linked as `push_op` and `rom_init` link them. `fetch_replays`:
stored at address 0 they are fetched in order, over and over, whatever the operations do, as long as the
ROM area keeps them.
-/

set_option autoImplicit false

namespace NandServer

open NandInterface

/-- The words of the operations: each goes on to the next, the last to 0. -/
def chain (ops : List Emit) : List RomT :=
  let b := ops.foldl (fun b o => pushOp b o.1 o.2.1 o.2.2) ⟨[], 0⟩
  b.rom.modify (b.rom.length - 1) fun o => { o with next := 0 }

/-- `next` of operation `i` of `n`. -/
def nextAddr (n i : Nat) : BitVec 20 := if i + 1 = n then 0 else .ofNat 20 (8 * (i + 1))

/-- The linked words, by index. -/
theorem chain_get {ops : List Emit} (hsize : ops.length * 8 ≤ ROM_SIZE) {i : Nat} (hi : i < ops.length) :
    (chain ops)[i]? = some (toRom ops[i] (nextAddr ops.length i)) := by
  obtain ⟨es, e, rfl⟩ : ∃ es e, ops = es ++ [e] :=
    ⟨_, _, (List.dropLast_append_getLast (List.ne_nil_of_length_pos (Nat.zero_lt_of_lt hi))).symm⟩
  have hlen : (es ++ [e]).length = es.length + 1 := List.length_append
  obtain ⟨-, hlinked⟩ := linked_foldl (hlen ▸ hsize) rfl
  unfold nextAddr
  rw [hlen] at hi ⊢
  by_cases hlast : i + 1 = es.length + 1
  · obtain rfl : i = es.length := by omega
    rw [if_pos rfl, List.getElem_concat_length rfl]
    exact hlinked.last
  · have hlt : i < es.length := by omega
    rw [if_neg hlast, List.getElem_append_left hlt]
    exact hlinked.link i hlt

theorem chain_length {ops : List Emit} (h0 : 0 < ops.length) (hsize : ops.length * 8 ≤ ROM_SIZE) :
    (chain ops).length = ops.length := by
  obtain ⟨es, e, rfl⟩ : ∃ es e, ops = es ++ [e] :=
    ⟨_, _, (List.dropLast_append_getLast (List.ne_nil_of_length_pos h0)).symm⟩
  have hlen : (es ++ [e]).length = es.length + 1 := List.length_append
  rw [hlen]
  exact (linked_foldl (hlen ▸ hsize) rfl).2.len

/-- `rom_init` links the operations of the round. -/
theorem romInit_chain {g g' : Globals} {rom : List RomT} (h : romInit g = some (rom, g')) :
    ∃ ops a, buildRound RAM = some (ops, a) ∧ rom = chain ops := by
  unfold romInit at h
  cases hb : buildRound RAM with
  | none =>
    rw [hb] at h
    cases h
  | some r =>
    rw [hb, Option.bind_eq_bind, Option.bind_some] at h
    simp only [] at h
    split at h
    · cases h
      exact ⟨r.1, r.2, rfl, rfl⟩
    · cases h

namespace CPU

/-- The flash holds the packed words. -/
def Stored (ops : List Emit) (d : Flash) : Prop := AndMemory.readOut d.mem 0 ROM_SIZE = romImage (chain ops)

/-- A run of fetch and execute from `pc` 0. Between two instructions the caller may change everything
but the `pc` and the `rom` buffer (it sets the inputs). -/
structure Run (X : Nat → CPU Flash) : Prop where
  start : (X 0).pc = 0
  pc : ∀ t, (X (t + 1)).pc = (X t).instr.pc
  rom : ∀ t, (X (t + 1)).rom = (X t).instr.rom

theorem Stored.holds {ops : List Emit} {d : Flash} (h : Stored ops d) :
    HoldsRom Flash.mem (chain ops) d := by
  intro a ha
  have hget := congrArg (fun v : Vector Byte ROM_SIZE => v[a]) h
  simp only [AndMemory.getElem_readOut ha, Nat.zero_add, getElem_romImage _ ha] at hget
  exact hget

theorem flash_romDevice (rom : List RomT) : RomDevice (HoldsRom Flash.mem rom) rom where
  ok _ _ _ _ _ h := h
  rom d buf p hp hal h i hi := by
    have hp : p < 655360 := hp
    have hal : p % 2048 = 0 := hal
    have hi' : i < 2048 := hi
    have hin : p + i < ROM_SIZE := show p + i < 655360 by omega
    exact (AndMemory.getElem_readOut hi).trans (h _ hin)

section
variable {ops : List Emit} (h0 : 0 < ops.length) (hsize : ops.length * 8 ≤ ROM_SIZE)
include h0 hsize

/-- **One instruction** moves on to the next operation, cyclically. -/
theorem romAt_instr {c c' : CPU Flash} {i : Nat} (hi : i < ops.length) (h : RomAt (chain ops) c i)
    (hs : Stored ops c.nand) (hpc : c'.pc = c.instr.pc) (hrom : c'.rom = c.instr.rom) :
    RomAt (chain ops) c' ((i + 1) % ops.length) := by
  have hlen := chain_length h0 hsize
  have hsz : (chain ops).length * 8 ≤ ROM_SIZE := hlen ▸ hsize
  have hinstr := instr_eq (flash_romDevice _) hsz h (chain_get hsize hi) hs.holds
  unfold nextAddr at hinstr
  by_cases hlast : i + 1 = ops.length
  · -- The jump back to 0 refills the buffer.
    rw [if_pos hlast] at hinstr
    rw [hlast, Nat.mod_self]
    have hpc0 : c'.pc = 0 := by
      rw [hpc, hinstr]
      rfl
    exact ⟨hpc0, fun hp => absurd (by rw [hpc0, Nat.zero_mod]) hp⟩
  · rw [if_neg hlast] at hinstr
    rw [Nat.mod_eq_of_lt (show i + 1 < ops.length by omega)]
    have hnext : (BitVec.ofNat 20 (8 * (i + 1))).toNat = 8 * (i + 1) := by
      have hb : ops.length * 8 ≤ 655360 := hsize
      rw [BitVec.toNat_ofNat]
      exact Nat.mod_eq_of_lt (show 8 * (i + 1) < 1048576 by omega)
    rw [hnext] at hinstr
    have hat := romAt_next (flash_romDevice _) hsz h (hlen.symm ▸ hi) hs.holds ops[i]
    rw [← hinstr] at hat
    refine ⟨hpc.trans hat.pc, fun hp j hj => ?_⟩
    rw [hpc] at hp
    have hl := hat.loaded hp j hj
    rw [← hpc] at hl
    simp only [hrom]
    exact hl

/-- The invariant of a run. -/
theorem romAt_run {X : Nat → CPU Flash} (hrun : Run X) : ∀ t, (∀ s < t, Stored ops (X s).nand) →
    RomAt (chain ops) (X t) (t % ops.length)
  | 0, _ => by
    rw [Nat.zero_mod]
    exact ⟨hrun.start, fun hp => absurd (by rw [hrun.start, Nat.zero_mod]) hp⟩
  | t + 1, hs => by
    have ih := romAt_run hrun t fun s hlt => hs s (Nat.lt_succ_of_lt hlt)
    have hnext := romAt_instr h0 hsize (Nat.mod_lt t h0) ih (hs t (Nat.lt_succ_self t)) (hrun.pc t)
      (hrun.rom t)
    rwa [Nat.mod_add_mod] at hnext

/-- **Instruction `t` of a run fetches operation `t % n`**, with all its fields. -/
theorem fetch_replays {X : Nat → CPU Flash} (hrun : Run X) (t : Nat)
    (hs : ∀ s ≤ t, Stored ops (X s).nand) :
    ops[t % ops.length]?.map (toRom · (nextAddr ops.length (t % ops.length))) = some (X t).fetch.1 := by
  have hi := Nat.mod_lt t h0
  have hlen := chain_length h0 hsize
  have hat := romAt_run h0 hsize hrun t fun s hlt => hs s hlt.le
  have hfetch := fetch_eq (flash_romDevice _) hat (hlen ▸ hsize) (hlen.symm ▸ hi) (hs t (Nat.le_refl t)).holds
  rw [hfetch, List.getElem?_eq_getElem hi, Option.map_some, ← chain_get hsize hi, List.getElem?_eq_getElem]

end

/-- The flash with the words of these operations, and a CPU on it before its first instruction. -/
def freshOn (ops : List Emit) : CPU Flash := init ops.length ⟨fun a => romByte (chain ops) a, 786432⟩

theorem freshOn_stored (ops : List Emit) : Stored ops (freshOn ops).nand := by
  refine Vector.ext fun a ha => ?_
  rw [AndMemory.getElem_readOut ha, Nat.zero_add, getElem_romImage _ ha]
  rfl

theorem freshOn_run (ops : List Emit) : Run fun t => instr^[t] (freshOn ops) := by
  refine ⟨rfl, fun t => ?_, fun t => ?_⟩ <;> simp only [Function.iterate_succ_apply']

/-- `CAP_IN` and `MOV` leave the flash as it is. -/
theorem freshOn_nand {ops : List Emit} (h0 : 0 < ops.length) (hsize : ops.length * 8 ≤ ROM_SIZE)
    (hquiet : ∀ e ∈ ops, e.1 = .capIn ∨ e.1 = .mov) (t : Nat) :
    (instr^[t] (freshOn ops)).nand = (freshOn ops).nand := by
  induction t using Nat.strong_induction_on with
  | h t ih =>
    cases t with
    | zero => rfl
    | succ t =>
      have hkept : ∀ s < t + 1, Stored ops (instr^[s] (freshOn ops)).nand := fun s hs => by
        rw [ih s hs]
        exact freshOn_stored ops
      have hi := Nat.mod_lt t h0
      have hat := romAt_run h0 hsize (freshOn_run ops) t fun s hs => hkept s (Nat.lt_succ_of_lt hs)
      have hinstr := instr_eq (flash_romDevice _) (chain_length h0 hsize ▸ hsize) hat (chain_get hsize hi)
        (hkept t (Nat.lt_succ_self t)).holds
      have hrefill (c : CPU Flash) : c.refill.nand = c.nand := by
        unfold refill
        split <;> rfl
      have hexec (c : CPU Flash) : (c.exec ops[t % ops.length]).nand = c.nand := by
        rcases hquiet _ (List.getElem_mem hi) with hcode | hcode <;> simp only [exec, dispatch, hcode, editBuf]
      rw [Function.iterate_succ_apply', hinstr]
      exact ((hexec _).trans (hrefill _)).trans (ih t (Nat.lt_succ_self t))

/-- 300 operations: one page of 256, and the start of the next. -/
def twoPages : List Emit := (List.range 300).map fun k => (if k % 2 = 0 then .capIn else .mov, k, 2 * k)

theorem twoPages_length : twoPages.length = 300 := by
  simp only [twoPages, List.length_map, List.length_range]

theorem twoPages_quiet : ∀ e ∈ twoPages, e.1 = .capIn ∨ e.1 = .mov := by
  intro e he
  obtain ⟨k, -, rfl⟩ := List.mem_map.1 he
  by_cases hk : k % 2 = 0
  · exact .inl (if_pos hk)
  · exact .inr (if_neg hk)

/-- The last operation of the first page and the first of the second, the last of all and the first again,
and the first of the second page in the second pass. -/
theorem fetch_replays_twoPages :
    (instr^[255] (freshOn twoPages)).fetch.1 = toRom (.mov, 255, 510) 2048 ∧
    (instr^[256] (freshOn twoPages)).fetch.1 = toRom (.capIn, 256, 512) 2056 ∧
    (instr^[299] (freshOn twoPages)).fetch.1 = toRom (.mov, 299, 598) 0 ∧
    (instr^[300] (freshOn twoPages)).fetch.1 = toRom (.capIn, 0, 0) 8 ∧
    (instr^[556] (freshOn twoPages)).fetch.1 = toRom (.capIn, 256, 512) 2056 := by
  have hlen := twoPages_length
  have h0 : 0 < twoPages.length := hlen ▸ by decide
  have hsize : twoPages.length * 8 ≤ ROM_SIZE := hlen ▸ by decide
  have h (t : Nat) : (instr^[t] (freshOn twoPages)).fetch.1 =
      toRom (if t % 300 % 2 = 0 then .capIn else .mov, t % 300, 2 * (t % 300)) (nextAddr 300 (t % 300)) := by
    have hlt : t % 300 < 300 := Nat.mod_lt t (by decide)
    have hop : twoPages[t % 300]? = some (if t % 300 % 2 = 0 then .capIn else .mov, t % 300, 2 * (t % 300)) := by
      rw [twoPages, List.getElem?_map, List.getElem?_range hlt]
      rfl
    have hfetch := fetch_replays h0 hsize (freshOn_run twoPages) t fun s _ => by
      rw [freshOn_nand h0 hsize twoPages_quiet s]
      exact freshOn_stored twoPages
    rw [hlen, hop] at hfetch
    exact (Option.some.inj hfetch).symm
  exact ⟨h 255, h 256, h 299, h 300, h 556⟩

end CPU

end NandServer
