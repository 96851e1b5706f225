import HsqOverNand.Server.Cpu

/-!
# Executing emitted operations

* `CPU.exec` is the effect of `execute` on everything but `pc` (`execute_toRom`); it neither reads
  nor writes `pc` and `rom`.
* `Exec idle c es c'`: the operations `es` run from `c` to `c'`, with any `idle` change between two
  of them (the `rom` refills of `fetch`).
* `Frame c c'`: the fields that editing and programming the page leave alone.
* `PageColumn mem Ok P j`: in device states `Ok`, bit column `j` of the page at `P` is AND flash.
-/

set_option autoImplicit false

namespace NandServer

open NandInterface

/-- An emitted operation as a microcode word. -/
def toRom (e : Emit) (next : BitVec 20) : RomT := ⟨e.1, .ofNat 20 e.2.1, .ofNat 20 e.2.2, next⟩

/-- Opcode and addresses of a microcode word are those of an emitted operation. -/
def Encodes (op : RomT) (e : Emit) : Prop := op = toRom e op.next

namespace CPU

variable {D : Type}

/-- A state at another `pc`. -/
def setPc (c : CPU D) (pc : Nat) : CPU D := { c with pc := pc }

theorem setPc_signal (c : CPU D) (pc : Nat) : (c.setPc pc).signal = c.signal := rfl

section
variable [NandInterface D]

/-- `execute` without the `pc`; addresses are 20-bit fields. -/
def exec (c : CPU D) (e : Emit) : CPU D :=
  ({ c with signal := false }).dispatch e.1 (e.2.1 % 2 ^ 20) (e.2.2 % 2 ^ 20)

theorem execute_toRom (c : CPU D) (e : Emit) (next : BitVec 20) :
    c.execute (toRom e next) = (c.exec e).setPc next.toNat := by
  simp only [execute, exec, toRom, setPc, BitVec.toNat_ofNat]

end

/-! ## Frames -/

/-- `c'` differs from `c` at most in `page`, `nand`, `shadow`, `pc`, `rom` and `signal`. -/
structure Frame (c c' : CPU D) : Prop where
  out : c'.out = c.out
  inA : c'.inA = c.inA
  inB : c'.inB = c.inB
  isJmp : c'.isJmp = c.isJmp
  romSize : c'.romSize = c.romSize
  getinCnt : c'.getinCnt = c.getinCnt
  pageOffset : c'.pageOffset = c.pageOffset
  preOffset : c'.preOffset = c.preOffset
  nandSize : c'.nandSize = c.nandSize

theorem Frame.refl (c : CPU D) : Frame c c := ⟨rfl, rfl, rfl, rfl, rfl, rfl, rfl, rfl, rfl⟩

theorem Frame.trans {c c' c'' : CPU D} (h : Frame c c') (h' : Frame c' c'') : Frame c c'' where
  out := h'.out.trans h.out
  inA := h'.inA.trans h.inA
  inB := h'.inB.trans h.inB
  isJmp := h'.isJmp.trans h.isJmp
  romSize := h'.romSize.trans h.romSize
  getinCnt := h'.getinCnt.trans h.getinCnt
  pageOffset := h'.pageOffset.trans h.pageOffset
  preOffset := h'.preOffset.trans h.preOffset
  nandSize := h'.nandSize.trans h.nandSize

theorem phys_congr {c c' : CPU D} (h : c'.pageOffset = c.pageOffset) (a : Nat) :
    c'.phys a = c.phys a := by
  simp only [phys, h]

/-- The addresses of the page at `base` stand for the physical page at `P`, which the page buffer
holds. -/
structure InPage (c : CPU D) (base P : Nat) : Prop where
  phys : ∀ a, pageStart a = base → pageStart (c.phys a) = P
  pre : c.preOffset = P

theorem InPage.frame {c c' : CPU D} {base P : Nat} (h : InPage c base P) (hf : Frame c c') :
    InPage c' base P where
  phys a ha := by rw [phys_congr hf.pageOffset]; exact h.phys a ha
  pre := hf.preOffset.trans h.pre

section
variable [NandInterface D]

/-! ## Runs -/

/-- The operations `es` take `c` to `c'`, with `idle` changes before each of them. -/
inductive Exec (idle : CPU D → CPU D → Prop) : CPU D → List Emit → CPU D → Prop
  | nil (c : CPU D) : Exec idle c [] c
  | cons {c m c' : CPU D} {e : Emit} {es : List Emit} :
      idle c m → Exec idle (m.exec e) es c' → Exec idle c (e :: es) c'

theorem Exec.append {idle : CPU D → CPU D → Prop} : ∀ {es es' : List Emit} {c c' : CPU D},
    Exec idle c (es ++ es') c' → ∃ m, Exec idle c es m ∧ Exec idle m es' c'
  | [], _, c, _, h => ⟨c, .nil c, h⟩
  | _ :: _, _, _, _, .cons hi h => by
    obtain ⟨m, h1, h2⟩ := h.append
    exact ⟨m, .cons hi h1, h2⟩

theorem Exec.imp {r s : CPU D → CPU D → Prop} (hi : ∀ c c', r c c' → s c c') :
    ∀ {es : List Emit} {c c' : CPU D}, Exec r c es c' → Exec s c es c'
  | [], c, _, .nil _ => .nil c
  | _ :: _, _, _, .cons h he => .cons (hi _ _ h) (he.imp hi)

/-- Between two executed operations only the `pc` changes. -/
def PcOnly (c c' : CPU D) : Prop := ∃ pc, c' = c.setPc pc

theorem exec_of_execute {ops : List RomT} {es : List Emit} (h : List.Forall₂ Encodes ops es) :
    ∀ {c c0 : CPU D}, PcOnly c0 c →
      ∃ c', Exec PcOnly c0 es c' ∧ PcOnly c' (ops.foldl CPU.execute c) := by
  induction h with
  | nil => exact fun {c c0} hc => ⟨c0, .nil c0, hc⟩
  | @cons op e ops es ho _ ih =>
    intro c c0 hc
    have hx : PcOnly (c.exec e) (c.execute op) :=
      ⟨op.next.toNat, (congrArg c.execute ho).trans (execute_toRom c e op.next)⟩
    obtain ⟨c', h1, h2⟩ := ih hx
    exact ⟨c', .cons hc h1, h2⟩

/-! ## A page column -/

/-- The device states `Ok` are kept by a write and a read of the page at `P`. -/
structure PageOk (Ok : D → Prop) (P : Nat) : Prop where
  write : ∀ d (buf : Vector Byte PAGE_SIZ), Ok d → Ok (NandInterface.write d P buf).2
  read : ∀ d (buf : Vector Byte PAGE_SIZ), Ok d → Ok (NandInterface.read d P buf).2.2

/-- Bit column `j` of the page at `P` is AND flash in the device states `Ok`. -/
structure PageColumn (mem : D → AndMemory.Mem 8) (Ok : D → Prop) (P j : Nat) : Prop where
  write : ∀ d (buf : Vector Byte PAGE_SIZ), Ok d → ∀ i (hi : i < PAGE_SIZ),
    (mem (NandInterface.write d P buf).2 (P + i)).getLsbD j =
      ((mem d (P + i)).getLsbD j && buf[i].getLsbD j)
  read : ∀ d (buf : Vector Byte PAGE_SIZ), Ok d → ∀ i (hi : i < PAGE_SIZ),
    ((NandInterface.read d P buf).2.1[i]).getLsbD j = (mem d (P + i)).getLsbD j
  read_mem : ∀ d (buf : Vector Byte PAGE_SIZ), Ok d → ∀ i < PAGE_SIZ,
    (mem (NandInterface.read d P buf).2.2 (P + i)).getLsbD j = (mem d (P + i)).getLsbD j

theorem flash_pageColumn (P j : Nat) :
    PageColumn Flash.mem (fun _ => True) P j where
  write _ _ _ _ hi := AndMemory.getLsbD_program hi j
  read _ _ _ _ hi := congrArg (BitVec.getLsbD · j) (AndMemory.getElem_readOut hi)
  read_mem _ _ _ _ _ := rfl

/-- A change between two operations that keeps the page, the framed fields and column `j` of the page
at `P`. -/
structure Idle (mem : D → AndMemory.Mem 8) (Ok : D → Prop) (P j : Nat) (c c' : CPU D) : Prop where
  frame : Frame c c'
  page : c'.page = c.page
  ok : Ok c.nand → Ok c'.nand
  mem : ∀ i < PAGE_SIZ, Ok c.nand →
    (mem c'.nand (P + i)).getLsbD j = (mem c.nand (P + i)).getLsbD j

end

end CPU

/-! ## Addresses -/

theorem slot_val (a : Nat) : (slot a).val = a % PAGE_SIZ := rfl

theorem slot_mod (a : Nat) : slot (a % 2 ^ 20) = slot a := by
  apply Fin.ext
  show a % 2 ^ 20 % 2048 = a % 2048
  omega

/-- Two addresses of one page share a byte only if they are equal. -/
theorem slot_inj {a b : Nat} (h : pageStart a = pageStart b) (hs : slot a = slot b) : a = b := by
  have := Fin.val_eq_of_eq hs
  simp only [slot_val, pageStart, PAGE_SIZ] at *
  omega

theorem pageStart_mod {a base : Nat} (h : pageStart a = base) :
    pageStart (a % 2 ^ 20) = base % 2 ^ 20 := by
  subst h
  have : a % 1048576 / 2048 * 2048 = a / 2048 * 2048 % 1048576 := by omega
  exact this

theorem pageStart_pageStart (a : Nat) : pageStart (pageStart a) = pageStart a := by
  show a / 2048 * 2048 / 2048 * 2048 = a / 2048 * 2048
  omega

theorem pageStart_self {a : Nat} (h : a % PAGE_SIZ = 0) : pageStart a = a := by
  simp only [pageStart, PAGE_SIZ] at *
  omega

namespace CPU

variable {D : Type}

theorem pageStart_u32 (n : Nat) : pageStart (u32 n) = u32 (pageStart n) := by
  have h1 : n % 4294967296 / 2048 = n / 2048 % 2097152 := Nat.mod_mul_right_div_self n 2048 2097152
  have h2 : n / 2048 * 2048 % 4294967296 = n / 2048 % 2097152 * 2048 :=
    Nat.mul_mod_mul_right 2048 (n / 2048) 2097152
  show n % 4294967296 / 2048 * 2048 = n / 2048 * 2048 % 4294967296
  rw [h1, h2]

/-- With a page-aligned `pageOffset` pages move as a whole. -/
theorem phys_page {c : CPU D} (hp : c.pageOffset % PAGE_SIZ = 0) {a b : Nat}
    (h : pageStart a = pageStart b) : pageStart (c.phys a) = pageStart (c.phys b) := by
  have hp : c.pageOffset % 2048 = 0 := hp
  have h : a / 2048 * 2048 = b / 2048 * 2048 := h
  have hram : 655360 ≤ a ↔ 655360 ≤ b := by omega
  have hsum : pageStart (a + c.pageOffset) = pageStart (b + c.pageOffset) := by
    have hdiv : (a + c.pageOffset) / 2048 = (b + c.pageOffset) / 2048 := by omega
    exact congrArg (· * 2048) hdiv
  unfold phys
  by_cases hb : RAM ≤ b
  · rw [if_pos hb, if_pos (hram.2 hb), pageStart_u32, pageStart_u32, hsum]
  · rw [if_neg hb, if_neg fun ha => hb (hram.1 ha)]
    exact h

/-- Editing the page the buffer holds. -/
theorem editBuf_inPage {c : CPU D} {base P a : Nat} (h : InPage c base P) (ha : pageStart a = base)
    (v : Byte) : c.editBuf a v = { c with page := c.page.put (slot a) v } := by
  have hp : pageStart (c.phys a) = c.preOffset := (h.phys a ha).trans h.pre.symm
  simp only [editBuf, hp, ne_eq, not_true_eq_false, if_false]

theorem getLsbD_fill (b : Bool) {j : Nat} (hj : j < 8) : (fill b).getLsbD j = b := by
  cases b
  · simp [fill]
  · have h : ∀ j : Fin 8, (fill true).getLsbD j = true := by decide
    exact h ⟨j, hj⟩

theorem eq_fill {x : Byte} {b : Bool} (h : ∀ j < 8, x.getLsbD j = b) : x = fill b :=
  BitVec.eq_of_getLsbD_eq fun j hj => by rw [h j hj, getLsbD_fill b hj]

end CPU

end NandServer
