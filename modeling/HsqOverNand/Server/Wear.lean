import HsqOverNand.Server.Proof.Flat
import HsqOverNand.Server.Proof.Trace

/-!
# Wear levelling

`Logged`: a fault-free device that records the calls it gets. `wear_levelling`: round `k` after the
construction programs page `k % pages` of the calculation area and no other, the page is blank then, and
the area is erased once after every `pages`-th round (and by the constructor).
-/

set_option autoImplicit false

namespace NandServer

open Netlist NandInterface

/-! ## Recorded calls -/

inductive Call
  | erase (offset length : Nat)
  | read (offset length : Nat)
  | write (offset length : Nat)
  deriving DecidableEq

/-- A fault-free device and the calls it got, oldest first. -/
structure Logged where
  dev : Flash
  calls : List Call

instance : NandInterface Logged where
  erase d offset length := (true,
    ⟨(NandInterface.erase d.dev offset length).2, d.calls ++ [.erase offset length]⟩)
  read {n} d offset buffer := (true, (NandInterface.read d.dev offset buffer).2.1,
    ⟨d.dev, d.calls ++ [.read offset n]⟩)
  write {n} d offset buffer := (true,
    ⟨(NandInterface.write d.dev offset buffer).2, d.calls ++ [.write offset n]⟩)
  size d := d.dev.size

/-- The byte range a call changes. -/
def Call.changes : Call → Option (Nat × Nat)
  | .erase offset length => some (offset, length)
  | .read .. => none
  | .write offset length => some (offset, length)

def Call.isErase : Call → Bool
  | .erase .. => true
  | .read .. => false
  | .write .. => false

/-- An erase that reaches into the calculation area. -/
def Call.erasesCalc : Call → Bool
  | .erase offset length => RAM < offset + length
  | .read .. => false
  | .write .. => false

/-- Programs so far. -/
def Logged.writes (d : Logged) : Nat := d.calls.countP fun
  | .erase .. => false
  | .read .. => false
  | .write .. => true

namespace CPU

/-! ## Statement -/

/-- An instruction before the `t`-th from `c` on edits byte `i` of the page buffer. -/
def Edited (c : CPU Logged) (t : Nat) (i : Fin PAGE_SIZ) : Prop :=
  ∃ s < t, ∃ a ∈ edits (instr^[s] c).fetch.1.emit, slot a = i

/-- Instruction `t` from `c` on is the first that programs the device. -/
def FirstProgram (c : CPU Logged) (t : Nat) : Prop :=
  (instr^[t] c).nand.writes = c.nand.writes ∧ (instr^[t + 1] c).nand.writes ≠ c.nand.writes

/-- What round `k`, from `c`, does to a device of `size` bytes. -/
structure Levelled (size k : Nat) (c : CPU Logged) : Prop where
  calls : ∃ new, c.round.nand.calls = c.nand.calls ++ new ∧
    (∀ off len, .write off len ∈ new →
      off = RAM + k % pages size * PAGE_SIZ ∧ len = PAGE_SIZ) ∧
    new.filter Call.isErase =
      (if (k + 1) % pages size = 0 then [.erase RAM (size - RAM)] else []) ∧
    ((k + 1) % pages size = 0 → new.getLast? = some (.erase RAM (size - RAM))) ∧
    ∀ call ∈ new, ∀ off len, call.changes = some (off, len) → RAM ≤ off ∧ off + len ≤ size
  programs : ∃ t < c.romSize, FirstProgram c t
  first : ∀ t < c.romSize, FirstProgram c t →
    (∀ i < PAGE_SIZ, (instr^[t] c).nand.dev.mem (RAM + k % pages size * PAGE_SIZ + i) = 0xff) ∧
    ∀ i, ¬ Edited c t i → (instr^[t] c).page.get i = 0xff
  wrap : ∀ t < c.romSize, RAM + ((instr^[t] c).pageOffset + PAGE_SIZ) + PAGE_SIZ < 2 ^ 32
  shadow : ∀ r ∈ c.round.shadow, r.1 + r.2 ≤ MTD_SHADOW_SIZE

/-! ## The shadow -/

section
variable {D : Type}

/-- The copies into `mtd_data` stay inside it. -/
def ShadowOk (c : CPU D) : Prop := ∀ r ∈ c.shadow, r.1 + r.2 ≤ MTD_SHADOW_SIZE

theorem shadowPos_le (offset : Nat) : shadowPos offset + PAGE_SIZ ≤ MTD_SHADOW_SIZE := by
  unfold shadowPos
  generalize usub offset RAM / PAGE_SIZ = n
  show n % 122 * 2048 + 2048 ≤ 250000
  omega

theorem ShadowOk.append {c : CPU D} (h : ShadowOk c) {s l : Nat} (hs : s + l ≤ MTD_SHADOW_SIZE) :
    ∀ r ∈ c.shadow ++ [(s, l)], r.1 + r.2 ≤ MTD_SHADOW_SIZE := by
  intro r hr
  cases List.mem_append.1 hr with
  | inl hr => exact h r hr
  | inr hr =>
    rw [List.mem_singleton.1 hr]
    exact hs

variable [NandInterface D]

theorem ShadowOk.erase {c : CPU D} (h : ShadowOk c) : ShadowOk c.erase :=
  h.append (by rw [Nat.zero_add])

theorem ShadowOk.write {c : CPU D} (h : ShadowOk c) (addr : Nat) : ShadowOk (c.write addr) :=
  h.append (shadowPos_le _)

theorem ShadowOk.execute {c : CPU D} (h : ShadowOk c) (op : RomT) : ShadowOk (c.execute op) := by
  have h0 : ShadowOk { c with signal := false } := h
  show ShadowOk (({ c with signal := false }).dispatch op.code op.dest.toNat op.src.toNat)
  unfold dispatch
  cases op.code with
  | prgNand => exact h0.write _
  | erase => exact h0.erase
  | raise =>
    unfold CPU.raise
    simp only []
    split
    · split
      · exact ShadowOk.erase h
      · exact h
    · exact h
  | _ => exact h

theorem ShadowOk.instr {c : CPU D} (h : ShadowOk c) : ShadowOk c.instr := by
  refine ShadowOk.execute (c := c.refill) ?_ _
  unfold refill
  split <;> exact h

theorem ShadowOk.run : ∀ (n : Nat) {c : CPU D}, ShadowOk c → ShadowOk (runUntilSignal n c).2
  | 0, _, h => h
  | n + 1, c, h => by
    unfold runUntilSignal
    split
    · exact h.instr
    · exact ShadowOk.run n h.instr

theorem ShadowOk.rounds : ∀ (inputs : List (Vector (BitVec 64) LANES × Vector (BitVec 64) LANES))
    {c : CPU D}, ShadowOk c → ShadowOk (c.rounds inputs)
  | [], _, h => h
  | _ :: is, _, h => ShadowOk.rounds is (ShadowOk.run _ h)

end

/-! ## The device -/

theorem logged_flat (size : Nat) :
    FlatDevice (fun d : Logged => d.dev.mem) (fun d => d.dev.size = size) size where
  size_eq _ h := h
  read_ok _ _ _ _ _ h := h
  read _ _ _ _ _ _ := rfl
  read_mem _ _ _ _ _ _ := rfl
  write_ok _ _ _ _ _ h := h
  write _ _ _ _ _ _ := rfl
  erase_rom _ h := ⟨rfl, h, rfl⟩
  erase_calc _ h := ⟨h, rfl⟩

/-- The calls of a round that uses the page at `P`. -/
def RoundCall (P : Nat) : Call → Prop
  | .erase .. => False
  | .read .. => True
  | .write offset length => offset = P ∧ length = PAGE_SIZ

/-- Only calls of a round since `base`. -/
def RoundCalls (base : List Call) (P : Nat) (d : Logged) : Prop :=
  ∃ new, d.calls = base ++ new ∧ ∀ call ∈ new, RoundCall P call

theorem RoundCalls.push {base : List Call} {P : Nat} {d : Logged} (h : RoundCalls base P d)
    (call : Call) (hc : RoundCall P call) {dev : Flash} :
    RoundCalls base P ⟨dev, d.calls ++ [call]⟩ := by
  obtain ⟨new, hnew, hall⟩ := h
  refine ⟨new ++ [call], ?_, fun x hx => ?_⟩
  · show d.calls ++ [call] = base ++ (new ++ [call])
    rw [hnew, List.append_assoc]
  · cases List.mem_append.1 hx with
    | inl hx => exact hall x hx
    | inr hx =>
      rw [List.mem_singleton.1 hx]
      exact hc

/-- Between two rounds, on a device of `size` bytes. -/
abbrev LoggedReady (rom : List RomT) (size k : Nat) (c : CPU Logged) : Prop :=
  Ready (fun d => d.dev.mem) (WithRom (fun d => d.dev.mem) (fun d => d.dev.size = size) rom) rom size k c

section
variable {rom : List RomT} {net : Netlist} {cells : List Cell} {last : Int} {l0 l1 : Lane}
  {size k : Nat} {c : CPU Logged} (hc : RoundCode rom net cells last l0 l1) (hs : SizeOk size)
include hc hs

/-- A round's calls. -/
theorem round_calls (h : LoggedReady rom size k c) : ∃ new,
    c.round.nand.calls = c.nand.calls ++ new ++
      (if k + 1 = pages size then [.erase RAM (size - RAM)] else []) ∧
    ∀ call ∈ new, RoundCall (RAM + k * PAGE_SIZ) call := by
  have hcalc : CalcDevice _ _ rom size _ := (logged_flat size).calc hs
  have hdev := (hcalc.page _ (calcPage_of_lt hs h.lt)).and
    (Q := RoundCalls c.nand.calls (RAM + k * PAGE_SIZ))
    (fun d buf _ hq => hq.push (.write _ PAGE_SIZ) ⟨rfl, rfl⟩)
    (fun d buf _ hq => hq.push (.read _ PAGE_SIZ) trivial)
    (fun d buf p _ _ _ hq => hq.push (.read p PAGE_SIZ) trivial)
  obtain ⟨c', d, hrun, -, -, ⟨-, new, hnew, hall⟩, hnand⟩ := round_seated hc hs hdev hcalc.majority
    h.toSeated ⟨h.ok, [], (List.append_nil _).symm, fun _ hx => nomatch hx⟩ (h.page_blank hs) (Nat.le_refl _)
  have hround : c.round = c' := by rw [CPU.round, h.romSize, hrun]
  refine ⟨new, ?_, hall⟩
  rw [hround, hnand, ← hnew]
  unfold wrapped
  by_cases hk : k + 1 = pages size
  · rw [if_pos hk, if_pos hk]
    rfl
  · rw [if_neg hk, if_neg hk, List.append_nil]

/-! ## The first program -/

omit hc hs in
theorem refill_logged (c : CPU Logged) : c.refill.nand.dev = c.nand.dev ∧
    c.refill.nand.writes = c.nand.writes := by
  unfold refill
  split
  · refine ⟨rfl, ?_⟩
    show List.countP _ (c.nand.calls ++ [_]) = _
    rw [List.countP_append]
    rfl
  · exact ⟨rfl, rfl⟩

omit hc hs in
theorem exec_prg_writes (c : CPU Logged) {e : Emit} (h : e.1 = .prgNand) :
    (c.exec e).nand.writes = c.nand.writes + 1 := by
  obtain ⟨op, dest, src⟩ := e
  cases h
  show List.countP _ (c.nand.calls ++ [_] ++ [_]) = _
  rw [List.countP_append, List.countP_append]
  rfl

/-- Until the first program the device is as it was, and only edited bytes of the buffer are not
`0xff`. -/
structure Fresh (P : Nat) (c X : CPU Logged) (t : Nat) : Prop where
  mono : c.nand.writes ≤ X.nand.writes
  dev : X.nand.writes = c.nand.writes → X.nand.dev = c.nand.dev
  view : X.nand.writes = c.nand.writes → ∀ i, ¬ Edited c t i → (X.view P).get i = 0xff

theorem fresh_at (h : LoggedReady rom size k c) : ∀ t ≤ (roundInit cells last l0 l1).length,
    Fresh (RAM + k * PAGE_SIZ) c (instr^[t] c) t := by
  have hflat := logged_flat size
  have hP := calcPage_of_lt hs h.lt
  have hm : Maps c (RAM + k * PAGE_SIZ) := h.maps hs
  intro t
  induction t with
  | zero =>
    refine fun _ => ⟨Nat.le_refl _, fun _ => rfl, fun _ i _ => ?_⟩
    show (c.view (RAM + k * PAGE_SIZ)).get i = 0xff
    rw [view_new h.preOffset]
    exact Vector.getElem_replicate i.isLt
  | succ t ih =>
    intro ht
    have hfresh := ih (Nat.le_of_succ_le ht)
    have hmid := instr_at hc (hflat.romDevice hs) (hflat.pageOk hP) hm h.pc h.ok t (Nat.le_of_succ_le ht)
    have hinstr := (hmid.step hc (hflat.romDevice hs) (hflat.pageOk hP) hm ht).1
    have hfetch := hmid.fetch hc (hflat.romDevice hs) ht
    have hedited : ∀ i, ¬ Edited c (t + 1) i → ¬ Edited c t i ∧
        ∀ a ∈ edits (roundInit cells last l0 l1)[t], slot a ≠ i := by
      refine fun i hn => ⟨fun ⟨s, hst, he⟩ => hn ⟨s, Nat.lt_succ_of_lt hst, he⟩, fun a ha he => hn ?_⟩
      obtain ⟨a', ha', hs'⟩ := edits_toRom ha (.ofNat 20 (8 * (t + 1)))
      refine ⟨t, Nat.lt_succ_self t, a', ?_, hs'.trans he⟩
      rw [hfetch]
      exact ha'
    have hin := inside_roundInit hc _ (List.getElem_mem ht)
    rw [Function.iterate_succ_apply']
    generalize instr^[t] c = X at hfresh hmid hinstr
    generalize (roundInit cells last l0 l1)[t] = e at hinstr hedited hin
    obtain ⟨hdev, hwr⟩ := refill_logged X
    have hf := refill_frame X
    have hmr : Maps X.refill (RAM + k * PAGE_SIZ) := fun a ha => by
      rw [phys_congr (hf.pageOffset.trans hmid.pageOffset)]
      exact hm a ha
    rw [hinstr]
    by_cases hp : e.1 = .prgNand
    · have hw : ((X.refill.exec e).setPc (8 * (t + 1))).nand.writes = X.nand.writes + 1 :=
        (exec_prg_writes _ hp).trans (congrArg (· + 1) hwr)
      have hmono := hfresh.mono
      exact ⟨by omega, fun he => by omega, fun he => by omega⟩
    · have he := exec_edits hmr hin hp
      have hnand : ((X.refill.exec e).setPc (8 * (t + 1))).nand = X.refill.nand := he.nand
      have hview : ((X.refill.exec e).setPc (8 * (t + 1))).view (RAM + k * PAGE_SIZ) =
          (X.refill.exec e).view (RAM + k * PAGE_SIZ) := rfl
      refine ⟨?_, fun heq => ?_, fun heq i hi => ?_⟩
      · rw [hnand, hwr]
        exact hfresh.mono
      · rw [hnand, hwr] at heq
        rw [hnand, hdev]
        exact hfresh.dev heq
      · rw [hnand, hwr] at heq
        obtain ⟨hi0, hie⟩ := hedited i hi
        rw [hview, he.view i hie, view_congr hf.preOffset (refill_page X)]
        exact hfresh.view heq i hi0

omit hc hs in
theorem erase_writes (c : CPU Logged) : c.erase.nand.writes = c.nand.writes := by
  show List.countP _ (c.nand.calls ++ [_]) = _
  rw [List.countP_append]
  rfl

omit hc hs in
theorem execute_writes (c : CPU Logged) {op : RomT} (h : op.code ≠ .prgNand) :
    (c.execute op).nand.writes = c.nand.writes := by
  show (({ c with signal := false }).dispatch op.code op.dest.toNat op.src.toNat).nand.writes = _
  unfold dispatch
  cases hop : op.code with
  | prgNand => exact absurd hop h
  | erase => exact erase_writes _
  | raise =>
    unfold CPU.raise
    simp only []
    split
    · split
      · exact erase_writes _
      · rfl
    · rfl
  | _ => rfl

omit hc hs in
theorem FirstProgram.code {t : Nat} (h : FirstProgram c t) : (instr^[t] c).fetch.1.code = .prgNand := by
  obtain ⟨hsame, hmore⟩ := h
  rw [Function.iterate_succ_apply'] at hmore
  by_contra hne
  exact hmore ((execute_writes _ hne).trans ((refill_logged _).2.trans hsame))

/-- The first program comes after an edit. -/
theorem FirstProgram.index (h : LoggedReady rom size k c) {t : Nat} (ht : t < c.romSize)
    (hf : FirstProgram c t) : 2 ≤ t ∧ t < (roundInit cells last l0 l1).length := by
  have hflat := logged_flat size
  have hP := calcPage_of_lt hs h.lt
  have hm : Maps c (RAM + k * PAGE_SIZ) := h.maps hs
  have hlen := hc.linked.len
  have hcode := hf.code
  rw [h.romSize, hlen] at ht
  have hmid := instr_at hc (hflat.romDevice hs) (hflat.pageOk hP) hm h.pc h.ok t (by omega)
  have hlt : t < (roundInit cells last l0 l1).length := by
    by_contra hge
    obtain rfl : t = (roundInit cells last l0 l1).length := by omega
    obtain ⟨htl, he⟩ := List.getElem?_eq_some_iff.1 hc.linked.last
    rw [fetch_eq (hflat.romDevice hs) hmid.at_t hc.linked.size htl hmid.ok, he] at hcode
    cases hcode
  refine ⟨?_, hlt⟩
  obtain ⟨dest, src, es, hes⟩ := roundInit_start cells last l0 l1
  rw [hmid.fetch hc (hflat.romDevice hs) hlt] at hcode
  by_contra hge
  rcases (show t = 0 ∨ t = 1 by omega) with rfl | rfl <;> simp only [hes] at hcode <;> cases hcode

/-! ## The rounds -/

omit hc in
/-- Round `n` is the last on its pass exactly when the page after it is the first. -/
theorem wraps_iff {n : Nat} (h : LoggedReady rom size (n % pages size) c) :
    (n + 1) % pages size = 0 ↔ n % pages size + 1 = pages size := by
  have hone := one_lt_pages hs
  have hlt := h.lt
  rw [← Nat.mod_add_mod]
  constructor
  · intro h0
    by_contra hne
    rw [Nat.mod_eq_of_lt (by omega)] at h0
    omega
  · intro he
    rw [he, Nat.mod_self]

/-- The calls of a round, and the erase that may end it. -/
theorem levelled_calls {n : Nat} (h : LoggedReady rom size (n % pages size) c) :
    ∃ new, c.round.nand.calls = c.nand.calls ++ new ∧
      (∀ off len, .write off len ∈ new → off = RAM + n % pages size * PAGE_SIZ ∧ len = PAGE_SIZ) ∧
      new.filter Call.isErase = (if (n + 1) % pages size = 0 then [.erase RAM (size - RAM)] else []) ∧
      ((n + 1) % pages size = 0 → new.getLast? = some (.erase RAM (size - RAM))) ∧
      ∀ call ∈ new, ∀ off len, call.changes = some (off, len) → RAM ≤ off ∧ off + len ≤ size := by
  have hP := calcPage_of_lt hs h.lt
  obtain ⟨new, hcalls, hall⟩ := round_calls hc hs h
  simp only [← wraps_iff hs h] at hcalls
  have hnone : new.filter Call.isErase = [] := List.filter_eq_nil_iff.2 fun call hm he => by
    cases call with
    | erase => exact hall _ hm
    | _ => cases he
  refine ⟨_, by rw [hcalls, List.append_assoc], fun off len hm => ?_, ?_, fun h0 => ?_,
    fun call hm off len hch => ?_⟩
  · cases List.mem_append.1 hm with
    | inl hm => exact hall _ hm
    | inr hm =>
      split at hm
      · cases List.mem_singleton.1 hm
      · cases hm
  · rw [List.filter_append, hnone, List.nil_append]
    split <;> rfl
  · rw [if_pos h0, List.getLast?_concat]
  · cases List.mem_append.1 hm with
    | inl hm =>
      have hc := hall _ hm
      cases call with
      | erase => exact absurd hc id
      | read => cases hch
      | write =>
        cases hch
        obtain ⟨rfl, rfl⟩ := hc
        exact ⟨hP.ram, hP.size⟩
    | inr hm =>
      split at hm
      · cases List.mem_singleton.1 hm
        cases hch
        exact ⟨Nat.le_refl _, by have := hs.ram; omega⟩
      · cases hm

/-- When the page is first programmed, it and the unedited part of the buffer are blank. -/
theorem levelled_first (h : LoggedReady rom size k c) {t : Nat} (ht : t < c.romSize)
    (hf : FirstProgram c t) :
    (∀ i < PAGE_SIZ, (instr^[t] c).nand.dev.mem (RAM + k * PAGE_SIZ + i) = 0xff) ∧
      ∀ i, ¬ Edited c t i → (instr^[t] c).page.get i = 0xff := by
  obtain ⟨h2, hlt⟩ := hf.index hc hs h ht
  have hP := calcPage_of_lt hs h.lt
  have hflat := logged_flat size
  have hmid := instr_at hc (hflat.romDevice hs) (hflat.pageOk hP) (h.maps hs) h.pc h.ok t hlt.le
  have hfresh := fresh_at hc hs h t hlt.le
  refine ⟨fun i hi => ?_, fun i hi => ?_⟩
  · rw [hfresh.dev hf.1]
    exact h.page_blank hs i hi
  · rw [← view_eq (hmid.pre h2)]
    exact hfresh.view hf.1 i hi

/-- Every round programs: its code has the `PRG_NAND` after the inputs. -/
theorem levelled_programs (h : LoggedReady rom size k c) : ∃ t < c.romSize, FirstProgram c t := by
  have hflat := logged_flat size
  have hP := calcPage_of_lt hs h.lt
  have hm : Maps c (RAM + k * PAGE_SIZ) := h.maps hs
  have hprg : (.prgNand, RAM, 0) ∈ roundInit cells last l0 l1 := by
    simp only [roundInit, List.mem_append, List.mem_singleton, true_or, or_true]
  obtain ⟨p, hp, hop⟩ := List.getElem_of_mem hprg
  have hmid := instr_at hc (hflat.romDevice hs) (hflat.pageOk hP) hm h.pc h.ok p hp.le
  have hstep : (instr^[p + 1] c).nand.writes = (instr^[p] c).nand.writes + 1 := by
    rw [Function.iterate_succ_apply', (hmid.step hc (hflat.romDevice hs) (hflat.pageOk hP) hm hp).1]
    exact (exec_prg_writes _ (congrArg Prod.fst hop)).trans (congrArg (· + 1) (refill_logged _).2)
  have hmore : (instr^[p + 1] c).nand.writes ≠ c.nand.writes := by
    have hmono := (fresh_at hc hs h p hp.le).mono
    omega
  have hex : ∃ t, (instr^[t + 1] c).nand.writes ≠ c.nand.writes := ⟨p, hmore⟩
  refine ⟨Nat.find hex, ?_, ?_, Nat.find_spec hex⟩
  · have hle : Nat.find hex ≤ p := Nat.find_min' hex hmore
    rw [h.romSize, hc.linked.len]
    omega
  · -- Up to the least such instruction nothing is programmed.
    cases hfind : Nat.find hex with
    | zero => rfl
    | succ t => exact not_not.1 (Nat.find_min hex (hfind ▸ t.lt_succ_self))

theorem levelled_wrap (h : LoggedReady rom size k c) {t : Nat} (ht : t < c.romSize) :
    RAM + ((instr^[t] c).pageOffset + PAGE_SIZ) + PAGE_SIZ < 2 ^ 32 := by
  have hP := calcPage_of_lt hs h.lt
  have hflat := logged_flat size
  have hlen := hc.linked.len
  rw [h.romSize, hlen] at ht
  have hmid := instr_at hc (hflat.romDevice hs) (hflat.pageOk hP) (h.maps hs) h.pc h.ok t (by omega)
  rw [hmid.pageOffset, h.pageOffset]
  have hsz : RAM + k * 2048 + 2048 ≤ size := hP.size
  have hle := size_le hs
  show RAM + (k * 2048 + 2048) + 2048 < 4294967296
  omega

theorem levelled {n : Nat} (h : LoggedReady rom size (n % pages size) c) (hsh : ShadowOk c) :
    Levelled size n c where
  calls := levelled_calls hc hs h
  programs := levelled_programs hc hs h
  first _ ht hf := levelled_first hc hs h ht hf
  wrap _ ht := levelled_wrap hc hs h ht
  shadow := hsh.run _

end

/-! ## The constructor -/

/-- Booting records one erase of the calculation area, the last call. -/
theorem logged_boot {size : Nat} (hs : SizeOk size) : BootDevice (fun d : Logged => d.dev.mem)
    (fun d => d.dev.size = size ∧ d.calls.filter Call.erasesCalc = [])
    (fun d => d.dev.size = size ∧ d.calls.filter Call.erasesCalc = [.erase RAM (size - RAM)]) size := by
  have h := (logged_flat size).boot hs
  have hkeep : ∀ (calls : List Call) (call : Call), call.erasesCalc = false →
      calls.filter Call.erasesCalc = [] → (calls ++ [call]).filter Call.erasesCalc = [] := by
    intro calls call hf hn
    rw [List.filter_append, hn, List.filter_cons, hf]
    rfl
  refine ⟨fun d ho => h.size_eq d ho.1, fun d buf ho => ?_, fun d ho => ?_, fun d buf ho => ?_,
    fun d ho => ?_⟩
  · obtain ⟨hok, hrest⟩ := h.read d buf ho.1
    exact ⟨⟨hok, hkeep _ _ rfl ho.2⟩, hrest⟩
  · obtain ⟨hst, hok, hrest⟩ := h.erase d ho.1
    exact ⟨hst, ⟨hok, hkeep _ _ (by decide) ho.2⟩, hrest⟩
  · obtain ⟨hok, hrest⟩ := h.write d buf ho.1
    exact ⟨⟨hok, hkeep _ _ rfl ho.2⟩, hrest⟩
  · obtain ⟨hok, hrest⟩ := h.eraseCalc d ho.1
    refine ⟨⟨hok, ?_⟩, hrest⟩
    show (d.calls ++ [_]).filter Call.erasesCalc = _
    have hlt : RAM < RAM + (size - RAM) := by have := hs.ram; omega
    rw [List.filter_append, ho.2, List.filter_cons, Call.erasesCalc, if_pos (decide_eq_true hlt)]
    rfl

/-- **Wear levelling over every run.** -/
theorem wear_levelling (g : Globals) (garbage : Vector Byte ROM_SIZE) (dev : Flash)
    (hs : SizeOk dev.size) (past : List (Vector (BitVec 64) LANES × Vector (BitVec 64) LANES))
    (inA inB : Vector (BitVec 64) LANES) : ∃ c g', CPU.new g garbage ⟨dev, []⟩ = some (c, g') ∧
      c.nand.calls.filter Call.erasesCalc = [.erase RAM (dev.size - RAM)] ∧
      Levelled dev.size past.length ((rounds c past).setIn inA inB) := by
  obtain ⟨rom, g', net, cells, last, l0, l1, hc, hinit⟩ := romInit_spec
  obtain ⟨c, hnew, hr⟩ := new_ready (logged_boot hs) hs
    (fun _ ho _ => (logged_flat dev.size).erased ho.1) hc.linked.size hinit g garbage (d := ⟨dev, []⟩)
    ⟨rfl, rfl⟩
  obtain ⟨n, d, rfl⟩ := new_eq_some hnew
  have hsh : ShadowOk (init n d).erase := ShadowOk.erase fun _ h => nomatch h
  have hready : LoggedReady rom dev.size (0 % pages dev.size) (init n d).erase :=
    (Nat.zero_mod _).symm ▸ hr.imp fun ho => ⟨ho.1.1, ho.2⟩
  have hrun := rounds_ready hc hs ((logged_flat dev.size).calc hs) past 0 hready
  rw [Nat.zero_add] at hrun
  exact ⟨_, g', hnew, hr.ok.1.2, levelled hc hs (hrun.setIn inA inB) (hsh.rounds past)⟩

theorem wear_levelling_dirty : ∃ c g',
    CPU.new ⟨0, 0⟩ (.replicate ROM_SIZE 0) ⟨⟨fun _ => 0x5a, 786432⟩, []⟩ = some (c, g') ∧
      c.nand.calls.filter Call.erasesCalc = [.erase RAM (786432 - RAM)] ∧
      Levelled 786432 1 ((rounds c [(.replicate LANES 7, .replicate LANES 5)]).setIn
        (.replicate LANES 1) (.replicate LANES 2)) :=
  wear_levelling ⟨0, 0⟩ (.replicate ROM_SIZE 0) ⟨fun _ => 0x5a, 786432⟩ ⟨by decide, by decide, by decide⟩
    [(.replicate LANES 7, .replicate LANES 5)] (.replicate LANES 1) (.replicate LANES 2)

end CPU

end NandServer
