import HsqOverNand.Spi.Handles

/-!
# Chips at their start

A `RegChip` is a chip with its JEDEC ID and the registers that `open` sets: after power-on its blocks are
protected and its ECC is on. `Board` are the spidev files of a host. `openPaths_board`: which paths `open`
takes, and what it leaves in the registers of every chip of the host.

* What protection and ECC do to programs and erases is left out.
-/

set_option autoImplicit false

namespace NandServer

structure RegChip where
  chip : Chip
  /-- The answer to 9Fh. -/
  id : List Byte
  /-- A0h, the protection. -/
  sr1 : Byte
  /-- B0h, the configuration. -/
  sr2 : Byte
  /-- SR-1 cannot be written. -/
  locked : Bool

namespace RegChip

def toChip (d : RegChip) (tx : List Byte) (len : Nat) : Option (Vector Byte len) × RegChip :=
  let r := d.chip.transfer tx len
  (r.1, { d with chip := r.2 })

/-- 1Fh -/
def writeStatus (d : RegChip) (addr val : Byte) : RegChip :=
  if d.chip.busy then d
  else if addr = 0xa0 then if d.locked then d else { d with sr1 := val }
  else if addr = 0xb0 then { d with sr2 := val }
  else d

def transfer (d : RegChip) (tx : List Byte) (len : Nat) : Option (Vector Byte len) × RegChip :=
  match tx with
  | [op, x] =>
    if op = 0x9f then (some (.ofFn fun i => d.id.getD i 0), d)
    else if op = 0x0f ∧ x = 0xa0 then (some (.replicate len d.sr1), d)
    else if op = 0x0f ∧ x = 0xb0 then (some (.replicate len d.sr2), d)
    else d.toChip tx len
  | [op, x, v] => if op = 0x1f then (some (.replicate len 0), d.writeStatus x v) else d.toChip tx len
  | _ => d.toChip tx len

def bus : SpiBus RegChip := ⟨fun tx len d => d.transfer tx len, fun _ => 0⟩

/-- The register can be cleared, or is. -/
def Unlockable (d : RegChip) : Prop :=
  ((d.chip.busy || d.locked) = true → d.sr1 = 0) ∧ (d.chip.busy = true → d.sr2 &&& 0x10 = 0)

instance (d : RegChip) : Decidable d.Unlockable := inferInstanceAs (Decidable (_ ∧ _))

/-- A W25N02KV that `open` takes. -/
def Good (d : RegChip) : Prop := (Vector.ofFn fun i : Fin 3 => d.id.getD i 0).toList = [0xef, 0xaa, 0x22] ∧
  d.Unlockable

instance (d : RegChip) : Decidable d.Good := inferInstanceAs (Decidable (_ ∧ _))

/-- No protection, no ECC, the other bits as they were. -/
def unlocked (d : RegChip) : RegChip := { d with sr1 := 0, sr2 := d.sr2 &&& ~~~0x10 }

theorem jedecOk_eq (d : RegChip) : bus.jedecOk d =
    (decide ((Vector.ofFn fun i : Fin 3 => d.id.getD i 0).toList = [0xef, 0xaa, 0x22]), d) := rfl

theorem unprotect_eq (d : RegChip) : bus.unprotect d =
    if (d.chip.busy || d.locked) = true → d.sr1 = 0 then (true, { d with sr1 := 0 }) else (false, d) := by
  have h : bus.unprotect d = (decide ((d.writeStatus 0xa0 0).sr1 = 0), d.writeStatus 0xa0 0) := rfl
  have hwrite : d.writeStatus 0xa0 0 = if (d.chip.busy || d.locked) = true then d else { d with sr1 := 0 } := by
    unfold writeStatus
    cases d.chip.busy with
    | true => rfl
    | false => cases d.locked <;> rfl
  rw [h, hwrite]
  by_cases hkeep : (d.chip.busy || d.locked) = true
  · rw [if_pos hkeep]
    by_cases h1 : d.sr1 = 0
    · rw [if_pos fun _ => h1, decide_eq_true h1]
      exact congrArg (Prod.mk true) (congrArg (fun x => { d with sr1 := x }) h1)
    · rw [if_neg fun hc => h1 (hc hkeep), decide_eq_false h1]
  · rw [if_neg hkeep, if_pos fun hc => absurd hc hkeep]
    rfl

theorem setEcc_eq (d : RegChip) : bus.setEcc false d =
    if d.chip.busy = true → d.sr2 &&& 0x10 = 0 then (true, { d with sr2 := d.sr2 &&& ~~~0x10 })
    else (false, d) := by
  have h : bus.setEcc false d = (decide ((d.writeStatus 0xb0 (d.sr2 &&& ~~~0x10)).sr2 = d.sr2 &&& ~~~0x10),
    d.writeStatus 0xb0 (d.sr2 &&& ~~~0x10)) := rfl
  have hbits : ∀ x : Byte, x = x &&& ~~~0x10 ↔ x &&& 0x10 = 0 := by decide
  have hwrite : d.writeStatus 0xb0 (d.sr2 &&& ~~~0x10) =
      if d.chip.busy = true then d else { d with sr2 := d.sr2 &&& ~~~0x10 } := rfl
  rw [h, hwrite]
  by_cases hb : d.chip.busy = true
  · rw [if_pos hb]
    by_cases h2 : d.sr2 &&& 0x10 = 0
    · rw [if_pos fun _ => h2, decide_eq_true ((hbits _).2 h2)]
      exact congrArg (Prod.mk true) (congrArg (fun x => { d with sr2 := x }) ((hbits _).2 h2))
    · rw [if_neg fun hc => h2 (hc hb), decide_eq_false fun he => h2 ((hbits _).1 he)]
  · rw [if_neg hb, if_pos fun hc => absurd hc hb]
    exact congrArg (Prod.mk · _) (decide_eq_true rfl)

/-- All or nothing. -/
theorem unlock_eq (d : RegChip) :
    bus.unlock d = if d.Unlockable then (true, d.unlocked) else (false, d) := by
  unfold SpiBus.unlock
  rw [unprotect_eq]
  by_cases h1 : (d.chip.busy || d.locked) = true → d.sr1 = 0
  · rw [if_pos h1]
    dsimp only
    rw [if_pos rfl, setEcc_eq]
    by_cases h2 : d.chip.busy = true → d.sr2 &&& 0x10 = 0
    · rw [if_pos h2, if_pos (show d.Unlockable from ⟨h1, h2⟩)]
      rfl
    · rw [if_neg h2, if_neg fun hu : d.Unlockable => h2 hu.2]
      have hbusy : d.chip.busy = true := by
        by_contra hb
        exact h2 fun hc => absurd hc hb
      have hsr1 : d.sr1 = 0 := h1 (by rw [hbusy]; rfl)
      exact congrArg (Prod.mk false) (congrArg (fun x => { d with sr1 := x }) hsr1.symm)
  · rw [if_neg h1, if_neg fun hu : d.Unlockable => h1 hu.1]
    rfl

theorem Good.unlocked {d : RegChip} (h : d.Good) : d.unlocked.Good := by
  have hbits : ∀ x : Byte, x &&& ~~~0x10 &&& 0x10 = 0 := by decide
  exact ⟨h.1, fun _ => rfl, fun _ => hbits d.sr2⟩

theorem unlocked_unlocked (d : RegChip) : d.unlocked.unlocked = d.unlocked := by
  have hbits : ∀ x : Byte, x &&& ~~~0x10 &&& ~~~0x10 = x &&& ~~~0x10 := by decide
  exact congrArg (fun x => { d with sr1 := 0, sr2 := x }) (hbits d.sr2)

end RegChip

/-! ## A bus inside another

Related states answer every transfer alike, so they answer the calls alike. -/

section
variable {σ τ : Type} {bus : SpiBus σ} {part : SpiBus τ} {R : σ → τ → Prop}
  (h : ∀ tx len s t, R s t → (bus.transfer tx len s).1 = (part.transfer tx len t).1 ∧
    R (bus.transfer tx len s).2 (part.transfer tx len t).2)
  {s : σ} {t : τ} (hr : R s t)
include h hr

theorem SpiBus.jedecOk_part :
    (bus.jedecOk s).1 = (part.jedecOk t).1 ∧ R (bus.jedecOk s).2 (part.jedecOk t).2 := by
  obtain ⟨hbytes, hr'⟩ := h [0x9f, 0x00] 3 s t hr
  refine ⟨?_, hr'⟩
  unfold jedecOk jedecId
  dsimp only
  rw [hbytes]

theorem SpiBus.readStatus_part (addr val : Byte) :
    (bus.readStatus addr val s).2.1 = (part.readStatus addr val t).2.1 ∧
      R (bus.readStatus addr val s).2.2 (part.readStatus addr val t).2.2 := by
  obtain ⟨hbytes, hr'⟩ := h [0x0f, addr] 1 s t hr
  refine ⟨?_, hr'⟩
  unfold readStatus
  dsimp only
  rw [hbytes]

theorem SpiBus.writeStatus_part (addr val : Byte) :
    R (bus.writeStatus addr val s).2 (part.writeStatus addr val t).2 := (h [0x1f, addr, val] 0 s t hr).2

variable (hjunk : ∀ s t, R s t → bus.junk s = part.junk t)
include hjunk

theorem SpiBus.unprotect_part :
    (bus.unprotect s).1 = (part.unprotect t).1 ∧ R (bus.unprotect s).2 (part.unprotect t).2 := by
  have hw := writeStatus_part h hr 0xa0 0x00
  obtain ⟨hval, hr'⟩ := readStatus_part h hw 0xa0 (part.junk (part.writeStatus 0xa0 0x00 t).2)
  unfold unprotect
  dsimp only
  rw [hjunk _ _ hw, hval]
  exact ⟨rfl, hr'⟩

theorem SpiBus.setEcc_part (enable : Bool) :
    (bus.setEcc enable s).1 = (part.setEcc enable t).1 ∧ R (bus.setEcc enable s).2 (part.setEcc enable t).2 := by
  obtain ⟨hval, hr'⟩ := readStatus_part h hr 0xb0 (part.junk t)
  have hw := writeStatus_part h hr' 0xb0 (eccBits enable (part.readStatus 0xb0 (part.junk t) t).2.1)
  obtain ⟨hchk, hr''⟩ := readStatus_part h hw 0xb0 (part.junk (part.writeStatus 0xb0
    (eccBits enable (part.readStatus 0xb0 (part.junk t) t).2.1) (part.readStatus 0xb0 (part.junk t) t).2.2).2)
  unfold setEcc
  dsimp only
  rw [hjunk _ _ hr, hval, hjunk _ _ hw, hchk]
  exact ⟨rfl, hr''⟩

theorem SpiBus.unlock_part : (bus.unlock s).1 = (part.unlock t).1 ∧ R (bus.unlock s).2 (part.unlock t).2 := by
  obtain ⟨hok, hr'⟩ := unprotect_part h hr hjunk
  unfold unlock
  dsimp only
  rw [hok]
  split
  · exact setEcc_part h hr' hjunk false
  · exact ⟨hok, hr'⟩

end

/-! ## The spidev files of a host -/

structure Board where
  chips : Text → Option RegChip
  /-- The open descriptors and their files. -/
  fds : List (Nat × Text)

namespace Board

def path? (b : Board) (fd : Nat) : Option Text := (b.fds.find? fun e => e.1 = fd).map (·.2)

def setChip (b : Board) (path : Text) (d : RegChip) : Board :=
  { b with chips := Function.update b.chips path (some d) }

/-- A descriptor above the open ones. -/
def nextFd (b : Board) : Nat := b.fds.foldr (fun e n => max n (e.1 + 1)) 3

def host : SpidevHost Board where
  openFile path b :=
    match b.chips path with
    | none => (none, b)
    | some _ => (some b.nextFd, { b with fds := (b.nextFd, path) :: b.fds })
  set _ _ b := (true, b)
  bus fd :=
    ⟨fun tx len b =>
      match b.path? fd with
      | none => (none, b)
      | some path =>
        match b.chips path with
        | none => (none, b)
        | some d => ((d.transfer tx len).1, b.setChip path (d.transfer tx len).2), fun _ => 0⟩
  closeFile fd b := { b with fds := b.fds.filter fun e => e.1 ≠ fd }

/-- The path has a chip that `open` takes. -/
def takes (b : Board) (path : Text) : Bool := (b.chips path).any fun d => d.Good

/-- The chips of these paths are unlocked. -/
def unlock (b : Board) (paths : List Text) (path : Text) : Option RegChip :=
  if path ∈ paths then (b.chips path).map RegChip.unlocked else b.chips path

theorem setChip_setChip (b : Board) (path : Text) (d d' : RegChip) :
    (b.setChip path d).setChip path d' = b.setChip path d' :=
  congrArg (fun c => { b with chips := c }) (Function.update_idem _ _ _)

theorem setChip_self {b : Board} {path : Text} {d : RegChip} (h : b.chips path = some d) :
    b.setChip path d = b :=
  congrArg (fun c => { b with chips := c }) ((congrArg _ h.symm).trans (Function.update_eq_self _ _))

/-- A transfer of an open chip is one of the chip. -/
theorem transfer_eq {b : Board} {fd : Nat} {path : Text} (h : b.path? fd = some path) (tx : List Byte)
    (len : Nat) (d : RegChip) : (host.bus fd).transfer tx len (b.setChip path d) =
      ((RegChip.bus.transfer tx len d).1, b.setChip path (RegChip.bus.transfer tx len d).2) := by
  have hpath : (b.setChip path d).path? fd = some path := h
  have hchip : (b.setChip path d).chips path = some d := Function.update_self ..
  simp only [host, hpath, hchip, setChip_setChip]
  rfl

theorem part_eq {b : Board} {fd : Nat} {path : Text} (h : b.path? fd = some path) (tx : List Byte) (len : Nat)
    (s : Board) (d : RegChip) (hs : s = b.setChip path d) :
    ((host.bus fd).transfer tx len s).1 = (RegChip.bus.transfer tx len d).1 ∧
      ((host.bus fd).transfer tx len s).2 = b.setChip path (RegChip.bus.transfer tx len d).2 := by
  rw [hs, transfer_eq h]
  exact ⟨rfl, rfl⟩

theorem closeChips_chips : ∀ (chips : List ChipFile) (b : Board), (host.closeChips chips b).chips = b.chips
  | [], _ => rfl
  | c :: cs, b => closeChips_chips cs (host.w25nSpiClose c.dev b)

/-- After the descriptor is there. -/
theorem w25nSpiOpen_eq {b : Board} {path : Text} {d : RegChip} (h : b.chips path = some d) (hz : Nat) :
    host.w25nSpiOpen path hz b = (some ⟨b.nextFd, hz⟩, { b with fds := (b.nextFd, path) :: b.fds }) := by
  unfold SpidevHost.w25nSpiOpen
  simp only [host, h]
  rfl

theorem path?_next (b : Board) (path : Text) :
    ({ b with fds := (b.nextFd, path) :: b.fds } : Board).path? b.nextFd = some path := by
  have hfind : List.find? (fun e : Nat × Text => decide (e.1 = b.nextFd)) ((b.nextFd, path) :: b.fds) =
      some (b.nextFd, path) := List.find?_cons_of_pos (decide_eq_true rfl)
  exact congrArg (Option.map (·.2)) hfind

section
variable {b : Board} {fd : Nat} {path : Text} {d : RegChip} (hpath : b.path? fd = some path)
  (hd : b.chips path = some d)
include hpath hd

theorem jedecOk_eq : (host.bus fd).jedecOk b = ((RegChip.bus.jedecOk d).1, b) := by
  obtain ⟨hok, hb⟩ := SpiBus.jedecOk_part (part_eq hpath) (setChip_self hd).symm
  rw [RegChip.jedecOk_eq, setChip_self hd] at hb
  exact Prod.ext hok hb

theorem unlock_eq : (host.bus fd).unlock b =
    if d.Unlockable then (true, b.setChip path d.unlocked) else (false, b) := by
  obtain ⟨hok, hb⟩ := SpiBus.unlock_part (part_eq hpath) (setChip_self hd).symm fun _ _ _ => rfl
  rw [RegChip.unlock_eq] at hok hb
  split at hok
  case isTrue hu =>
    rw [if_pos hu] at hb ⊢
    exact Prod.ext hok hb
  case isFalse hu =>
    rw [if_neg hu] at hb ⊢
    exact Prod.ext hok (hb.trans (setChip_self hd))

end

/-- A chip that is taken. -/
theorem openLoop_takes {b : Board} {path : Text} {d : RegChip} (hd : b.chips path = some d) (hg : d.Good)
    (hz : Nat) (paths : List Text) (chips : List ChipFile) : ∃ file fds, file.path = path ∧
      host.openLoop hz (path :: paths) chips b = host.openLoop hz paths (chips ++ [file])
        ⟨Function.update b.chips path (some d.unlocked), fds⟩ := by
  refine ⟨⟨⟨b.nextFd, hz⟩, path⟩, (b.nextFd, path) :: b.fds, rfl, ?_⟩
  have hpath := path?_next b path
  rw [SpidevHost.openLoop]
  simp only [w25nSpiOpen_eq hd, jedecOk_eq hpath hd, RegChip.jedecOk_eq, hg.1, decide_true, if_true,
    unlock_eq hpath hd, if_pos hg.2]
  rfl

/-- The first one that is not. -/
theorem openLoop_refuses {b : Board} {path : Text} (h : b.takes path = false) (hz : Nat) (paths : List Text)
    (chips : List ChipFile) : ∃ fds, host.openLoop hz (path :: paths) chips b = (false, [], ⟨b.chips, fds⟩) := by
  have hclose : ∀ c : Board, c.chips = b.chips →
      ∃ fds, (false, ([] : List ChipFile), host.closeChips chips c) = (false, [], ⟨b.chips, fds⟩) :=
    fun c hc => ⟨(host.closeChips chips c).fds, by rw [← hc, ← closeChips_chips chips c]⟩
  rw [SpidevHost.openLoop]
  cases hd : b.chips path with
  | none =>
    have hopen : host.w25nSpiOpen path hz b = (none, b) := by
      unfold SpidevHost.w25nSpiOpen
      simp only [host, hd]
    rw [hopen]
    exact hclose b rfl
  | some d =>
    have hpath := path?_next b path
    have hbad : ¬ d.Good := by
      unfold takes at h
      rw [hd] at h
      exact of_decide_eq_false h
    simp only [w25nSpiOpen_eq hd, jedecOk_eq hpath hd, RegChip.jedecOk_eq, unlock_eq hpath hd]
    by_cases hid : (Vector.ofFn fun i : Fin 3 => d.id.getD i 0).toList = [0xef, 0xaa, 0x22]
    · simp only [hid, decide_true, if_true, if_neg fun hu => hbad ⟨hid, hu⟩, Bool.false_eq_true, if_false]
      exact hclose _ rfl
    · simp only [hid, decide_false, Bool.false_eq_true, if_false]
      exact hclose _ rfl

/-! ## `open` -/

section
variable {b : Board} {path : Text} {d : RegChip} (hd : b.chips path = some d) (hg : d.Good)
  (fds : List (Nat × Text))
include hd

theorem unlock_cons (paths : List Text) : b.unlock (path :: paths) =
    (⟨Function.update b.chips path (some d.unlocked), fds⟩ : Board).unlock paths := by
  funext p
  unfold unlock
  rcases eq_or_ne p path with rfl | hne
  · have hself : (⟨Function.update b.chips p (some d.unlocked), fds⟩ : Board).chips p = some d.unlocked :=
      Function.update_self ..
    rw [if_pos (List.mem_cons_self), hd, hself]
    simp only [Option.map_some, RegChip.unlocked_unlocked, ite_self]
  · have hother : (⟨Function.update b.chips path (some d.unlocked), fds⟩ : Board).chips p = b.chips p :=
      Function.update_of_ne hne ..
    rw [hother]
    simp only [List.mem_cons, hne, false_or]

include hg

theorem takes_eq : (⟨Function.update b.chips path (some d.unlocked), fds⟩ : Board).takes = b.takes := by
  funext p
  unfold takes
  rcases eq_or_ne p path with rfl | hne
  · simp only [Function.update_self, hd, Option.any_some, hg, hg.unlocked]
  · have hother : (⟨Function.update b.chips path (some d.unlocked), fds⟩ : Board).chips p = b.chips p :=
      Function.update_of_ne hne ..
    rw [hother]

end

theorem takes_iff (b : Board) (path : Text) :
    b.takes path = true ↔ ∃ d, b.chips path = some d ∧ d.Good := by
  unfold takes
  rw [Option.any_eq_true]
  simp only [decide_eq_true_eq]

theorem openLoop_board (hz : Nat) : ∀ (paths : List Text) (chips : List ChipFile) (b : Board),
    (host.openLoop hz paths chips b).2.2.chips = b.unlock (paths.takeWhile b.takes) ∧
    ((host.openLoop hz paths chips b).1 = true ↔ chips.map (·.path) ++ paths ≠ [] ∧ paths.all b.takes = true)
  | [], chips, b => by
    refine ⟨?_, ?_⟩
    · funext p
      rfl
    · simp [SpidevHost.openLoop]
  | path :: paths, chips, b => by
    cases htakes : b.takes path with
    | false =>
      obtain ⟨fds, heq⟩ := openLoop_refuses htakes hz paths chips
      rw [heq, List.takeWhile_cons_of_neg (by rw [htakes]; exact Bool.false_ne_true)]
      refine ⟨?_, ?_⟩
      · funext p
        rfl
      · simp [htakes]
    | true =>
      obtain ⟨d, hd, hg⟩ := (takes_iff b path).1 htakes
      obtain ⟨file, fds, -, heq⟩ := openLoop_takes hd hg hz paths chips
      obtain ⟨hchips, hok⟩ := openLoop_board hz paths (chips ++ [file])
        ⟨Function.update b.chips path (some d.unlocked), fds⟩
      rw [takes_eq hd hg] at hchips hok
      rw [heq, List.takeWhile_cons_of_pos htakes, unlock_cons hd fds]
      refine ⟨hchips, hok.trans ?_⟩
      simp [htakes]

/-- **`open` takes a list of paths if there is a W25N02KV behind each of them that can be unlocked**, and
unlocks the chips up to the first one that it cannot take; no other chip changes. -/
theorem openPaths_board (b : Board) (paths : List Text) (hz : Nat) :
    ((host.openPaths paths hz b).1 = true ↔
      paths ≠ [] ∧ ∀ p ∈ paths, ∃ d, b.chips p = some d ∧ d.Good) ∧
    (host.openPaths paths hz b).2.2.chips = fun p =>
      (b.chips p).map fun d => if p ∈ paths.takeWhile b.takes then d.unlocked else d := by
  obtain ⟨hchips, hok⟩ := openLoop_board hz paths [] b
  refine ⟨hok.trans ?_, hchips.trans (funext fun p => ?_)⟩
  · simp only [List.all_eq_true, takes_iff, List.map_nil, List.nil_append]
  · unfold unlock
    cases b.chips p with
    | none => exact ite_self _
    | some d =>
      split
      · rfl
      · rfl

/-- A probe answers for the JEDEC ID only. -/
theorem probe_board (b : Board) (path : Text) (hz : Nat) :
    (host.probe path hz b).1 = (b.chips path).any (fun d => (RegChip.bus.jedecOk d).1) ∧
      (host.probe path hz b).2.chips = b.chips := by
  unfold SpidevHost.probe
  cases hd : b.chips path with
  | none =>
    have hopen : host.w25nSpiOpen path hz b = (none, b) := by
      unfold SpidevHost.w25nSpiOpen
      simp only [host, hd]
    rw [hopen]
    exact ⟨rfl, rfl⟩
  | some d =>
    simp only [w25nSpiOpen_eq hd, jedecOk_eq (path?_next b path) hd]
    exact ⟨rfl, rfl⟩

end Board

end NandServer
