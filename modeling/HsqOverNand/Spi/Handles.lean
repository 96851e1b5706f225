import HsqOverNand.Lib.CallLog
import HsqOverNand.Spi.Open

/-!
# The descriptors of `open` and `probe`

`Kernel.host` records the system calls, whose results are the kernel's. `Held fds log`: every call of the
log goes to an open descriptor, and `fds` are open at its end. `open` holds one descriptor for each path
or, after a failure, none (`openPaths_held`); `probe` gives back what it took (`probe_held`).
-/

set_option autoImplicit false

namespace NandServer

open CallLog

/-- A system call with its result. -/
inductive Syscall
  | openFile (path : Text) (fd : Option Nat)
  | set (fd : Nat) (x : SpiSetting) (ok : Bool)
  | transfer (fd : Nat) (tx : List Byte) (rx : Option (List Byte))
  | closeFile (fd : Nat)

namespace Syscall

def opens (fd : Nat) : Syscall → Bool
  | openFile _ r => decide (r = some fd)
  | _ => false

def closes (fd : Nat) : Syscall → Bool
  | closeFile f => decide (f = fd)
  | _ => false

end Syscall

abbrev inUse (fd : Nat) (log : List Syscall) : Bool := isOpen (Syscall.opens fd) (Syscall.closes fd) log

/-- A new descriptor is not in use, the others are. -/
def Syscall.Allowed (pre : List Syscall) : Syscall → Prop
  | openFile _ none => True
  | openFile _ (some fd) => inUse fd pre = false
  | set fd _ _ | transfer fd _ _ | closeFile fd => inUse fd pre = true

theorem Syscall.Allowed.pairs {pre : List Syscall} {e : Syscall} (h : e.Allowed pre) (fd : Nat) :
    (e.opens fd = true → inUse fd pre = false) ∧ (e.closes fd = true → inUse fd pre = true) := by
  cases e with
  | openFile path r =>
    constructor
    · intro ho
      have hr : r = some fd := of_decide_eq_true ho
      subst hr
      exact h
    · intro hc
      cases hc
  | set fd' x ok =>
    constructor <;> (intro hf; cases hf)
  | transfer fd' tx rx =>
    constructor <;> (intro hf; cases hf)
  | closeFile f =>
    constructor
    · intro ho
      cases ho
    · intro hc
      have hf : f = fd := of_decide_eq_true hc
      subst hf
      exact h

/-- What the kernel answers, after the calls of a log. -/
structure Kernel where
  openFile : List Syscall → Text → Option Nat
  set : List Syscall → Nat → SpiSetting → Bool
  transfer : List Syscall → Nat → List Byte → (len : Nat) → Option (Vector Byte len)
  /-- An uninitialised byte. -/
  junk : List Syscall → Byte

namespace Kernel

/-- `open` returns a descriptor that is not in use. -/
def Fresh (k : Kernel) : Prop := ∀ log path fd, k.openFile log path = some fd → inUse fd log = false

def host (k : Kernel) : SpidevHost (List Syscall) where
  openFile path log := (k.openFile log path, log ++ [.openFile path (k.openFile log path)])
  set fd x log := (k.set log fd x, log ++ [.set fd x (k.set log fd x)])
  bus fd :=
    ⟨fun tx len log => (k.transfer log fd tx len,
      log ++ [.transfer fd tx ((k.transfer log fd tx len).map Vector.toList)]), k.junk⟩
  closeFile fd log := log ++ [.closeFile fd]

end Kernel

/-! ## The open descriptors -/

structure Held (fds : List Nat) (log : List Syscall) : Prop where
  allowed : Each Syscall.Allowed log
  table : ∀ fd, inUse fd log = decide (fd ∈ fds)
  nodup : fds.Nodup

namespace Held

variable {fds : List Nat} {log : List Syscall} {fd : Nat}

theorem start : Held [] [] := ⟨each_nil, fun _ => rfl, .nil⟩

theorem openNone (h : Held fds log) (path : Text) : Held fds (log ++ [.openFile path none]) where
  allowed := each_concat.2 ⟨h.allowed, trivial⟩
  table f := by
    rw [inUse, isOpen_concat]
    exact h.table f
  nodup := h.nodup

theorem openSome (h : Held fds log) (path : Text) (hfd : inUse fd log = false) :
    Held (fds ++ [fd]) (log ++ [.openFile path (some fd)]) where
  allowed := each_concat.2 ⟨h.allowed, hfd⟩
  table f := by
    rw [inUse, isOpen_concat]
    rcases eq_or_ne f fd with rfl | hne
    · simp [Syscall.opens]
    · have htable := h.table f
      simp [Syscall.opens, Syscall.closes, hne, hne.symm, htable]
  nodup := by
    have hmem : fd ∉ fds := by
      have htable := h.table fd
      rw [hfd] at htable
      exact of_decide_eq_false htable.symm
    exact List.nodup_append.2 ⟨h.nodup, List.nodup_singleton fd, fun f hf g hg => by
      rw [List.mem_singleton.1 hg]
      exact fun heq => hmem (heq ▸ hf)⟩

/-- A call on an open descriptor. -/
theorem use (h : Held fds log) (hfd : fd ∈ fds) {e : Syscall}
    (he : (∃ x ok, e = .set fd x ok) ∨ ∃ tx rx, e = .transfer fd tx rx) : Held fds (log ++ [e]) where
  allowed := by
    have huse : inUse fd log = true := (h.table fd).trans (decide_eq_true hfd)
    obtain ⟨x, ok, rfl⟩ | ⟨tx, rx, rfl⟩ := he
    · exact each_concat.2 ⟨h.allowed, huse⟩
    · exact each_concat.2 ⟨h.allowed, huse⟩
  table f := by
    rw [inUse, isOpen_concat]
    obtain ⟨x, ok, rfl⟩ | ⟨tx, rx, rfl⟩ := he
    · exact h.table f
    · exact h.table f
  nodup := h.nodup

theorem close (h : Held fds log) (hfd : fd ∈ fds) : Held (fds.erase fd) (log ++ [.closeFile fd]) where
  allowed := each_concat.2 ⟨h.allowed, (h.table fd).trans (decide_eq_true hfd)⟩
  table f := by
    rw [inUse, isOpen_concat]
    have htable := h.table f
    rcases eq_or_ne f fd with rfl | hne
    · simp [Syscall.opens, Syscall.closes, h.nodup.mem_erase_iff]
    · simp [Syscall.opens, Syscall.closes, hne, hne.symm, htable, h.nodup.mem_erase_iff]
  nodup := h.nodup.erase fd

theorem perm (h : Held fds log) {fds' : List Nat} (hp : fds.Perm fds') : Held fds' log where
  allowed := h.allowed
  table f := (h.table f).trans (decide_eq_decide.2 hp.mem_iff)
  nodup := hp.nodup_iff.1 h.nodup

theorem closeLast (h : Held (fds ++ [fd]) log) : Held fds (log ++ [.closeFile fd]) := by
  have hmem : fd ∉ fds := fun hfd => (List.nodup_append.1 h.nodup).2.2 fd hfd fd (.head _) rfl
  have hclose := h.close (List.mem_append_right fds (.head []))
  rw [List.erase_append_right _ hmem, List.erase_cons_head, List.append_nil] at hclose
  exact hclose

end Held

/-! ## The driver -/

section
variable {σ : Type} {bus : SpiBus σ} {P : σ → Prop}
  (hP : ∀ tx len s, P s → P (bus.transfer tx len s).2)
include hP

theorem SpiBus.jedecOk_keeps {s : σ} (h : P s) : P (bus.jedecOk s).2 := hP _ _ _ h

theorem SpiBus.unprotect_keeps {s : σ} (h : P s) : P (bus.unprotect s).2 := hP _ _ _ (hP _ _ _ h)

theorem SpiBus.setEcc_keeps {s : σ} (enable : Bool) (h : P s) : P (bus.setEcc enable s).2 :=
  hP _ _ _ (hP _ _ _ (hP _ _ _ h))

theorem SpiBus.unlock_keeps {s : σ} (h : P s) : P (bus.unlock s).2 := by
  unfold SpiBus.unlock
  dsimp only
  split
  · exact SpiBus.setEcc_keeps hP false (SpiBus.unprotect_keeps hP h)
  · exact SpiBus.unprotect_keeps hP h

end

namespace Kernel

open SpidevHost

variable {k : Kernel} {fds : List Nat} {fd : Nat}

/-- Transfers of an open chip. -/
theorem transfer_held (hfd : fd ∈ fds) (tx : List Byte) (len : Nat) (log : List Syscall)
    (h : Held fds log) : Held fds ((k.host.bus fd).transfer tx len log).2 :=
  h.use hfd (.inr ⟨_, _, rfl⟩)

theorem jedecOk_held {log : List Syscall} (h : Held fds log) (hfd : fd ∈ fds) :
    Held fds ((k.host.bus fd).jedecOk log).2 := SpiBus.jedecOk_keeps (transfer_held hfd) h

theorem unlock_held {log : List Syscall} (h : Held fds log) (hfd : fd ∈ fds) :
    Held fds ((k.host.bus fd).unlock log).2 := SpiBus.unlock_keeps (transfer_held hfd) h

theorem setAll_held (hfd : fd ∈ fds) : ∀ (xs : List SpiSetting) {log : List Syscall}, Held fds log →
    Held fds (k.host.setAll fd xs log).2
  | [], _, h => h
  | x :: xs, log, h => by
    have hset : Held fds (k.host.set fd x log).2 := h.use hfd (.inl ⟨_, _, rfl⟩)
    unfold setAll
    dsimp only
    split
    · exact setAll_held hfd xs hset
    · exact hset

/-- What `w25n_spi_open` returns is open. -/
theorem w25nSpiOpen_held (hk : k.Fresh) (path : Text) (hz : Nat) {log : List Syscall} (h : Held fds log) :
    Held (fds ++ ((k.host.w25nSpiOpen path hz log).1.map W25nSpiDev.fd).toList)
      (k.host.w25nSpiOpen path hz log).2 := by
  unfold w25nSpiOpen
  cases hopen : k.openFile log path with
  | none =>
    have hhost : k.host.openFile path log = (none, log ++ [.openFile path none]) := by rw [← hopen]; rfl
    rw [hhost]
    simp only [Option.map_none, Option.toList_none, List.append_nil]
    exact h.openNone path
  | some fd =>
    have hhost : k.host.openFile path log = (some fd, log ++ [.openFile path (some fd)]) := by
      rw [← hopen]; rfl
    have hset := setAll_held (k := k) (List.mem_append_right fds (.head []))
      [.mode 0, .bitsPerWord 8, .maxSpeedHz hz] (h.openSome path (hk log path fd hopen))
    rw [hhost]
    dsimp only
    split
    · exact hset
    · simp only [Option.map_none, Option.toList_none, List.append_nil]
      exact hset.closeLast

theorem closeChips_held : ∀ (chips : List ChipFile) {log : List Syscall},
    Held (fds ++ chips.map (·.dev.fd)) log → Held fds (k.host.closeChips chips log)
  | [], _, h => by rwa [List.map_nil, List.append_nil] at h
  | c :: cs, log, h => by
    have hmem : c.dev.fd ∉ fds := fun hfd => (List.nodup_append.1 h.nodup).2.2 _ hfd _ (.head _) rfl
    have hc : c.dev.fd ∈ fds ++ (c :: cs).map (·.dev.fd) := List.mem_append_right fds (.head _)
    have hclose := h.close hc
    rw [List.erase_append_right _ hmem, List.map_cons, List.erase_cons_head] at hclose
    exact closeChips_held cs hclose

/-- How `open` ends: it holds one descriptor a path, or none. -/
structure Opened (fds : List Nat) (paths : List Text) (r : Bool × List ChipFile × List Syscall) : Prop where
  held : Held (fds ++ r.2.1.map (·.dev.fd)) r.2.2
  paths : r.1 = true → r.2.1.map (·.path) = paths
  chips : r.1 = !r.2.1.isEmpty

theorem Opened.failed {paths : List Text} {log : List Syscall} (h : Held fds log) :
    Opened fds paths (false, [], log) where
  held := by rwa [List.map_nil, List.append_nil]
  paths := fun hf => nomatch hf
  chips := rfl

theorem openLoop_held (hk : k.Fresh) (hz : Nat) : ∀ (paths : List Text) {chips : List ChipFile}
    {log : List Syscall}, Held (fds ++ chips.map (·.dev.fd)) log →
    Opened fds (chips.map (·.path) ++ paths) (k.host.openLoop hz paths chips log)
  | [], chips, log, h => ⟨h, fun _ => (List.append_nil _).symm, rfl⟩
  | path :: paths, chips, log, h => by
    have hopen := w25nSpiOpen_held hk path hz h
    unfold openLoop
    dsimp only
    generalize k.host.w25nSpiOpen path hz log = r at hopen ⊢
    obtain ⟨o, s⟩ := r
    cases o with
    | none =>
      rw [Option.map_none, Option.toList_none, List.append_nil] at hopen
      exact .failed (closeChips_held chips hopen)
    | some d =>
      have hd : d.fd ∈ fds ++ chips.map (·.dev.fd) ++ [d.fd] := List.mem_append_right _ (.head [])
      have hj := jedecOk_held (k := k) hopen hd
      have hu := unlock_held (k := k) hj hd
      dsimp only
      split
      · split
        · have hu : Held (fds ++ (chips ++ [(⟨d, path⟩ : ChipFile)]).map (·.dev.fd))
              ((k.host.bus d.fd).unlock ((k.host.bus d.fd).jedecOk s).2).2 := by
            rw [List.map_append, ← List.append_assoc]
            exact hu
          have hrest := openLoop_held hk hz paths hu
          rw [List.map_append, List.append_assoc] at hrest
          exact hrest
        · exact .failed (closeChips_held chips hu.closeLast)
      · exact .failed (closeChips_held chips hj.closeLast)

theorem openPaths_held (hk : k.Fresh) (paths : List Text) (hz : Nat) {log : List Syscall}
    (h : Held fds log) : Opened fds paths (k.host.openPaths paths hz log) := by
  have h : Held (fds ++ ([] : List ChipFile).map (·.dev.fd)) log := by rwa [List.map_nil, List.append_nil]
  exact openLoop_held hk hz paths h

theorem probe_held (hk : k.Fresh) (path : Text) (hz : Nat) {log : List Syscall} (h : Held fds log) :
    Held fds (k.host.probe path hz log).2 := by
  have hopen := w25nSpiOpen_held hk path hz h
  unfold probe
  dsimp only
  generalize k.host.w25nSpiOpen path hz log = r at hopen ⊢
  obtain ⟨o, s⟩ := r
  cases o with
  | none =>
    rw [Option.map_none, Option.toList_none, List.append_nil] at hopen
    exact hopen
  | some d =>
    have hj := jedecOk_held (k := k) hopen (List.mem_append_right fds (.head []))
    exact hj.closeLast

end Kernel

/-! ## Sessions -/

/-- What a process does with spidev files. -/
inductive FileCall
  | probe (path : Text) (speedHz : Nat)
  | openPaths (paths : List Text) (speedHz : Nat)
  /-- A transfer of a driver call on chip `j` of device `i`. -/
  | transfer (i j : Nat) (tx : List Byte) (len : Nat)
  /-- The destructor of device `i`. -/
  | closeChips (i : Nat)

/-- The open devices and the system calls so far. -/
structure Session where
  devices : List (List ChipFile)
  log : List Syscall

namespace Session

open Kernel

def step (k : Kernel) (s : Session) : FileCall → Session
  | .probe path hz => { s with log := (k.host.probe path hz s.log).2 }
  | .openPaths paths hz =>
    let r := k.host.openPaths paths hz s.log
    ⟨if r.1 then s.devices ++ [r.2.1] else s.devices, r.2.2⟩
  | .transfer i j tx len =>
    match s.devices[i]?.bind (·[j]?) with
    | some c => { s with log := ((k.host.bus c.dev.fd).transfer tx len s.log).2 }
    | none => s
  | .closeChips i =>
    match s.devices[i]? with
    | some chips => ⟨s.devices.eraseIdx i, k.host.closeChips chips s.log⟩
    | none => s

def run (k : Kernel) (cs : List FileCall) : Session := cs.foldl (step k) ⟨[], []⟩

/-- The descriptors of the devices. -/
def fds (s : Session) : List Nat := s.devices.flatten.map (·.dev.fd)

/-- Its descriptors are open and no others, and every device has the chips of one call. -/
structure Inv (cs : List FileCall) (s : Session) : Prop where
  held : Held s.fds s.log
  chips : ∀ d ∈ s.devices, d ≠ [] ∧ ∃ hz, .openPaths (d.map (·.path)) hz ∈ cs

variable {k : Kernel} {cs : List FileCall} {s : Session}

theorem Inv.openPaths (hk : k.Fresh) (h : s.Inv cs) {paths : List Text} {hz : Nat}
    (hc : .openPaths paths hz ∈ cs) : (s.step k (.openPaths paths hz)).Inv cs := by
  obtain ⟨hheld, hpaths, hchips⟩ := openPaths_held hk paths hz h.held
  simp only [step]
  generalize k.host.openPaths paths hz s.log = r at hheld hpaths hchips ⊢
  obtain ⟨ok, chips, log⟩ := r
  cases ok with
  | false =>
    have hnil : chips = [] := by simpa using hchips
    subst hnil
    rw [List.map_nil, List.append_nil] at hheld
    exact ⟨hheld, h.chips⟩
  | true =>
    have hne : chips ≠ [] := by simpa using hchips
    have hpaths : chips.map (·.path) = paths := hpaths rfl
    refine ⟨?_, fun d hd => ?_⟩
    · show Held ((s.devices ++ [chips]).flatten.map (·.dev.fd)) log
      rw [List.flatten_append, List.map_append, List.flatten_singleton]
      exact hheld
    · rcases List.mem_append.1 hd with hd | hd
      · exact h.chips d hd
      · rw [List.mem_singleton.1 hd, hpaths]
        exact ⟨hne, hz, hc⟩

theorem Inv.closeChips (h : s.Inv cs) (i : Nat) : (s.step k (.closeChips i)).Inv cs := by
  simp only [step]
  cases hi : s.devices[i]? with
  | none => exact h
  | some chips =>
    refine ⟨?_, fun d hd => h.chips d (List.mem_of_mem_eraseIdx hd)⟩
    have hperm : s.devices.Perm (chips :: s.devices.eraseIdx i) := by
      obtain ⟨hlt, rfl⟩ := List.getElem?_eq_some_iff.1 hi
      exact (List.getElem_cons_eraseIdx_perm hlt).symm
    have hfds : s.fds.Perm ((s.devices.eraseIdx i).flatten.map (·.dev.fd) ++ chips.map (·.dev.fd)) := by
      refine (hperm.flatten.map _).trans ?_
      rw [List.flatten_cons, List.map_append]
      exact List.perm_append_comm
    exact closeChips_held chips (h.held.perm hfds)

/-- A chip of an open device has a descriptor of it. -/
theorem mem_fds {i j : Nat} {c : ChipFile} (h : s.devices[i]?.bind (·[j]?) = some c) : c.dev.fd ∈ s.fds := by
  obtain ⟨chips, hi, hj⟩ := Option.bind_eq_some_iff.1 h
  exact List.mem_map_of_mem
    (List.mem_flatten_of_mem (List.mem_of_getElem? hi) (List.mem_of_getElem? hj))

theorem Inv.step (hk : k.Fresh) (h : s.Inv cs) {c : FileCall} (hc : c ∈ cs) : (s.step k c).Inv cs := by
  cases c with
  | probe path hz => exact ⟨probe_held hk path hz h.held, h.chips⟩
  | openPaths paths hz => exact h.openPaths hk hc
  | transfer i j tx len =>
    simp only [Session.step]
    cases hij : s.devices[i]?.bind (·[j]?) with
    | none => exact h
    | some c => exact ⟨transfer_held (mem_fds hij) tx len s.log h.held, h.chips⟩
  | closeChips i => exact h.closeChips i

theorem foldl_inv (hk : k.Fresh) : ∀ (es : List FileCall) {s : Session}, (∀ e ∈ es, e ∈ cs) → s.Inv cs →
    (es.foldl (Session.step k) s).Inv cs
  | [], _, _, h => h
  | e :: es, _, hes, h => foldl_inv hk es (fun f hf => hes f (.tail e hf)) (h.step hk (hes e (.head es)))

/-- **No descriptor leaks, and none is used or closed that is not open**, whichever system calls fail. -/
theorem run_handles (hk : k.Fresh) (cs : List FileCall) :
    Each Syscall.Allowed (run k cs).log ∧
    (run k cs).fds.Nodup ∧ (∀ fd, inUse fd (run k cs).log = decide (fd ∈ (run k cs).fds)) ∧
    (∀ d ∈ (run k cs).devices, d ≠ [] ∧ ∃ hz, .openPaths (d.map (·.path)) hz ∈ cs) ∧
    ((run k cs).devices = [] → ∀ fd, Paired (Syscall.opens fd) (Syscall.closes fd)
      ((run k cs).log.filter fun e => e.opens fd || e.closes fd)) := by
  have hinv : (run k cs).Inv cs := foldl_inv hk cs (fun _ h => h) ⟨.start, fun d hd => nomatch hd⟩
  refine ⟨hinv.held.allowed, hinv.held.nodup, hinv.held.table, hinv.chips, fun hnil fd => ?_⟩
  refine paired_of_each (hinv.held.allowed.mono fun pre e he => he.pairs fd) ?_
  have htable := hinv.held.table fd
  rw [fds, hnil] at htable
  exact htable

/-- The lowest descriptor that is free; one file only, its chip is a W25N02KV with cleared registers. -/
def oneChip : Kernel where
  openFile log path :=
    if path = "/dev/spidev0.0".toList then
      (List.range (log.length + 1)).find? fun fd => !inUse fd log
    else none
  set _ _ _ := true
  transfer _ _ tx _ := some (.ofFn fun i => if tx = [0x9f, 0x00] then [0xef, 0xaa, 0x22].getD i 0 else 0)
  junk _ := 0xff

theorem oneChip_fresh : oneChip.Fresh := by
  intro log path fd h
  simp only [oneChip] at h
  split at h
  · have hfree := List.find?_some h
    simpa using hfree
  · cases h

/-- The second path of the first `open` fails; the second one takes the chip. -/
theorem run_handles_oneChip :
    let a : Text := "/dev/spidev0.0".toList
    let b : Text := "/dev/spidev0.1".toList
    let cs : List FileCall := [.probe a 20000000, .openPaths [a, b] 20000000, .openPaths [a] 20000000,
      .transfer 0 0 [0x06] 0, .closeChips 0]
    Each Syscall.Allowed (run oneChip cs).log ∧
    (run oneChip cs).fds.Nodup ∧
    (∀ fd, inUse fd (run oneChip cs).log = decide (fd ∈ (run oneChip cs).fds)) ∧
    (∀ d ∈ (run oneChip cs).devices, d ≠ [] ∧ ∃ hz, .openPaths (d.map (·.path)) hz ∈ cs) ∧
    ((run oneChip cs).devices = [] → ∀ fd, Paired (Syscall.opens fd) (Syscall.closes fd)
      ((run oneChip cs).log.filter fun e => e.opens fd || e.closes fd)) :=
  run_handles oneChip_fresh _

end Session

end NandServer
