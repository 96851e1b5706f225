import HsqOverNand.Qspi.Open
import HsqOverNand.Server.Backend

/-!
# The start of the server (`src/src/server/server.cpp`, `thread_func`, `include/nandInterface.hpp`)

`threadFunc` looks for flash devices and constructs a CPU on each: the spidev files of `NAND_SPI_DEVS`
that answer, else the two chips of the HAT, else the MTDs up to the first one that is missing.
On a host that works there is one CPU on each of these `devices`, in this order, and every CPU is `Steady`
(`threadFunc_steady`).

* A chip is held by value, so a path must not be listed twice.
* A device of the HAT holds the pins of the others; `hatLoop` adds those of a new one to the earlier devices.
* What it prints is left out, and so are the socket and the LEDs.
-/

set_option autoImplicit false

namespace NandServer

/-! ## `nandInterface_splitCsv` -/

/-- The loop, with the field it reads and the fields so far. -/
def splitCsvLoop : Text → (cur : Text) → (out : List Text) → List Text
  | [], cur, out => if cur.isEmpty then out else out ++ [cur]
  | c :: s, cur, out =>
    if c = ',' then splitCsvLoop s [] (if cur.isEmpty then out else out ++ [cur])
    else splitCsvLoop s (cur ++ [c]) out

def nandInterfaceSplitCsv (s : Text) : List Text := splitCsvLoop s [] []

theorem splitCsvLoop_eq : ∀ (s cur : Text) (out : List Text), splitCsvLoop s cur out =
    out ++ ((s.splitOn ',').modifyHead (cur ++ ·)).filter (!·.isEmpty)
  | [], cur, out => by
    rw [splitCsvLoop, List.splitOn_nil, List.modifyHead_cons, List.append_nil]
    cases cur with
    | nil => exact (List.append_nil out).symm
    | cons c cur => rfl
  | c :: s, cur, out => by
    have hne := List.splitOn_ne_nil ',' s
    rw [splitCsvLoop, List.splitOn_cons_eq_if_modifyHead]
    by_cases hc : c = ','
    · rw [if_pos hc, if_pos (beq_iff_eq.2 hc), splitCsvLoop_eq, List.modifyHead_cons, List.append_nil]
      have hid : (s.splitOn ',').modifyHead ([] ++ ·) = s.splitOn ',' := by
        cases s.splitOn ',' <;> rfl
      rw [hid, List.filter_cons]
      cases cur with
      | nil => rfl
      | cons c cur => exact List.append_assoc out [c :: cur] _
    · rw [if_neg hc, if_neg (mt beq_iff_eq.1 hc), splitCsvLoop_eq]
      obtain ⟨f, fs, hsplit⟩ := List.exists_cons_of_ne_nil hne
      rw [hsplit]
      simp only [List.modifyHead_cons, List.append_assoc, List.singleton_append]

theorem splitCsv_eq (s : Text) : nandInterfaceSplitCsv s = (s.splitOn ',').filter (!·.isEmpty) := by
  have hid : (s.splitOn ',').modifyHead ([] ++ ·) = s.splitOn ',' := by
    cases s.splitOn ',' <;> rfl
  rw [nandInterfaceSplitCsv, splitCsvLoop_eq, hid, List.nil_append]

/-- No field contains a comma. -/
theorem mem_splitOn {f : Text} : ∀ {s : Text}, f ∈ s.splitOn ',' → ',' ∉ f
  | [], h => by
    rw [List.splitOn_nil, List.mem_singleton] at h
    rw [h]
    exact List.not_mem_nil
  | c :: s, h => by
    rw [List.splitOn_cons_eq_if_modifyHead] at h
    by_cases hc : c = ','
    · rw [if_pos (beq_iff_eq.2 hc)] at h
      rcases List.mem_cons.1 h with rfl | h
      · exact List.not_mem_nil
      · exact mem_splitOn h
    · rw [if_neg (mt beq_iff_eq.1 hc)] at h
      obtain ⟨g, gs, hsplit⟩ := List.exists_cons_of_ne_nil (List.splitOn_ne_nil ',' s)
      rw [hsplit, List.modifyHead_cons] at h
      rcases List.mem_cons.1 h with rfl | h
      · have hg : ',' ∉ g := mem_splitOn (s := s) (by rw [hsplit]; exact .head gs)
        exact fun hmem => (List.mem_cons.1 hmem).elim (fun he => hc he.symm) hg
      · exact mem_splitOn (s := s) (by rw [hsplit]; exact .tail g h)

theorem mem_splitCsv {s f : Text} (h : f ∈ nandInterfaceSplitCsv s) : f ≠ [] ∧ ',' ∉ f := by
  rw [splitCsv_eq] at h
  obtain ⟨hf, hne⟩ := List.mem_filter.1 h
  refine ⟨?_, mem_splitOn hf⟩
  rintro rfl
  cases hne

/-- A field of a list is a list of one. -/
theorem splitCsv_singleton {f : Text} (hne : f ≠ []) (hf : ',' ∉ f) : nandInterfaceSplitCsv f = [f] := by
  rw [splitCsv_eq, List.splitOn_eq_singleton hf]
  cases f with
  | nil => exact absurd rfl hne
  | cons c f => rfl

/-- Splitting undoes joining, but for empty fields. -/
theorem splitCsv_intercalate {fs : List Text} (h : ∀ f ∈ fs, ',' ∉ f) :
    nandInterfaceSplitCsv ([','].intercalate fs) = fs.filter (!·.isEmpty) := by
  rw [splitCsv_eq]
  cases fs with
  | nil => rfl
  | cons f fs => rw [List.splitOn_intercalate ',' h (List.cons_ne_nil f fs)]

/-! ## The constructors -/

/-- The devices on these pins were registered after this one. -/
def Backend.register {F : Type} (ps : List Pins) : Backend F → Backend F
  | .hat d => .hat { d with others := d.others ++ ps }
  | .mtd d => .mtd d
  | .spi d => .spi d

def CPU.register {F : Type} (ps : List Pins) (c : CPU (Backend F)) : CPU (Backend F) :=
  { c with nand := c.nand.register ps }

theorem CPU.register_nil {F : Type} (c : CPU (Backend F)) : c.register [] = c := by
  have hnand : c.nand.register [] = c.nand := by
    cases c.nand with
    | hat d => exact congrArg (fun ps => Backend.hat { d with others := ps }) (List.append_nil d.others)
    | mtd d => rfl
    | spi d => rfl
  exact congrArg (fun d => { c with nand := d }) hnand

/-- What the server finds on its host. -/
structure Machine (F : Type) where
  board : Board
  hat : HatBoard
  /-- The device files of the MTD driver. -/
  mtd : Text → Option (MtdNode F)

structure Environment where
  /-- `NAND_DEV` -/
  nandDev : Option Text
  /-- `NAND_SPI_DEVS` -/
  nandSpiDevs : Option Text
  /-- `W25N_SPI_HZ`, or its default. -/
  hz : Nat

namespace Machine

variable {F : Type}

/-- The chips of opened files as one device. -/
def bundleOf : List Chip → Option (Backend F)
  | [] => none
  | c :: cs => some (.spi (n := cs.length) ⟨⟨⟨c :: cs⟩, List.length_cons⟩⟩)

/-- The constructor of `nandInterface`; `none` is `exit(1)`. -/
def nandInterface (env : Environment) (dev : Text) (m : Machine F) : Option (Backend F × Machine F) :=
  if dev.take 4 = "hat:".toList then
    let r := m.hat.openHat (dev.drop 4)
    (r.1.bind fun h => r.2.device h).map fun d => (.hat d, { m with hat := r.2 })
  else if dev.take 4 = "spi:".toList then
    let r := Board.host.openPaths (nandInterfaceSplitCsv (dev.drop 4)) env.hz m.board
    if r.1 then
      (bundleOf (r.2.1.filterMap fun c => (r.2.2.chips c.path).map RegChip.chip)).map fun b =>
        (b, { m with board := r.2.2 })
    else none
  else ((m.mtd dev).bind MtdNode.openDevice).map fun d => (.mtd d, m)

variable [MtdFile F]

/-- The state of `thread_func`: the CPUs so far, the host and the globals of the ROM. -/
structure Start (F : Type) where
  cpus : List (CPU (Backend F))
  machine : Machine F
  globals : Globals

section
variable (env : Environment) (garbage : Nat → Vector Byte ROM_SIZE)

/-- `cpus.emplace_back(new CPU(dev))` -/
def Start.newCpu (dev : Text) (s : Start F) : Option (Start F) :=
  (nandInterface env dev s.machine).bind fun r =>
    (CPU.new s.globals (garbage s.cpus.length) r.1).map fun c => ⟨s.cpus ++ [c.1], r.2, c.2⟩

def spiLoop : List Text → Start F → Option (Start F)
  | [], s => some s
  | path :: paths, s =>
    let r := Board.host.probe path env.hz s.machine.board
    let s := { s with machine := { s.machine with board := r.2 } }
    if r.1 then (s.newCpu env garbage ("spi:".toList ++ path)).bind (spiLoop paths)
    else spiLoop paths s

def hats : List Text := ["hat:u2".toList, "hat:u3".toList]

/-- The devices so far see the pins of a new one. -/
def hatLoop : List Text → Start F → Option (Start F)
  | [], s => some s
  | dev :: devs, s =>
    let s := { s with cpus := s.cpus.map (CPU.register [HatBoard.pinsOf (dev.drop 4)]) }
    (s.newCpu env garbage dev).bind (hatLoop devs)

def MAX_MTD : Nat := 4

def mtdName (i : Nat) : Text := "/dev/mtd".toList ++ Nat.toDigits 10 i

/-- From `/dev/mtdi` on, `n` at most. -/
def mtdLoop : (n i : Nat) → Start F → Option (Start F)
  | 0, _, s => some s
  | n + 1, i, s =>
    if (s.machine.mtd (mtdName i)).isSome then (s.newCpu env garbage (mtdName i)).bind (mtdLoop n (i + 1))
    else some s

end

end Machine

namespace Environment

/-- `!(pref && (strcmp(pref, x) == 0 || strcmp(pref, y) == 0))` -/
def allows (env : Environment) (x y : Text) : Bool := !env.nandDev.any fun pref => pref = x || pref = y

def allowHat (env : Environment) : Bool := env.allows "mtd".toList "spi".toList
def allowMtd (env : Environment) : Bool := env.allows "hat".toList "spi".toList
def allowSpi (env : Environment) : Bool := env.allows "hat".toList "mtd".toList

/-- The spidev files to try. -/
def spiPaths (env : Environment) : List Text :=
  if env.allowSpi then (env.nandSpiDevs.map nandInterfaceSplitCsv).getD [] else []

theorem mem_spiPaths (env : Environment) {path : Text} (h : path ∈ env.spiPaths) : path ≠ [] ∧ ',' ∉ path := by
  unfold spiPaths at h
  split at h
  · cases hdevs : env.nandSpiDevs with
    | none =>
      rw [hdevs] at h
      cases h
    | some devs =>
      rw [hdevs] at h
      exact mem_splitCsv h
  · cases h

end Environment

namespace Machine

variable {F : Type} [MtdFile F]

/-- The CPUs of the server: `none` when the process exits, no CPU when no device was found. -/
def threadFunc (env : Environment) (garbage : Nat → Vector Byte ROM_SIZE) (m : Machine F) (g : Globals) :
    Option (List (CPU (Backend F))) :=
  (spiLoop env garbage env.spiPaths ⟨[], m, g⟩).bind fun s =>
    (if s.cpus.isEmpty && env.allowHat then
      let r := s.machine.hat.probe
      let s := { s with machine := { s.machine with hat := r.2 } }
      if r.1 then hatLoop env garbage hats s else some s
    else some s).bind fun s =>
      (if s.cpus.isEmpty && env.allowMtd then mtdLoop env garbage MAX_MTD 0 s else some s).map Start.cpus

/-! ## A host that works -/

/-- The chip behind the path has the JEDEC ID. -/
def answers (b : Board) (path : Text) : Bool := (b.chips path).any fun d => (RegChip.bus.jedecOk d).1

/-- The devices the server may try are in order; a path that answers is listed once. -/
structure InOrder (env : Environment) (mem : F → AndMemory.Mem 8) (pos : F → Nat) (m : Machine F) : Prop where
  spi : ∀ path ∈ env.spiPaths, ∀ d, m.board.chips path = some d → (RegChip.bus.jedecOk d).1 = true →
    d.Good ∧ d.chip.busy = false
  once : (env.spiPaths.filter (answers m.board)).Nodup
  hat : m.hat.probe.1 = true → m.hat.Fresh ∧ m.hat.CanOpen Pins.U2 ∧ m.hat.CanOpen Pins.U3
  mtd : ∀ i node, m.mtd (mtdName i) = some node → ∃ d, node.openDevice = some d ∧
    Backend.Usable mem pos (.mtd d)

/-- The files of `NAND_SPI_DEVS` that answer. -/
def spiNames (b : Board) (paths : List Text) : List Text :=
  (paths.filter (answers b)).map ("spi:".toList ++ ·)

/-- The MTDs before the first one that is missing. -/
def mtdNames (mtd : Text → Option (MtdNode F)) : (n i : Nat) → List Text
  | 0, _ => []
  | n + 1, i => if (mtd (mtdName i)).isSome then mtdName i :: mtdNames mtd n (i + 1) else []

/-- The devices the server starts on, in the order of its CPUs. -/
def devices (env : Environment) (m : Machine F) : List Text :=
  let spi := spiNames m.board env.spiPaths
  if !spi.isEmpty then spi
  else if env.allowHat && m.hat.probe.1 then hats
  else if env.allowMtd then mtdNames m.mtd MAX_MTD 0
  else []

/-- The device a name stands for, with the contents that the host has there. -/
inductive Behind (m : Machine F) : Text → Backend F → Prop
  | spi {path : Text} {c : Chip} {b : W25NSpiFlashDevice 1}
    (chip : (m.board.chips path).map RegChip.chip = some c) (one : ∀ i, b.chips.get i = c) :
    Behind m ("spi:".toList ++ path) (.spi (n := 0) b)
  | hat {dev : Text} {d : W25NFlashDevice} (mem : dev ∈ hats) (pins : d.pins = HatBoard.pinsOf (dev.drop 4))
    (chip : (m.hat.chips d.pins).map RegChip.chip = some d.chip) : Behind m dev (.hat d)
  | mtd {i : Nat} {d : MTDFlashDevice F} (node : (m.mtd (mtdName i)).bind MtdNode.openDevice = some d) :
    Behind m (mtdName i) (.mtd d)

/-- The CPU was constructed on the device of this name; others may have been registered since. -/
def StartsOn (garbage : Nat → Vector Byte ROM_SIZE) (m : Machine F) (dev : Text) (c : CPU (Backend F)) : Prop :=
  ∃ b k g g' new ps, m.Behind dev b ∧ CPU.new g (garbage k) b = some (new, g') ∧ c = new.register ps

section
variable (env : Environment) (garbage : Nat → Vector Byte ROM_SIZE) {mem : F → AndMemory.Mem 8}
  {pos : F → Nat} {rom : List RomT} {net : Netlist} {cells : List Cell} {last : Int} {l0 l1 : Lane}
  (hc : RoundCode rom net cells last l0 l1) {g' : Globals} (hinit : ∀ g, romInit g = some (rom, g'))

/-- The same contents behind the same names. -/
structure Same (m m' : Machine F) : Prop where
  board : ∀ p, (m'.board.chips p).map RegChip.chip = (m.board.chips p).map RegChip.chip
  hat : ∀ p, (m'.hat.chips p).map RegChip.chip = (m.hat.chips p).map RegChip.chip
  mtd : m'.mtd = m.mtd

omit [MtdFile F] in
/-- What a chip stores does not depend on its registers. -/
theorem Same.of_board {m : Machine F} {board : Board}
    (h : ∀ p, (board.chips p).map RegChip.chip = (m.board.chips p).map RegChip.chip) :
    m.Same { m with board := board } := ⟨h, fun _ => rfl, rfl⟩

omit [MtdFile F] in
theorem Behind.same {m m' : Machine F} (h : m.Same m') {dev : Text} {b : Backend F} (hb : m'.Behind dev b) :
    m.Behind dev b := by
  cases hb with
  | spi chip one => exact .spi ((h.board _).symm.trans chip) one
  | hat mem pins chip => exact .hat mem pins ((h.hat _).symm.trans chip)
  | mtd node => exact .mtd (h.mtd ▸ node)

variable {garbage} in
theorem StartsOn.same {m m' : Machine F} (h : m.Same m') {dev : Text} {c : CPU (Backend F)}
    (hc : m'.StartsOn garbage dev c) : m.StartsOn garbage dev c := by
  obtain ⟨b, k, g, g', new, ps, hb, hnew, hreg⟩ := hc
  exact ⟨b, k, g, g', new, ps, hb.same h, hnew, hreg⟩

/-- More CPUs that are ready, on the devices of these names. -/
structure Start.Grown (rom : List RomT) (s : Start F) (names : List Text) (s' : Start F) : Prop where
  steady : ∀ c ∈ s'.cpus, CPU.Steady rom c
  cpus : ∃ cs, s'.cpus = s.cpus ++ cs ∧ List.Forall₂ (s.machine.StartsOn garbage) names cs
  machine : ∃ b, s'.machine = { s.machine with board := b } ∧
    ∀ p, (b.chips p).map RegChip.chip = (s.machine.board.chips p).map RegChip.chip

theorem Start.Grown.refl {s : Start F} (h : ∀ c ∈ s.cpus, CPU.Steady rom c) : s.Grown garbage rom [] s :=
  ⟨h, ⟨[], (List.append_nil _).symm, .nil⟩, s.machine.board, rfl, fun _ => rfl⟩

variable {garbage} in
theorem Start.Grown.trans {s t u : Start F} {names names' : List Text} (h : s.Grown garbage rom names t)
    (h' : t.Grown garbage rom names' u) : s.Grown garbage rom (names ++ names') u where
  steady := h'.steady
  cpus := by
    obtain ⟨cs, hcs, hon⟩ := h.cpus
    obtain ⟨cs', hcs', hon'⟩ := h'.cpus
    obtain ⟨b, hb, hchips⟩ := h.machine
    rw [hb] at hon'
    refine ⟨cs ++ cs', ?_, List.rel_append hon (hon'.imp fun _ _ => .same (.of_board hchips))⟩
    rw [hcs', hcs, List.append_assoc]
  machine := by
    obtain ⟨b, hb, hchips⟩ := h.machine
    obtain ⟨b', hb', hchips'⟩ := h'.machine
    rw [hb] at hb' hchips'
    exact ⟨b', hb', fun p => (hchips' p).trans (hchips p)⟩

variable {garbage} in
/-- The registers of the chips may have been other ones. -/
theorem Start.Grown.of_board {s s' : Start F} {board : Board} {names : List Text}
    (h : ∀ p, (board.chips p).map RegChip.chip = (s.machine.board.chips p).map RegChip.chip)
    (hg : ({ s with machine := { s.machine with board := board } } : Start F).Grown garbage rom names s') :
    s.Grown garbage rom names s' where
  steady := hg.steady
  cpus := by
    obtain ⟨cs, hcs, hon⟩ := hg.cpus
    exact ⟨cs, hcs, hon.imp fun _ _ => .same (.of_board h)⟩
  machine := by
    obtain ⟨b, hb, hchips⟩ := hg.machine
    exact ⟨b, hb, fun p => (hchips p).trans (h p)⟩

omit [MtdFile F] in
/-- The device of one path. -/
theorem nandInterface_spi {m : Machine F} {path : Text} {d : RegChip} (hne : path ≠ []) (hcomma : ',' ∉ path)
    (hd : m.board.chips path = some d) (hg : d.Good) : ∃ (b : W25NSpiFlashDevice 1) (fds : List (Nat × Text)),
      nandInterface env ("spi:".toList ++ path) m = some (.spi (n := 0) b,
        { m with board := ⟨Function.update m.board.chips path (some d.unlocked), fds⟩ }) ∧
      ∀ i, b.chips.get i = d.chip := by
  obtain ⟨file, fds, hfile, hopen⟩ := Board.openLoop_takes hd hg env.hz [] []
  refine ⟨⟨⟨⟨[d.chip]⟩, List.length_cons⟩⟩, fds, ?_, fun i => ?_⟩
  · have hhat : ("spi:".toList ++ path).take 4 ≠ "hat:".toList := by
      intro h
      cases h
    have hpaths : nandInterfaceSplitCsv (("spi:".toList ++ path).drop 4) = [path] :=
      splitCsv_singleton hne hcomma
    have hchip : Function.update m.board.chips path (some d.unlocked) file.path = some d.unlocked := by
      rw [hfile, Function.update_self]
    have hspi : ("spi:".toList ++ path).take 4 = "spi:".toList := rfl
    rw [nandInterface, if_neg hhat, if_pos hspi, hpaths, SpidevHost.openPaths, hopen, SpidevHost.openLoop]
    simp only [List.nil_append, List.isEmpty_cons, Bool.not_false, if_true, List.filterMap_cons, hchip,
      Option.map_some, List.filterMap_nil]
    rfl
  · obtain rfl : i = ⟨0, Nat.one_pos⟩ := Subsingleton.elim _ _
    rfl

include hc hinit

theorem newCpu_grown {dev : Text} {s : Start F} {b : Backend F} {board : Board}
    (hdev : nandInterface env dev s.machine = some (b, { s.machine with board := board }))
    (hchips : ∀ p, (board.chips p).map RegChip.chip = (s.machine.board.chips p).map RegChip.chip)
    (hbehind : s.machine.Behind dev b) (hb : b.Usable mem pos) (hs : ∀ c ∈ s.cpus, CPU.Steady rom c) :
    ∃ s', s.newCpu env garbage dev = some s' ∧ s.Grown garbage rom [dev] s' ∧ s'.machine.board = board := by
  obtain ⟨Ok, size, hsize, hp, ho⟩ := hb.paged
  obtain ⟨c, hnew, hst⟩ := CPU.new_steady hc hp hsize hinit s.globals (garbage s.cpus.length) ho
  have hon : s.machine.StartsOn garbage dev c :=
    ⟨b, _, _, _, c, [], hbehind, hnew, (CPU.register_nil c).symm⟩
  refine ⟨⟨s.cpus ++ [c], { s.machine with board := board }, g'⟩, ?_,
    ⟨?_, ⟨[c], rfl, .cons hon .nil⟩, board, rfl, hchips⟩, rfl⟩
  · rw [Start.newCpu, hdev, Option.bind_some, hnew, Option.map_some]
  · intro c' hc'
    rcases List.mem_append.1 hc' with hc' | hc'
    · exact hs c' hc'
    · rw [List.mem_singleton.1 hc']
      exact hst

omit hc hinit in
/-- A chip that was unlocked answers as before, and is still in order. -/
theorem answers_update {b : Board} {path : Text} {d : RegChip} (hd : b.chips path = some d)
    (fds : List (Nat × Text)) :
    answers ⟨Function.update b.chips path (some d.unlocked), fds⟩ = answers b := by
  funext p
  unfold answers
  rcases eq_or_ne p path with rfl | hne
  · simp only [Function.update_self, hd, Option.any_some]
    rfl
  · exact congrArg (Option.any _) (Function.update_of_ne hne _ _)

omit hc hinit in
theorem chip_update {b : Board} {path : Text} {d : RegChip} (hd : b.chips path = some d) (p : Text) :
    (Function.update b.chips path (some d.unlocked) p).map RegChip.chip = (b.chips p).map RegChip.chip := by
  rcases eq_or_ne p path with rfl | hne
  · rw [Function.update_self, hd]
    rfl
  · rw [Function.update_of_ne hne]

/-- The chips of these paths can be unlocked. -/
def SpiOk (b : Board) (paths : List Text) : Prop := ∀ path ∈ paths, ∀ d, b.chips path = some d →
  (RegChip.bus.jedecOk d).1 = true → d.Good ∧ d.chip.busy = false

omit hc hinit in
theorem SpiOk.update {b : Board} {path : Text} {paths : List Text} (h : SpiOk b (path :: paths)) {d : RegChip}
    (hd : b.chips path = some d) (hg : d.Good) (fds : List (Nat × Text)) :
    SpiOk ⟨Function.update b.chips path (some d.unlocked), fds⟩ paths := by
  intro p hp e he hj
  have he : Function.update b.chips path (some d.unlocked) p = some e := he
  rcases eq_or_ne p path with rfl | hne
  · rw [Function.update_self] at he
    cases he
    exact ⟨hg.unlocked, (h p (.head _) d hd hj).2⟩
  · rw [Function.update_of_ne hne] at he
    exact h p (.tail _ hp) e he hj

theorem spiLoop_grown : ∀ (paths : List Text) {s : Start F}, SpiOk s.machine.board paths →
    (∀ path ∈ paths, path ≠ [] ∧ ',' ∉ path) → (∀ c ∈ s.cpus, CPU.Steady rom c) →
    ∃ s', spiLoop env garbage paths s = some s' ∧
      s.Grown garbage rom (spiNames s.machine.board paths) s'
  | [], s, _, _, hs => ⟨s, rfl, .refl garbage hs⟩
  | path :: paths, s, hok, hpaths, hs => by
    obtain ⟨hj, hchips⟩ := Board.probe_board s.machine.board path env.hz
    have hnames := fun p hp => hpaths p (.tail path hp)
    unfold spiLoop
    dsimp only
    generalize Board.host.probe path env.hz s.machine.board = r at hj hchips ⊢
    obtain ⟨ok, board⟩ := r
    have hj : ok = answers s.machine.board path := hj
    have hchips : board.chips = s.machine.board.chips := hchips
    have hans : answers board = answers s.machine.board := by
      unfold answers
      rw [hchips]
    have hkept : ∀ p, (board.chips p).map RegChip.chip = (s.machine.board.chips p).map RegChip.chip :=
      fun p => congrArg (Option.map RegChip.chip) (congrFun hchips p)
    cases ok with
    | false =>
      have hok' : SpiOk board paths := by
        intro p hp d hd
        rw [hchips] at hd
        exact hok p (.tail _ hp) d hd
      obtain ⟨s', hrun, hgrown⟩ := spiLoop_grown paths
        (s := { s with machine := { s.machine with board := board } }) hok' hnames hs
      have hskip : spiNames s.machine.board (path :: paths) = spiNames board paths := by
        rw [spiNames, spiNames, hans, List.filter_cons_of_neg (by rw [← hj]; exact Bool.false_ne_true)]
      refine ⟨s', hrun, ?_⟩
      rw [hskip]
      exact hgrown.of_board hkept
    | true =>
      obtain ⟨d, hd, hjd⟩ := (Option.any_eq_true _ _).1 (show answers s.machine.board path = true from hj.symm)
      obtain ⟨hg, hidle⟩ := hok path (.head _) d hd hjd
      have hdb : board.chips path = some d := (congrFun hchips path).trans hd
      obtain ⟨b, fds, hdev, hget⟩ := nandInterface_spi env (m := { s.machine with board := board })
        (hpaths path (.head _)).1 (hpaths path (.head _)).2 hdb hg
      have husable : (Backend.spi (F := F) (n := 0) b).Usable (fun _ _ => 0) fun _ => 0 :=
        .spi (Nat.one_dvd 5) fun i => (congrArg Chip.busy (hget i)).trans hidle
      have hbehind : Behind { s.machine with board := board } ("spi:".toList ++ path) (.spi (n := 0) b) :=
        .spi ((congrArg (Option.map RegChip.chip) hdb).trans rfl) hget
      obtain ⟨t, hnew, hone, hboard⟩ := newCpu_grown env garbage hc hinit
        (s := { s with machine := { s.machine with board := board } }) hdev (chip_update hdb) hbehind husable hs
      have hok' : SpiOk t.machine.board paths := by
        rw [hboard]
        refine SpiOk.update (b := board) ?_ hdb hg fds
        intro p hp e he
        rw [hchips] at he
        exact hok p hp e he
      obtain ⟨s', hrun, hrest⟩ := spiLoop_grown paths hok' hnames hone.steady
      have hans' : answers t.machine.board = answers s.machine.board := by
        rw [hboard, ← hans]
        exact answers_update hdb fds
      have htake : spiNames s.machine.board (path :: paths) =
          ["spi:".toList ++ path] ++ spiNames t.machine.board paths := by
        rw [spiNames, spiNames, hans', List.filter_cons_of_pos hj.symm]
        rfl
      refine ⟨s', ?_, ?_⟩
      · rw [if_pos rfl]
        exact (congrArg (Option.bind · _) hnew).trans hrun
      · rw [htake]
        exact (hone.trans hrest).of_board hkept

omit [MtdFile F] hc hinit in
/-- The device of a chip of the HAT, next to the open ones. -/
theorem nandInterface_hat {m : Machine F} {dev : Text} {p : Pins} {c : RegChip} {ds : List (Nat × Pins)}
    (hdev : dev.take 4 = "hat:".toList) (hp : HatBoard.pinsOf (dev.drop 4) = p)
    (ho : HatBoard.Opened ds m.hat) (hlen : ds.length < 4) (hsm : ∀ e ∈ ds, e.2.sm ≠ p.sm)
    (hw : (m.hat.env p).Works) (hc : m.hat.chips p = some c) (hg : c.Good) : ∃ b,
      HatBoard.Held m.hat (ds ++ [(m.hat.next, p)]) p b c.unlocked ∧
      nandInterface env dev m =
        some (.hat ⟨c.chip, p, ds.map (·.2), m.hat.bus.noQuad⟩, { m with hat := b }) := by
  subst hp
  obtain ⟨hfirst, hheld⟩ := HatBoard.openHat_opened ho hlen hsm hw hc hg
  refine ⟨_, hheld, ?_⟩
  have hold : (ds ++ [(m.hat.next, HatBoard.pinsOf (dev.drop 4))]).filter (fun e => e.1 ≠ m.hat.next) = ds := by
    rw [List.filter_append, List.filter_cons_of_neg (by simp), List.filter_nil, List.append_nil,
      List.filter_eq_self]
    exact fun e he => decide_eq_true (ho.fresh e he).ne
  have hdevice := hheld.device (List.mem_append_right ds (List.mem_singleton_self _))
  rw [hold] at hdevice
  rw [nandInterface, if_pos hdev]
  dsimp only
  rw [hfirst, Option.bind_some, hdevice, Option.map_some]
  rfl

/-- Just constructed on a chip of the HAT. -/
def HatNew (rom : List RomT) (p : Pins) (c : CPU (Backend F)) : Prop :=
  CPU.Ready (Backend.flat fun _ _ => 0) (CPU.WithRom (Backend.flat fun _ _ => 0) (Backend.HatReady p) rom) rom
    W25N_TOTAL_SIZE 0 c

omit hc hinit in
theorem HatNew.steady {p : Pins} {c : CPU (Backend F)} (h : HatNew rom p c) : CPU.Steady rom c :=
  ⟨_, _, _, 0, Backend.hat_sizeOk, Backend.hat_paged _ p, h⟩

omit [MtdFile F] hc hinit in
/-- A new device is registered with an older one. -/
theorem HatNew.register {p : Pins} {c : CPU (Backend F)} (h : HatNew rom p c) {ps : List Pins}
    (hps : ∀ q ∈ ps, ∀ j < 4, q.io2 ≠ p.io j ∧ q.io3 ≠ p.io j) : HatNew rom p (c.register ps) := by
  obtain ⟨hseat, ⟨⟨d, hd, hok, hp⟩, hrom⟩, hblank⟩ := h
  have hflat : ∀ b : Backend F, (b.register ps).flat (fun _ _ => 0) = b.flat fun _ _ => 0 := by
    intro b
    cases b <;> rfl
  have hnand : (c.register ps).nand = .hat { d with others := d.others ++ ps } :=
    congrArg (Backend.register ps) hd
  refine ⟨⟨hseat.pc, hseat.nandSize, hseat.romSize, hseat.pageOffset, hseat.lt, hseat.preOffset⟩,
    ⟨⟨_, hnand, ⟨hok.ready, ?_⟩, hp⟩, ?_⟩, ?_⟩
  · refine ⟨hok.wired.distinct, hok.wired.span, hok.wired.low, fun q hq => ?_⟩
    rcases List.mem_append.1 hq with hq | hq
    · exact hok.wired.apart q hq
    · rw [← hp] at hps
      exact hps q hq
  · intro a ha
    exact (congrFun (hflat c.nand) a).trans (hrom a ha)
  · intro a ha hlt
    exact (congrFun (hflat c.nand) a).trans (hblank a ha hlt)

/-- A CPU on a chip of the HAT. -/
theorem newCpu_hat (dev : Text) (ds : List (Nat × Pins)) {p : Pins} {c : RegChip} {s : Start F}
    (hdev : dev.take 4 = "hat:".toList) (hp : HatBoard.pinsOf (dev.drop 4) = p)
    (ho : HatBoard.Opened ds s.machine.hat) (hlen : ds.length < 4) (hsm : ∀ e ∈ ds, e.2.sm ≠ p.sm)
    (hw : (s.machine.hat.env p).Works) (hc' : s.machine.hat.chips p = some c) (hg : c.Good)
    (hidle : c.chip.busy = false) (hwired : p.Wired (ds.map (·.2))) : ∃ (b : HatBoard) (cpu : CPU (Backend F)),
      HatBoard.Held s.machine.hat (ds ++ [(s.machine.hat.next, p)]) p b c.unlocked ∧
      CPU.new s.globals (garbage s.cpus.length)
        (.hat ⟨c.chip, p, ds.map (·.2), s.machine.hat.bus.noQuad⟩) = some (cpu, g') ∧ HatNew rom p cpu ∧
      s.newCpu env garbage dev = some ⟨s.cpus ++ [cpu], { s.machine with hat := b }, g'⟩ := by
  obtain ⟨b, hheld, hopen⟩ := nandInterface_hat env hdev hp ho hlen hsm hw hc' hg
  have hpaged : CPU.PagedDevice (Backend.flat (F := F) fun _ _ => 0) (Backend.HatReady p) W25N_TOTAL_SIZE :=
    Backend.hat_paged _ p
  have hready : Backend.HatReady (F := F) p
      (.hat ⟨c.chip, p, ds.map (·.2), s.machine.hat.bus.noQuad⟩) := ⟨_, rfl, ⟨hidle, hwired⟩, rfl⟩
  obtain ⟨cpu, hnew, hcpu⟩ := CPU.new_ready (hpaged.boot Backend.hat_sizeOk) Backend.hat_sizeOk
    (fun _ ho _ => hpaged.erased ho) hc.linked.size hinit s.globals (garbage s.cpus.length) hready
  refine ⟨b, cpu, hheld, hnew, hcpu, ?_⟩
  rw [Start.newCpu, hopen, Option.bind_some, hnew, Option.map_some]

/-- Both chips of the HAT. -/
theorem hatLoop_started {s : Start F} (hnil : s.cpus = []) (ho : HatBoard.Opened [] s.machine.hat)
    (h2 : s.machine.hat.CanOpen Pins.U2) (h3 : s.machine.hat.CanOpen Pins.U3) :
    ∃ t, hatLoop env garbage hats s = some t ∧ List.Forall₂ (s.machine.StartsOn garbage) hats t.cpus ∧
      ∀ c ∈ t.cpus, CPU.Steady rom c := by
  obtain ⟨hw2, c2, hc2, hg2, hidle2⟩ := h2
  obtain ⟨hw3, c3, hc3, hg3, hidle3⟩ := h3
  have hu2 : Pins.U2.Wired [] :=
    ⟨Pins.u2_wired.distinct, Pins.u2_wired.span, Pins.u2_wired.low, fun q hq => nomatch hq⟩
  have hu3 : Pins.U3.Wired [Pins.U2] := ⟨by decide, by decide, by decide, by decide⟩
  obtain ⟨b2, cpu2, hheld2, hnew2, hcpu2, hone⟩ := newCpu_hat env garbage hc hinit "hat:u2".toList []
    (p := Pins.U2) (s := ⟨[], s.machine, s.globals⟩) rfl rfl ho (Nat.zero_lt_succ 3)
    (fun e he => nomatch he) hw2 hc2 hg2 hidle2 hu2
  have hchip3 : b2.chips Pins.U3 = some c3 := by
    rw [hheld2.chips, Function.update_of_ne (by decide)]
    exact hc3
  have hw3' : (b2.env Pins.U3).Works := hheld2.kept.env ▸ hw3
  have hsm : ∀ e ∈ [(s.machine.hat.next, Pins.U2)], e.2.sm ≠ Pins.U3.sm := by
    intro e he
    rw [List.mem_singleton.1 he]
    exact Nat.one_ne_zero
  obtain ⟨b3, cpu3, hheld3, hnew3, hcpu3, htwo⟩ := newCpu_hat env garbage hc hinit "hat:u3".toList
    [(s.machine.hat.next, Pins.U2)] (p := Pins.U3)
    (s := ⟨[cpu2.register [Pins.U3]], { s.machine with hat := b2 }, g'⟩) rfl rfl hheld2.opened
    (Nat.succ_lt_succ (Nat.zero_lt_succ 2)) hsm hw3' hchip3 hg3 hidle3 hu3
  refine ⟨⟨[cpu2.register [Pins.U3], cpu3], { s.machine with hat := b3 }, g'⟩, ?_, ?_, ?_⟩
  · have hfirst : (⟨s.cpus.map (CPU.register [HatBoard.pinsOf ("hat:u2".toList.drop 4)]), s.machine,
        s.globals⟩ : Start F) = ⟨[], s.machine, s.globals⟩ := by rw [hnil, List.map_nil]
    rw [hats, hatLoop, hfirst, hone, Option.bind_some]
    exact congrArg (Option.bind · (hatLoop env garbage [])) htwo
  · have hon2 : s.machine.StartsOn garbage "hat:u2".toList (cpu2.register [Pins.U3]) :=
      ⟨_, _, _, _, cpu2, [Pins.U3], .hat (.head _) rfl (congrArg (Option.map RegChip.chip) hc2), hnew2, rfl⟩
    have hon3 : s.machine.StartsOn garbage "hat:u3".toList cpu3 :=
      ⟨_, _, _, _, cpu3, [], .hat (.tail _ (.head _)) rfl (congrArg (Option.map RegChip.chip) hc3), hnew3,
        (CPU.register_nil cpu3).symm⟩
    exact .cons hon2 (.cons hon3 .nil)
  · intro c hmem
    rcases List.mem_cons.1 hmem with rfl | hmem
    · exact (hcpu2.register Pins.u2_wired.apart).steady
    · rw [List.mem_singleton.1 hmem]
      exact hcpu3.steady

omit [MtdFile F] hc hinit in
theorem nandInterface_mtd {m : Machine F} {i : Nat} {d : MTDFlashDevice F}
    (hd : (m.mtd (mtdName i)).bind MtdNode.openDevice = some d) :
    nandInterface env (mtdName i) m = some (.mtd d, m) := by
  have hhat : (mtdName i).take 4 ≠ "hat:".toList := by
    intro h
    cases h
  have hspi : (mtdName i).take 4 ≠ "spi:".toList := by
    intro h
    cases h
  rw [nandInterface, if_neg hhat, if_neg hspi, hd, Option.map_some]

theorem mtdLoop_grown : ∀ (n i : Nat) {s : Start F},
    (∀ i node, s.machine.mtd (mtdName i) = some node → ∃ d, node.openDevice = some d ∧
      Backend.Usable mem pos (.mtd d)) →
    (∀ c ∈ s.cpus, CPU.Steady rom c) →
    ∃ s', mtdLoop env garbage n i s = some s' ∧ s.Grown garbage rom (mtdNames s.machine.mtd n i) s'
  | 0, i, s, _, hs => ⟨s, rfl, .refl garbage hs⟩
  | n + 1, i, s, hmtd, hs => by
    unfold mtdLoop mtdNames
    cases hi : s.machine.mtd (mtdName i) with
    | none => exact ⟨s, rfl, .refl garbage hs⟩
    | some node =>
      obtain ⟨d, hd, husable⟩ := hmtd i node hi
      have hopen : (s.machine.mtd (mtdName i)).bind MtdNode.openDevice = some d := by
        rw [hi]
        exact hd
      have hdev : nandInterface env (mtdName i) s.machine =
        some (.mtd d, { s.machine with board := s.machine.board }) := nandInterface_mtd env hopen
      obtain ⟨t, hnew, hone, -⟩ := newCpu_grown env garbage hc hinit hdev (fun _ => rfl) (.mtd hopen) husable hs
      obtain ⟨b, hb, -⟩ := hone.machine
      obtain ⟨s', hrun, hrest⟩ := mtdLoop_grown n (i + 1) (s := t) (by
        rw [hb]
        exact hmtd) hone.steady
      have hnames : mtdNames t.machine.mtd n (i + 1) = mtdNames s.machine.mtd n (i + 1) := by rw [hb]
      refine ⟨s', ?_, ?_⟩
      · rw [Option.isSome_some, if_pos rfl, hnew, Option.bind_some, hrun]
      · rw [Option.isSome_some, if_pos rfl, ← hnames]
        exact hone.trans hrest

omit hc hinit in
/-- The CPUs of a loop that starts without any. -/
theorem started {m : Machine F} {s t : Start F} {names : List Text} (hnil : s.cpus = [])
    (hsame : m.Same s.machine) (hmore : s.Grown garbage rom names t) :
    List.Forall₂ (m.StartsOn garbage) names t.cpus := by
  obtain ⟨cs, hcs, hon⟩ := hmore.cpus
  rw [hcs, hnil, List.nil_append]
  exact hon.imp fun _ _ => .same hsame

/-- The MTDs, if the server may use them. -/
theorem mtdLoop_started {m : Machine F} (h : m.InOrder env mem pos) {s : Start F} (hnil : s.cpus = [])
    (hsame : m.Same s.machine) : ∃ t, (if s.cpus.isEmpty && env.allowMtd then mtdLoop env garbage MAX_MTD 0 s
        else some s) = some t ∧
      List.Forall₂ (m.StartsOn garbage) (if env.allowMtd then mtdNames m.mtd MAX_MTD 0 else []) t.cpus ∧
      ∀ c ∈ t.cpus, CPU.Steady rom c := by
  rw [hnil, List.isEmpty_nil, Bool.true_and]
  cases env.allowMtd with
  | true =>
    obtain ⟨t, hrun, hmore⟩ := mtdLoop_grown env garbage hc hinit MAX_MTD 0 (s := s)
      (by
        rw [hsame.mtd]
        exact h.mtd)
      (by
        rw [hnil]
        exact fun c hc => nomatch hc)
    rw [hsame.mtd] at hmore
    exact ⟨t, hrun, started garbage hnil hsame hmore, hmore.steady⟩
  | false =>
    refine ⟨s, rfl, ?_, ?_⟩
    · rw [hnil]
      exact .nil
    · rw [hnil]
      exact fun c hc => nomatch hc

theorem threadFunc_steady {m : Machine F} (h : m.InOrder env mem pos) (g : Globals) :
    ∃ cpus, threadFunc env garbage m g = some cpus ∧
      List.Forall₂ (m.StartsOn garbage) (m.devices env) cpus ∧ ∀ c ∈ cpus, CPU.Steady rom c := by
  obtain ⟨s, hspi, hgrown⟩ := spiLoop_grown env garbage hc hinit env.spiPaths
    (s := ⟨[], m, g⟩) h.spi (fun _ => env.mem_spiPaths) (fun c hc => nomatch hc)
  have hon : List.Forall₂ (m.StartsOn garbage) (spiNames m.board env.spiPaths) s.cpus :=
    started garbage rfl (.of_board fun _ => rfl) hgrown
  obtain ⟨board, hmachine, hkept⟩ := hgrown.machine
  have hmachine : s.machine = { m with board := board } := hmachine
  have hnone : s.cpus = [] ↔ spiNames m.board env.spiPaths = [] := by
    rw [← List.length_eq_zero_iff, ← List.length_eq_zero_iff, hon.length_eq]
  obtain ⟨cpus, machine, globals⟩ := s
  have hmachine : machine = { m with board := board } := hmachine
  have hnone : cpus = [] ↔ spiNames m.board env.spiPaths = [] := hnone
  subst hmachine
  unfold threadFunc devices
  rw [hspi, Option.bind_some]
  by_cases hfound : spiNames m.board env.spiPaths = []
  · obtain rfl : cpus = [] := hnone.2 hfound
    -- what was probed has the contents of the host as it was found
    have hsame : m.Same { m with board := board, hat := m.hat.probe.2 } :=
      ⟨hkept, fun p => by rw [HatBoard.probe_chips], rfl⟩
    rw [hfound]
    simp only [List.isEmpty_nil, Bool.not_true, Bool.true_and, Bool.false_eq_true, if_false]
    cases hallow : env.allowHat with
    | false =>
      obtain ⟨t, hrun, hon, hsteady⟩ := mtdLoop_started env garbage hc hinit h
        (s := ⟨[], { m with board := board }, globals⟩) rfl (.of_board hkept)
      exact ⟨t.cpus, congrArg (Option.map Start.cpus) hrun, hon, hsteady⟩
    | true =>
      simp only [if_true, Bool.true_and]
      cases hprobe : m.hat.probe.1 with
      | false =>
        obtain ⟨t, hrun, hon, hsteady⟩ := mtdLoop_started env garbage hc hinit h
          (s := ⟨[], { m with board := board, hat := m.hat.probe.2 }, globals⟩) rfl hsame
        exact ⟨t.cpus, congrArg (Option.map Start.cpus) hrun, hon, hsteady⟩
      | true =>
        obtain ⟨hfresh, h2, h3⟩ := h.hat hprobe
        obtain ⟨hopened, henv⟩ := hfresh.probed hprobe h2
        obtain ⟨t, hrun, hon, hsteady⟩ := hatLoop_started env garbage hc hinit
          (s := ⟨[], { m with board := board, hat := m.hat.probe.2 }, globals⟩) rfl hopened
          (h2.congr henv (congrFun (HatBoard.probe_chips m.hat) _))
          (h3.congr henv (congrFun (HatBoard.probe_chips m.hat) _))
        have hne : t.cpus.isEmpty = false := by
          rw [List.isEmpty_eq_false_iff, ne_eq, ← List.length_eq_zero_iff, ← hon.length_eq]
          decide
        refine ⟨t.cpus, ?_, hon.imp fun _ _ => .same hsame, hsteady⟩
        simp only [if_true, hrun, Option.bind_some, hne, Bool.false_and, Bool.false_eq_true, if_false,
          Option.map_some]
  · have hne : cpus.isEmpty = false := by
      rw [List.isEmpty_eq_false_iff]
      exact mt hnone.1 hfound
    have hne' : (spiNames m.board env.spiPaths).isEmpty = false := by
      rw [List.isEmpty_eq_false_iff]
      exact hfound
    refine ⟨cpus, ?_, ?_, hgrown.steady⟩
    · simp only [hne, Bool.false_and, Bool.false_eq_true, if_false, Option.bind_some, Option.map_some]
    · simp only [hne', Bool.not_false, if_true]
      exact hon

end

end Machine

end NandServer
