import HsqOverNand.Spi.Driver

/-!
# SPI transfers that fail

`SpiBus` is the driver of `src/spi/w25n_spidev.c` down to the `ioctl` of each transfer, which may
fail; a failed receive leaves its destination as it was. On a fault-free chip these are the
functions of `Spi/Driver.lean` (`chip_blockErase`, ..). `reports_iff`: for which outcomes of the
transfers a function that returns success had no failed one.

* A status byte that is declared without a value holds `junk`.
* A poll loop gets the number of polls its timeout leaves time for after the first one.
-/

set_option autoImplicit false

namespace NandServer

structure SpiBus (σ : Type) where
  /-- Bytes sent, then `len` bytes received; `none` is a failed `ioctl`. -/
  transfer : List Byte → (len : Nat) → σ → Option (Vector Byte len) × σ
  /-- What an uninitialised byte holds. -/
  junk : σ → Byte

namespace SpiBus

variable {σ : Type} (bus : SpiBus σ)

/-- `w25n_spi_cmd` with nothing to receive. -/
def send (tx : List Byte) (s : σ) : Bool × σ :=
  let r := bus.transfer tx 0 s
  (r.1.isSome, r.2)

/-- `w25n_spi_read_status` into a byte that holds `val`. -/
def readStatus (addr val : Byte) (s : σ) : Bool × Byte × σ :=
  let r := bus.transfer [0x0f, addr] 1 s
  (r.1.isSome, (r.1.map fun v => v.get 0).getD val, r.2)

def writeStatus (addr val : Byte) (s : σ) : Bool × σ := bus.send [0x1f, addr, val] s

def unprotect (s : σ) : Bool × σ :=
  let w := bus.writeStatus 0xa0 0x00 s
  let sr := bus.readStatus 0xa0 (bus.junk w.2) w.2
  (sr.2.1 = 0x00, sr.2.2)

/-- `enable ? (sr | 0x10) : (sr & ~0x10)` -/
def eccBits (enable : Bool) (sr : Byte) : Byte := if enable then sr ||| 0x10 else sr &&& ~~~0x10

def setEcc (enable : Bool) (s : σ) : Bool × σ :=
  let r := bus.readStatus 0xb0 (bus.junk s) s
  let sr := eccBits enable r.2.1
  let w := bus.writeStatus 0xb0 sr r.2.2
  let chk := bus.readStatus 0xb0 (bus.junk w.2) w.2
  (chk.2.1 = sr, chk.2.2)

def writeEnable (s : σ) : Bool × σ := bus.send [0x06] s

/-- `w25n_spi_wait_busy`; also returns the last SR-3. -/
def waitBusy : Nat → σ → Bool × Byte × σ
  | n, s =>
    let r := bus.readStatus 0xc0 (bus.junk s) s
    if r.2.1 &&& 0x01 = 0 then (true, r.2)
    else
      match n with
      | 0 => (false, r.2)
      | n + 1 => waitBusy n r.2.2

def blockErase (n page : Nat) (s : σ) : Bool × σ :=
  let e := bus.send (0xd8 :: W25nSpi.pageBytes page) (bus.writeEnable s).2
  let r := bus.waitBusy n e.2
  (r.1 && r.2.1 &&& 0x04 = 0, r.2.2)

def programLoad (col : Nat) (data : List Byte) (s : σ) : Bool × σ :=
  bus.send (0x02 :: W25nSpi.colBytes col ++ data) (bus.writeEnable s).2

def programIssue (page : Nat) (s : σ) : Bool × σ := bus.send (0x10 :: W25nSpi.pageBytes page) s

def programWait (n : Nat) (s : σ) : Bool × σ :=
  let r := bus.waitBusy n s
  (r.1 && r.2.1 &&& 0x08 = 0, r.2.2)

def pageRead (n page : Nat) (s : σ) : Bool × σ :=
  let r := bus.waitBusy n (bus.send (0x13 :: W25nSpi.pageBytes page) s).2
  (r.1, r.2.2)

/-- `none` is a failure. -/
def readBuf (col len : Nat) (s : σ) : Option (Vector Byte len) × σ :=
  bus.transfer (0x03 :: W25nSpi.colBytes col ++ [0x00]) len s

end SpiBus

/-! ## A fault-free chip -/

namespace Chip

/-- A transfer with a chip that answers a status read and a buffer read, and takes commands. -/
def transfer (d : Chip) (tx : List Byte) (len : Nat) : Option (Vector Byte len) × Chip :=
  match tx with
  | [] => (none, d)
  | op :: args =>
    if op = 0x0f then
      let r := W25nSpi.readStatus d
      (some (.replicate len r.1), r.2)
    else if op = 0x03 then
      ((d.received op args len).map fun data => .ofFn fun i => data.getD i 0, d)
    else (some (.replicate len 0), d.command op args)

/-- The bus of one chip. -/
def bus : SpiBus Chip := ⟨fun tx len d => d.transfer tx len, fun _ => 0⟩

end Chip

theorem chip_send (d : Chip) {op : Byte} (args : List Byte) (h : op ≠ 0x0f) (h' : op ≠ 0x03) :
    Chip.bus.send (op :: args) d = (true, d.command op args) := by
  have ht : d.transfer (op :: args) 0 = (some (.replicate 0 0), d.command op args) :=
    (if_neg h).trans (if_neg h')
  show ((d.transfer (op :: args) 0).1.isSome, (d.transfer (op :: args) 0).2) = _
  rw [ht]
  rfl

theorem chip_readStatus (d : Chip) (addr val : Byte) :
    Chip.bus.readStatus addr val d = (true, W25nSpi.readStatus d) := rfl

/-- The second poll finds the chip ready. -/
theorem chip_waitBusy (n : Nat) (d : Chip) {m : Nat} (hm : 2 ≤ m) :
    Chip.bus.waitBusy (n + 1) d = W25nSpi.waitBusy m d := by
  obtain ⟨m, rfl⟩ : ∃ k, m = k + 2 := ⟨m - 2, by omega⟩
  cases n <;> cases h : d.busy <;>
    simp [SpiBus.waitBusy, W25nSpi.waitBusy, chip_readStatus, W25nSpi.readStatus, h]

theorem chip_blockErase (n page : Nat) (d : Chip) :
    Chip.bus.blockErase (n + 1) page d = W25nSpi.blockErase d page := by
  unfold SpiBus.blockErase SpiBus.writeEnable W25nSpi.blockErase
  rw [chip_send _ _ (by decide) (by decide), chip_send _ _ (by decide) (by decide),
    ← chip_waitBusy n _ (by decide)]
  rfl

theorem chip_programLoad (col : Nat) (data : List Byte) (d : Chip) :
    Chip.bus.programLoad col data d = W25nSpi.programLoad d col data := by
  unfold SpiBus.programLoad SpiBus.writeEnable
  rw [chip_send _ _ (by decide) (by decide), List.cons_append,
    chip_send _ _ (by decide) (by decide)]
  rfl

theorem chip_programIssue (page : Nat) (d : Chip) :
    Chip.bus.programIssue page d = W25nSpi.programIssue d page :=
  chip_send d _ (by decide) (by decide)

theorem chip_programWait (n : Nat) (d : Chip) :
    Chip.bus.programWait (n + 1) d = W25nSpi.programWait d := by
  unfold SpiBus.programWait W25nSpi.programWait
  rw [chip_waitBusy n d (m := W25nSpi.polls 100000 50) (by decide)]

theorem chip_pageRead (n page : Nat) (d : Chip) :
    Chip.bus.pageRead (n + 1) page d = W25nSpi.pageRead d page := by
  unfold SpiBus.pageRead W25nSpi.pageRead
  rw [chip_send _ _ (by decide) (by decide), ← chip_waitBusy n _ (by decide)]

theorem readBuf_length {d : Chip} {col len : Nat} {data : List Byte}
    (h : W25nSpi.readBuf d col len = some data) : data.length = len := by
  have hd : ∃ b : Nat → Byte, some ((List.range len).map b) = some data := by
    unfold W25nSpi.readBuf Chip.received at h
    rw [W25nSpi.colBytes] at h
    dsimp only [List.cons_append, List.nil_append] at h
    split at h
    · exact ⟨_, h⟩
    · cases h
  obtain ⟨b, hb⟩ := hd
  cases hb
  simp

theorem chip_readBuf (col len : Nat) (d : Chip) :
    ((Chip.bus.readBuf col len d).1.map Vector.toList, (Chip.bus.readBuf col len d).2) =
      (W25nSpi.readBuf d col len, d) := by
  show (Option.map Vector.toList (Option.map _ (W25nSpi.readBuf d col len)), d) = _
  rw [Option.map_map]
  congr 1
  cases h : W25nSpi.readBuf d col len with
  | none => rfl
  | some data =>
    refine congrArg some (List.ext_getElem ?_ fun i h1 h2 => ?_)
    · simp [readBuf_length h]
    · simp [h2]

/-! ## Outcomes of the transfers -/

/-- What happens to the transfers, by their number. -/
structure Outcomes where
  fails : Nat → Bool
  /-- The bytes a transfer receives. -/
  rx : Nat → Nat → Byte
  /-- What an uninitialised destination of the transfer holds. -/
  junk : Nat → Byte

/-- The state is the number of transfers issued. -/
def Outcomes.bus (o : Outcomes) : SpiBus Nat where
  transfer _ len k := (if o.fails k then none else some (.ofFn fun i : Fin len => o.rx k i), k + 1)
  junk := o.junk

/-- The status byte after transfer `k`. -/
def Outcomes.status (o : Outcomes) (k : Nat) : Byte := if o.fails k then o.junk k else o.rx k 0

/-- The transfers from `k` to `stop` succeed. -/
def Outcomes.Clean (o : Outcomes) (k stop : Nat) : Prop := ∀ j, k ≤ j → j < stop → o.fails j = false

/-- A call of the driver. -/
inductive SpiCall
  | unprotect
  | setEcc (enable : Bool)
  | waitBusy (polls : Nat)
  | blockErase (polls page : Nat)
  | programLoad (col : Nat) (data : List Byte)
  | programIssue (page : Nat)
  | programWait (polls : Nat)
  | pageRead (polls page : Nat)
  | readBuf (col len : Nat)

/-- Whether the call returns a nonnegative value, and the state after it. -/
def SpiCall.run {σ : Type} (bus : SpiBus σ) (s : σ) : SpiCall → Bool × σ
  | unprotect => bus.unprotect s
  | setEcc enable => bus.setEcc enable s
  | waitBusy n => ((bus.waitBusy n s).1, (bus.waitBusy n s).2.2)
  | blockErase n page => bus.blockErase n page s
  | programLoad col data => bus.programLoad col data s
  | programIssue page => bus.programIssue page s
  | programWait n => bus.programWait n s
  | pageRead n page => bus.pageRead n page s
  | readBuf col len => ((bus.readBuf col len s).1.isSome, (bus.readBuf col len s).2)

/-- A call with a failed transfer returns a negative value. -/
def Reports (o : Outcomes) (k : Nat) (call : SpiCall) : Prop :=
  (∃ j, k ≤ j ∧ j < (call.run o.bus k).2 ∧ o.fails j = true) → (call.run o.bus k).1 = false

/-- Poll `k + j` is the first of `n + 1` polls whose status byte has the BUSY bit clear. -/
def Outcomes.ReadyAt (o : Outcomes) (k n j : Nat) : Prop :=
  j ≤ n ∧ (∀ i < j, o.status (k + i) &&& 0x01 ≠ 0) ∧ o.status (k + j) &&& 0x01 = 0

/-- The condition on the outcomes: no transfer fails, or the status byte the call goes by (received, or
left in the variable) does not look like success. -/
def SpiCall.Sound (o : Outcomes) (k : Nat) : SpiCall → Prop
  | unprotect => o.Clean k (k + 2) ∨ o.status (k + 1) ≠ 0x00
  | setEcc enable => o.Clean k (k + 3) ∨ o.status (k + 2) ≠ SpiBus.eccBits enable (o.status k)
  | waitBusy n => ∀ j, o.ReadyAt k n j → o.Clean k (k + j + 1)
  | blockErase n _ => ∀ j, o.ReadyAt (k + 2) n j →
      o.Clean k (k + 2 + j + 1) ∨ o.status (k + 2 + j) &&& 0x04 ≠ 0
  | programLoad _ _ => o.fails k = true → o.fails (k + 1) = true
  | programIssue _ => True
  | programWait n => ∀ j, o.ReadyAt k n j → o.Clean k (k + j + 1) ∨ o.status (k + j) &&& 0x08 ≠ 0
  | pageRead n _ => ∀ j, o.ReadyAt (k + 1) n j → o.Clean k (k + 1 + j + 1)
  | readBuf _ _ => True

namespace Outcomes

variable {o : Outcomes} {k : Nat}

theorem send_eq (tx : List Byte) : o.bus.send tx k = (!o.fails k, k + 1) := by
  cases h : o.fails k <;> simp [SpiBus.send, bus, h]

theorem readStatus_eq (addr : Byte) :
    o.bus.readStatus addr (o.bus.junk k) k = (!o.fails k, o.status k, k + 1) := by
  cases h : o.fails k with
  | true => simp [SpiBus.readStatus, bus, status, h]
  | false =>
    simp only [SpiBus.readStatus, bus, status, h, Bool.false_eq_true, if_false, Option.isSome_some,
      Option.map_some, Option.getD_some, Bool.not_false]
    rw [show (Vector.ofFn fun i : Fin 1 => o.rx k i).get 0 = o.rx k 0 from
      Vector.getElem_ofFn Nat.one_pos]

theorem waitBusy_poll (n : Nat) : o.bus.waitBusy n k =
    if o.status k &&& 0x01 = 0 then (true, o.status k, k + 1)
    else
      match n with
      | 0 => (false, o.status k, k + 1)
      | n + 1 => o.bus.waitBusy n (k + 1) := by
  cases n with
  | zero =>
    rw [SpiBus.waitBusy]
    simp only [readStatus_eq]
  | succ n =>
    rw [SpiBus.waitBusy]
    simp only [readStatus_eq]

/-- After a busy poll the rest is a poll loop of its own. -/
theorem readyAt_succ {n j : Nat} (h : o.status k &&& 0x01 ≠ 0) :
    o.ReadyAt k (n + 1) j ↔ ∃ i, j = i + 1 ∧ o.ReadyAt (k + 1) n i := by
  constructor
  · rintro ⟨hj, hbusy, hready⟩
    cases j with
    | zero => exact absurd hready h
    | succ i =>
      refine ⟨i, rfl, by omega, fun m hm => ?_, ?_⟩
      · have := hbusy (m + 1) (by omega)
        rwa [show k + (m + 1) = k + 1 + m by omega] at this
      · rwa [show k + (i + 1) = k + 1 + i by omega] at hready
  · rintro ⟨i, rfl, hi, hbusy, hready⟩
    refine ⟨by omega, fun m hm => ?_, ?_⟩
    · cases m with
      | zero => exact h
      | succ m => rw [show k + (m + 1) = k + 1 + m by omega]; exact hbusy m (by omega)
    · rwa [show k + (i + 1) = k + 1 + i by omega]

/-- The poll loop ends at the first status byte that is ready, or after the last poll. -/
theorem waitBusy_cases : ∀ (n k : Nat),
    (∃ j, o.ReadyAt k n j ∧ o.bus.waitBusy n k = (true, o.status (k + j), k + j + 1)) ∨
      (∀ j, ¬ o.ReadyAt k n j) ∧ ∃ sr, o.bus.waitBusy n k = (false, sr, k + n + 1) := by
  intro n
  induction n with
  | zero =>
    intro k
    rw [waitBusy_poll]
    split
    · rename_i h
      exact .inl ⟨0, ⟨le_rfl, by simp, h⟩, rfl⟩
    · rename_i h
      refine .inr ⟨fun j hj => h ?_, _, rfl⟩
      obtain rfl : j = 0 := by have := hj.1; omega
      exact hj.2.2
  | succ n ih =>
    intro k
    rw [waitBusy_poll]
    split
    · rename_i h
      exact .inl ⟨0, ⟨by omega, by simp, h⟩, rfl⟩
    · rename_i h
      rcases ih (k + 1) with ⟨j, hj, he⟩ | ⟨hno, sr, he⟩
      · refine .inl ⟨j + 1, (readyAt_succ h).2 ⟨j, rfl, hj⟩, ?_⟩
        rw [show k + (j + 1) = k + 1 + j by omega]
        exact he
      · refine .inr ⟨fun j hj => ?_, sr, ?_⟩
        · obtain ⟨i, -, hi⟩ := (readyAt_succ h).1 hj
          exact hno i hi
        · rw [show k + (n + 1) + 1 = k + 1 + n + 1 by omega]
          exact he

theorem readyAt_unique {n i j : Nat} (hi : o.ReadyAt k n i) (hj : o.ReadyAt k n j) : i = j := by
  rcases lt_trichotomy i j with h | h | h
  · exact absurd hi.2.2 (hj.2.1 i h)
  · exact h
  · exact absurd hj.2.2 (hi.2.1 j h)

end Outcomes

/-! ## Reported failures -/

section
variable {o : Outcomes} {k : Nat} {call : SpiCall}

theorem reports_iff_clean {b : Bool} {stop : Nat} (h : call.run o.bus k = (b, stop)) :
    Reports o k call ↔ (b = true → o.Clean k stop) := by
  rw [Reports, h]
  constructor
  · intro hr hb j hj hlt
    by_contra hf
    have := hr ⟨j, hj, hlt, by simpa using hf⟩
    rw [hb] at this
    cases this
  · rintro hr ⟨j, hj, hlt, hf⟩
    by_contra hb
    have := hr (by simpa using hb) j hj hlt
    rw [hf] at this
    cases this

/-- A call of one transfer that returns its outcome. -/
theorem reports_send (h : call.run o.bus k = (!o.fails k, k + 1)) : Reports o k call := by
  rw [reports_iff_clean h]
  intro hok j hj hlt
  obtain rfl : j = k := by omega
  simpa using hok

/-- A call that ends with a poll loop after `m` transfers, and a test of the last SR-3. -/
theorem reports_wait {n m : Nat} {p : Byte → Bool}
    (h : call.run o.bus k = ((o.bus.waitBusy n (k + m)).1 && p (o.bus.waitBusy n (k + m)).2.1,
      (o.bus.waitBusy n (k + m)).2.2)) :
    Reports o k call ↔ ∀ j, o.ReadyAt (k + m) n j →
      o.Clean k (k + m + j + 1) ∨ p (o.status (k + m + j)) = false := by
  rcases Outcomes.waitBusy_cases n (k + m) with ⟨j, hj, he⟩ | ⟨hno, sr, he⟩
  · rw [he] at h
    rw [reports_iff_clean h, Bool.true_and]
    constructor
    · intro hr i hi
      obtain rfl := Outcomes.readyAt_unique hj hi
      cases hp : p (o.status (k + m + j)) with
      | true => exact .inl (hr hp)
      | false => exact .inr rfl
    · intro hr hp
      refine (hr j hj).resolve_right ?_
      rw [hp]
      exact Bool.true_eq_false_eq_False
  · rw [he] at h
    rw [reports_iff_clean h]
    exact ⟨fun _ i hi => absurd hi (hno i), fun _ hf => by simp at hf⟩

end

/-- **When a failed transfer is reported**: exactly when no transfer of the call fails, or the status
byte it goes by does not look like success. `program_issue` and `read_buf` always report. -/
theorem reports_iff (o : Outcomes) (k : Nat) (call : SpiCall) : Reports o k call ↔ call.Sound o k := by
  cases call with
  | unprotect =>
    have h : SpiCall.unprotect.run o.bus k = (decide (o.status (k + 1) = 0x00), k + 2) := by
      simp only [SpiCall.run, SpiBus.unprotect, SpiBus.writeStatus, Outcomes.send_eq,
        Outcomes.readStatus_eq]
    rw [reports_iff_clean h, decide_eq_true_iff, imp_iff_not_or, or_comm]
    rfl
  | setEcc enable =>
    have h : (SpiCall.setEcc enable).run o.bus k =
        (decide (o.status (k + 2) = SpiBus.eccBits enable (o.status k)), k + 3) := by
      simp only [SpiCall.run, SpiBus.setEcc, SpiBus.writeStatus, Outcomes.send_eq,
        Outcomes.readStatus_eq]
    rw [reports_iff_clean h, decide_eq_true_iff, imp_iff_not_or, or_comm]
    rfl
  | waitBusy n =>
    refine (reports_wait (m := 0) (n := n) (p := fun _ => true) ?_).trans ?_
    · simp [SpiCall.run]
    · simp [SpiCall.Sound]
  | blockErase n page =>
    refine (reports_wait (m := 2) (n := n) (p := fun sr => decide (sr &&& 0x04 = 0)) ?_).trans ?_
    · simp only [SpiCall.run, SpiBus.blockErase, SpiBus.writeEnable, Outcomes.send_eq]
    · simp [SpiCall.Sound]
  | programLoad col data =>
    have h : (SpiCall.programLoad col data).run o.bus k = (!o.fails (k + 1), k + 2) := by
      simp only [SpiCall.run, SpiBus.programLoad, SpiBus.writeEnable, Outcomes.send_eq]
    rw [reports_iff_clean h]
    constructor
    · intro hr hk
      by_contra hf
      have := hr (by simpa using hf) k le_rfl (by omega)
      rw [hk] at this
      cases this
    · intro hr hok j hj hlt
      have hlast : o.fails (k + 1) = false := by simpa using hok
      rcases eq_or_ne j k with rfl | hne
      · by_contra hf
        have := hr (by simpa using hf)
        rw [hlast] at this
        cases this
      · rwa [show j = k + 1 by omega]
  | programIssue page => exact iff_of_true (reports_send (Outcomes.send_eq _)) trivial
  | programWait n =>
    refine (reports_wait (m := 0) (n := n) (p := fun sr => decide (sr &&& 0x08 = 0)) ?_).trans ?_
    · simp only [SpiCall.run, SpiBus.programWait, Nat.add_zero]
    · simp [SpiCall.Sound]
  | pageRead n page =>
    refine (reports_wait (m := 1) (n := n) (p := fun _ => true) ?_).trans ?_
    · simp only [SpiCall.run, SpiBus.pageRead, Outcomes.send_eq, Bool.and_true]
    · simp [SpiCall.Sound]
  | readBuf col len =>
    have h : (SpiCall.readBuf col len).run o.bus k = (!o.fails k, k + 1) := by
      cases hf : o.fails k <;> simp [SpiCall.run, SpiBus.readBuf, Outcomes.bus, hf]
    exact iff_of_true (reports_send h) trivial

/-- The Write Enable of an erase fails, the chip ignores the erase and is ready at the first poll. -/
def lostWriteEnable : Outcomes where
  fails k := k = 0
  rx _ _ := 0x00
  junk _ := 0x00

/-- The status reads fail, and the status byte happens to hold 0. -/
def lostPolls : Outcomes where
  fails _ := true
  rx _ _ := 0xff
  junk _ := 0x00

/-- Both calls return success: the erase that was ignored, and the wait that received no status. -/
theorem lost_unreported : ¬ Reports lostWriteEnable 0 (.blockErase 2499 0) ∧
    ¬ Reports lostPolls 0 (.programWait 1999) := by
  constructor
  · intro h
    have := h ⟨0, by decide, by decide, rfl⟩
    cases this
  · intro h
    have := h ⟨0, by decide, by decide, rfl⟩
    cases this

end NandServer
