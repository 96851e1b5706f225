import HsqOverNand.Spi.Driver

/-!
# What the driver does to a ready chip

One lemma for each driver function: the bytes sent name the page and the column, and a ready chip ends
ready (`program_issue` apart).
-/

set_option autoImplicit false

namespace NandServer

namespace Chip

theorem pageOf_bytes {page : Nat} (h : page < 2 ^ 24) :
    pageOf (.ofNat 8 (page >>> 16)) (.ofNat 8 (page >>> 8)) (.ofNat 8 page) = page := by
  simp only [pageOf, BitVec.toNat_ofNat, Nat.shiftRight_eq_div_pow]
  omega

theorem colOf_bytes {col : Nat} (h : col < 2 ^ 16) :
    colOf (.ofNat 8 (col >>> 8)) (.ofNat 8 col) = col := by
  simp only [colOf, BitVec.toNat_ofNat, Nat.shiftRight_eq_div_pow]
  omega

/-! ## The states the driver leaves -/

def ready (d : Chip) : Chip := { d with busy := false }

/-- The page is in the buffer. -/
def latched (d : Chip) (page : Nat) : Chip := { d with buffer := d.pages page }

/-- The data is in the buffer. -/
def loaded (d : Chip) (col : Nat) (data : List Byte) : Chip :=
  { d with
    wel := true
    buffer := fun i => if col ≤ i then data.getD (i - col) 0xff else 0xff }

/-- The buffer is being programmed. -/
def issued (d : Chip) (page : Nat) : Chip :=
  { d with
    pages := fun p => if p = page then fun i => d.pages p i &&& d.buffer i else d.pages p
    wel := false
    busy := true }

/-- The block of the page is erased. -/
def erased (d : Chip) (page : Nat) : Chip :=
  { d with
    pages := fun p => if p / W25N_SPI_BLOCK_PAGES = page / W25N_SPI_BLOCK_PAGES then fun _ => 0xff
      else d.pages p
    wel := false
    busy := false }

end Chip

namespace W25nSpi

open Chip

/-- The first poll may find the chip busy, the second does not. -/
theorem waitBusy_eq (d : Chip) (n : Nat) :
    waitBusy (n + 2) d = (true, 0x00, d.ready) := by
  cases hb : d.busy with
  | false =>
    simp only [waitBusy, readStatus, ready, hb]
    rfl
  | true =>
    simp only [waitBusy, readStatus, ready, hb]
    rfl

theorem programWait_eq (d : Chip) : programWait d = (true, d.ready) := by
  have hsr : (0x00 : Byte) &&& 0x08 = 0 := by decide
  unfold programWait
  rw [show polls 100000 50 = 1998 + 2 from rfl, waitBusy_eq]
  simp only [hsr, decide_true, Bool.and_self]

section
variable {d : Chip} (hd : d.busy = false)
include hd

theorem writeEnable_eq : writeEnable d = { d with wel := true } := by
  unfold writeEnable command
  rw [if_neg (by rw [hd]; decide), if_pos rfl]

theorem blockErase_eq {page : Nat} (hp : page < 2 ^ 24) : blockErase d page = (true, d.erased page) := by
  have hcmd : (writeEnable d).command 0xd8 (pageBytes page) =
      ({ d with wel := true }).blockErase page := by
    rw [writeEnable_eq hd]
    unfold command
    rw [if_neg (by rw [hd]; decide), if_neg (by decide), if_neg (by decide)]
    simp only [pageBytes, if_true, pageOf_bytes hp]
  have hsr : (0x00 : Byte) &&& 0x04 = 0 := by decide
  unfold blockErase
  rw [hcmd, show polls 500000 200 = 2498 + 2 from rfl, waitBusy_eq]
  simp only [hsr, decide_true, Bool.and_self]
  rfl

theorem programLoad_eq {col : Nat} (hc : col < 2 ^ 16) (data : List Byte) :
    programLoad d col data = (true, d.loaded col data) := by
  unfold programLoad
  rw [writeEnable_eq hd]
  unfold command
  rw [if_neg (by rw [hd]; decide), if_neg (by decide), if_pos rfl]
  simp only [colBytes, List.cons_append, List.nil_append, colOf_bytes hc]
  rfl

theorem programIssue_eq (hw : d.wel = true) {page : Nat} (hp : page < 2 ^ 24) :
    programIssue d page = (true, d.issued page) := by
  unfold programIssue command
  rw [if_neg (by rw [hd]; decide), if_neg (by decide), if_neg (by decide)]
  simp only [pageBytes, pageOf_bytes hp, programExecute, hw, if_true]
  rfl

theorem pageRead_eq {page : Nat} (hp : page < 2 ^ 24) : pageRead d page = (true, d.latched page) := by
  have hcmd : d.command 0x13 (pageBytes page) = d.pageDataRead page := by
    unfold command
    rw [if_neg (by rw [hd]; decide), if_neg (by decide), if_neg (by decide)]
    simp only [pageBytes, pageOf_bytes hp]
    rfl
  unfold pageRead
  simp only [hcmd]
  rw [show polls 100000 20 = 4998 + 2 from rfl, waitBusy_eq]
  unfold ready latched
  rw [hd]
  rfl

theorem readBuf_eq {col : Nat} (hc : col < 2 ^ 16) (len : Nat) :
    readBuf d col len = some ((List.range len).map fun i => d.buffer (col + i)) := by
  unfold readBuf received
  simp only [colBytes, List.cons_append, List.nil_append, colOf_bytes hc, hd]
  rfl

end

end W25nSpi

end NandServer
