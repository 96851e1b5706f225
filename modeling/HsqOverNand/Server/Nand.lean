import HsqOverNand.Lib.AndMemory
import HsqOverNand.Server.Rom

/-!
# The flash device under a CPU (`include/nandInterface.hpp`)

`NandInterface` is the class of devices a `CPU` runs on: `erase`, `read`, `write` and `size` of the
source's `nandInterface`, with their status. A read gets the caller's buffer and returns it as the
call leaves it; `length` is the buffer's length.

`Flash` is the fault-free device (the behaviour `NAND_STUB` reproduces).
-/

set_option autoImplicit false

namespace NandServer

class NandInterface (D : Type) where
  erase : D → (offset length : Nat) → Bool × D
  read : {n : Nat} → D → (offset : Nat) → (buffer : Vector Byte n) → Bool × Vector Byte n × D
  write : {n : Nat} → D → (offset : Nat) → (buffer : Vector Byte n) → Bool × D
  size : D → Nat

/-- A fault-free device. -/
structure Flash where
  mem : AndMemory.Mem 8
  size : Nat

instance : NandInterface Flash where
  erase d offset length := (true, { d with mem := AndMemory.erase d.mem offset length })
  read d offset _ := (true, AndMemory.readOut d.mem offset _, d)
  write d offset buffer := (true, { d with mem := AndMemory.program d.mem offset buffer })
  size d := d.size

/-- A flash geometry a CPU can use: whole 128 KiB blocks, more of them than the ROM area, and a size
that fits `uint32_t`. -/
structure SizeOk (size : Nat) : Prop where
  blocks : 131072 ∣ size
  ram : RAM < size
  u32 : size < 2 ^ 32

end NandServer
