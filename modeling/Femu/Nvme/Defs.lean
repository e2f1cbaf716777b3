import Mathlib.Algebra.Ring.Nat
import Mathlib.Tactic.Common

/-!
# Femu.Nvme.Defs

Status codes and fixed-width arithmetic shared by the command handlers
(`nvme.h`). Values the host chooses are kept in fixed-width types in the
commands; inside the handlers they are natural numbers, and a result that the
code stores in an unsigned variable is reduced to the variable's width.
-/

namespace Femu.Nvme

/-! ## unsigned arithmetic -/

/-- The value of an expression stored in a `uint64_t`. -/
def u64 (x : Nat) : Nat := x % 2 ^ 64

/-- The value of an expression stored in a `uint32_t`. -/
def u32 (x : Nat) : Nat := x % 2 ^ 32

/-- The value of an expression stored in a `uint16_t`. -/
def u16 (x : Nat) : Nat := x % 2 ^ 16

theorem u64_eq {x : Nat} (h : x < 2 ^ 64) : u64 x = x := Nat.mod_eq_of_lt h

theorem u32_eq {x : Nat} (h : x < 2 ^ 32) : u32 x = x := Nat.mod_eq_of_lt h

theorem u64_le (x : Nat) : u64 x ≤ x := Nat.mod_le x _

theorem u32_le (x : Nat) : u32 x ≤ x := Nat.mod_le x _

/-! ## status codes -/

/-- The `uint16_t` status that a command handler returns. -/
abbrev Status : Type := UInt16

def nvmeSuccess : Status := 0x0000
def nvmeInvalidOpcode : Status := 0x0001
def nvmeInvalidField : Status := 0x0002
def nvmeCmdAbortReq : Status := 0x0007
def nvmeInvalidNsid : Status := 0x000b
def nvmeLbaRange : Status := 0x0080
def nvmeZoneBoundaryError : Status := 0x01b8
def nvmeZoneFull : Status := 0x01b9
def nvmeZoneReadOnly : Status := 0x01ba
def nvmeZoneOffline : Status := 0x01bb
def nvmeZoneInvalidWrite : Status := 0x01bc
def nvmeZoneTooManyActive : Status := 0x01bd
def nvmeZoneTooManyOpen : Status := 0x01be
def nvmeZoneInvalTransition : Status := 0x01bf
def nvmeUnrecoveredRead : Status := 0x0281
def nvmeCmpFailure : Status := 0x0285
def nvmeDulb : Status := 0x0287
def nvmeDnr : Status := 0x4000
def nvmeNoComplete : Status := 0xffff

@[simp] theorem invalidField_ne_success : nvmeInvalidField ||| nvmeDnr ≠ nvmeSuccess := by decide

/-! ## commands -/

/-- The two bits of `psdt` have a zero, `NVME_PSDT_PRP`. -/
instance psdt_neZero : NeZero 4 := ⟨by decide⟩

/-- `NvmeCmd`: the fields of a submission queue entry that the handlers read. -/
structure NvmeCmd where
  opcode : UInt8 := 0
  psdt : Fin 4 := 0
  cid : UInt16 := 0
  nsid : UInt32 := 0
  prp1 : UInt64 := 0
  prp2 : UInt64 := 0
  cdw10 : UInt32 := 0
  cdw11 : UInt32 := 0
  cdw12 : UInt32 := 0
  cdw13 : UInt32 := 0
deriving DecidableEq

namespace NvmeCmd

/-- `NvmeRwCmd.slba`: the double words 10 and 11. -/
def slba (c : NvmeCmd) : Nat := c.cdw10.toNat + 2 ^ 32 * c.cdw11.toNat

/-- `NvmeRwCmd.nlb`: the low half of double word 12, zero-based. -/
def nlb (c : NvmeCmd) : Nat := c.cdw12.toNat % 2 ^ 16

/-- `NvmeRwCmd.control`: the high half of double word 12. -/
def control (c : NvmeCmd) : Nat := c.cdw12.toNat / 2 ^ 16

theorem slba_lt (c : NvmeCmd) : c.slba < 2 ^ 64 := by
  have h₁ := c.cdw10.toNat_lt
  have h₂ := c.cdw11.toNat_lt
  simp only [slba]
  omega

theorem nlb_lt (c : NvmeCmd) : c.nlb < 2 ^ 16 := Nat.mod_lt _ (by omega)

end NvmeCmd

/-- `n->num_namespaces`, which `nvme_init_namespaces` asserts to be one. -/
def numNamespaces : Nat := 1

def nvmeCmdFlush : UInt8 := 0x00
def nvmeCmdWrite : UInt8 := 0x01
def nvmeCmdRead : UInt8 := 0x02
def nvmeCmdWriteUncor : UInt8 := 0x04
def nvmeCmdCompare : UInt8 := 0x05
def nvmeCmdWriteZeroes : UInt8 := 0x08
def nvmeCmdDsm : UInt8 := 0x09

/-! ## modes -/

/-- `femu_mode`. -/
inductive FemuMode
  | ocssd
  | bbssd
  | nossd
  | znssd
deriving DecidableEq

end Femu.Nvme
