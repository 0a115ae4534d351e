import Nib.Asm.Encode

/-!
# Reading ModR/M operands

What the processor reads after an opcode: a ModR/M byte, and a displacement of no, one or two
bytes. A memory operand is given by the registers that are added up, in ascending order, and an
offset.
-/

namespace Nib.Asm

/-- The registers that a memory operand adds up, and its displacement modulo 2^16. -/
structure MemRef where
  regs : List Nat
  disp : Nat
  deriving DecidableEq, Repr

inductive RmArg
  | reg (n : Nat)
  | mem (ref : MemRef)
  deriving DecidableEq, Repr

/-- The registers of the eight forms of a memory operand. -/
def rmRegs : Nat → List Nat
  | 0 => [R_BX, R_SI]
  | 1 => [R_BX, R_DI]
  | 2 => [R_BP, R_SI]
  | 3 => [R_BP, R_DI]
  | 4 => [R_SI]
  | 5 => [R_DI]
  | 6 => [R_BP]
  | _ => [R_BX]

/-- A byte as a displacement. -/
def signExtend (b : Nat) : Nat := if b < 128 then b else b + 65280

/-- The register field, the operand, and the bytes after it. -/
def decodeRm : List Nat → Option (Nat × RmArg × List Nat)
  | [] => none
  | modrm :: rest =>
    let field := modrm / 8 % 8
    let rm := modrm % 8
    if modrm / 64 = 3 then some (field, .reg rm, rest)
    else if modrm / 64 = 0 ∧ rm ≠ 6 then some (field, .mem { regs := rmRegs rm, disp := 0 }, rest)
    else if modrm / 64 = 1 then
      match rest with
      | d :: rest => some (field, .mem { regs := rmRegs rm, disp := signExtend d }, rest)
      | [] => none
    else
      match rest with
      | low :: high :: rest =>
        let regs := if modrm / 64 = 0 then [] else rmRegs rm
        some (field, .mem { regs, disp := low + 256 * high }, rest)
      | _ => none

/-! ## The operand in the text -/

namespace Operand

/-- Base and index in ascending order. -/
def regs (op : Operand) : List Nat :=
  match op.base, op.index with
  | some a, some b => [min a b, max a b]
  | some a, none => [a]
  | none, some b => [b]
  | none, none => []

/-- What a memory operand refers to. -/
def memRef (op : Operand) : MemRef := { regs := op.regs, disp := (op.disp % 65536).toNat }

end Operand

end Nib.Asm
