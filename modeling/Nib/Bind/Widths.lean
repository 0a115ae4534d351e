import Nib.Asm.Instr
import Nib.Asm.Spec.Decode
import Nib.Asm.Spec.WellFormed

/-!
# Instructions on a vreg in memory

What is printed for a vreg in memory where no register operand gives the width, as the assembler
reads it. A vreg that is a byte is moved through `AL` for some of these instructions.

* `access` — the bytes in memory that the processor uses for the operand of an instruction
* `MemVreg.Exact` — they are those of the vreg
* `MemInsn.Fits` — when they are
-/

namespace Nib.Bind

open Nib.Asm (Operand Instr inTable aluTable shiftTable R_BP)

/-- A slot of the frame, with the byte in it, or the home of a parameter above the frame. -/
inductive MemHome
  | spill (slot byteOffset : Nat)
  | stackHome (offset : Int)
  deriving DecidableEq, Repr

structure MemVreg where
  isByte : Bool := false
  isSeg : Bool := false
  home : MemHome
  deriving DecidableEq, Repr

namespace MemVreg

variable (v : MemVreg)

def isSpill : Bool :=
  match v.home with
  | .spill _ _ => true
  | .stackHome _ => false

/-- The offset from `BP`. -/
def offset : Int :=
  match v.home with
  | .spill slot byteOffset => -((slot : Int) + 1) * 2 + byteOffset
  | .stackHome offset => offset

/-- `vreg_asm`: `[BP+off]`. -/
def vregAsm : Operand := { type := .mem, base := some R_BP, disp := v.offset, hasDisp := true }

/-- `vreg_asm_sized`: with `byte` or `word` for a spill. -/
def vregAsmSized : Operand :=
  match v.home with
  | .spill _ _ => { v.vregAsm with size := if v.isByte then 1 else 2 }
  | .stackHome _ => v.vregAsm

end MemVreg

/-! ## The places that print one -/

def immOperand (n : Int) : Operand := { type := .imm, imm := n }

def clOperand : Operand := { type := .reg, reg := 1, size := 1 }

/-- A mnemonic by its code in a table of the assembler. -/
structure Mnemonic (table : List (String × Nat)) where
  code : Nat
  inTable : inTable table code = true

namespace Mnemonic

def add : Mnemonic aluTable := ⟨0, by decide⟩
def sub : Mnemonic aluTable := ⟨5, by decide⟩
def cmp : Mnemonic aluTable := ⟨7, by decide⟩

end Mnemonic

/-- The instructions on a vreg in memory without a register operand. -/
inductive MemInsn
  /-- `emit_alu` with an immediate. -/
  | alu (op : Mnemonic aluTable) (imm : Int)
  | shift (op : Mnemonic shiftTable) (imm : Int)
  /-- `emit_alu` with the count in `CL`. -/
  | shiftCl (op : Mnemonic shiftTable)
  /-- `emit_cmp_operands` with an immediate, and the test of `emit_condition_branch` for 0. -/
  | cmp (imm : Int)
  /-- `emit_direct_update`, of a sum or else of a difference. -/
  | update (isAdd cfLive : Bool) (imm : Int)
  /-- `emit_alu` for a product with an immediate. -/
  | imulImm (imm : Int)
  /-- `emit_alu` for `mul`, `imul`, `div` and `idiv` by a vreg. -/
  | mulDiv (isSigned isDiv : Bool)
  /-- `IR_UNARY` for `neg`, or else for `not`. -/
  | unary (isNeg : Bool)
  /-- `IR_MOV` with an immediate. -/
  | mov (imm : Int)
  /-- `IR_MOV` of the address or the segment of a label. -/
  | movLabel (label : List Char) (value : Int)
  /-- `rins_push_vreg_temp`, `rins_push_ret_src` and `emit_mov` from memory to memory. -/
  | push
  /-- `emit_mov` from memory to memory. -/
  | pop

namespace MemVreg

variable (v : MemVreg)

def emitDirectUpdate (isAdd cfLive : Bool) (imm : Int) : Instr :=
  if !cfLive && imm == 1 then .incDec (if isAdd then 0 else 1) v.vregAsmSized
  else .alu (if isAdd then Mnemonic.add else Mnemonic.sub).code v.vregAsmSized (immOperand imm)

/-- `IR_MOV`. A segment vreg goes through `AX`. -/
def emitMov (src : Operand) : Option Instr :=
  if v.isSeg then none
  else some (.mov (Asm.inferMovSizes v.vregAsm src).1 (Asm.inferMovSizes v.vregAsm src).2)

/-- What is printed, if it is no instruction on a register. -/
def emit : MemInsn → Option Instr
  | .alu op imm => some (.alu op.code v.vregAsmSized (immOperand imm))
  | .shift op imm => some (.shift op.code v.vregAsmSized (immOperand imm))
  | .shiftCl op => some (.shift op.code v.vregAsmSized clOperand)
  | .cmp imm => some (.alu Mnemonic.cmp.code v.vregAsmSized (immOperand imm))
  | .update isAdd cfLive imm => some (v.emitDirectUpdate isAdd cfLive imm)
  | .unary isNeg =>
    -- a byte goes through `AL`
    if v.isByte then none else some (.group3 (if isNeg then 3 else 2) v.vregAsmSized)
  -- the assembler takes the operands of `imul` with an immediate for registers
  | .imulImm imm => some (.imulImm v.vregAsm.reg v.vregAsm.reg imm)
  | .mulDiv isSigned isDiv =>
    some (.group3 (4 + (if isDiv then 2 else 0) + if isSigned then 1 else 0) v.vregAsm)
  | .mov imm => v.emitMov (immOperand imm)
  | .movLabel label value => v.emitMov { immOperand value with label, size := 2 }
  | .push => if v.isByte then none else some (.pushPop false v.vregAsm)
  | .pop => if v.isByte then none else some (.pushPop true v.vregAsm)

end MemVreg

/-! ## The bytes of a vreg -/

open Nib.Asm (MemRef decodeRm)

/-- The width of the operand behind an opcode, for those that take it from memory. -/
def operandWidths : List (Nat × Nat) :=
  [ (0x80, 1), (0x81, 2), (0x83, 2), (0x8F, 2), (0xC0, 1), (0xC1, 2), (0xC6, 1), (0xC7, 2),
    (0xD0, 1), (0xD1, 2), (0xD2, 1), (0xD3, 2), (0xF6, 1), (0xF7, 2), (0xFE, 1), (0xFF, 2) ]

/-- How many bytes in memory an instruction uses, and where they start. -/
def access : List Nat → Option (Nat × MemRef)
  | [] => none
  | opcode :: rest =>
    (operandWidths.lookup opcode).bind fun width =>
      match decodeRm rest with
      | some (_, .mem ref, _) => some (width, ref)
      | _ => none

namespace MemVreg

variable (v : MemVreg)

/-- The bytes of the vreg. -/
def bytes : Nat × MemRef :=
  (if v.isByte then 1 else 2, { regs := [R_BP], disp := (v.offset % 65536).toNat })

/-- **The instruction is for the bytes of the vreg**, wherever it is assembled. -/
def Exact (i : MemInsn) : Prop :=
  ∀ instr ∈ v.emit i, ∀ site, (Asm.encode site instr).errors = 0 ∧
    access (Asm.encode site instr).bytes = some v.bytes

end MemVreg

/-- The width is printed, or it is what the assembler takes without one: a byte, and a word for
`mov`. A byte is not pushed from memory, and `imul` with an immediate does not use it. -/
def MemInsn.Fits (v : MemVreg) : MemInsn → Prop
  | .imulImm _ => False
  | .mulDiv _ _ => v.isByte = true
  | .mov _ | .movLabel _ _ => v.isSeg = true ∨ v.isByte = false
  | .push | .pop => True
  | _ => v.isSpill = true ∨ v.isByte = true

end Nib.Bind
