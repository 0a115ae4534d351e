import Nib.Asm.Line

/-!
# Parsed instructions

What the parser promises of operands and instructions: register numbers and sizes in range, and
the constants that the mnemonic tables hold.
-/

namespace Nib.Asm

/-- A register number, a size and a displacement as the parser makes them. -/
structure Operand.Wf (op : Operand) : Prop where
  reg : op.reg < 8
  size : op.size ≤ 2
  regSize : op.type = .reg → op.size ≠ 0
  sreg : op.type = .sreg → op.reg < 4 ∧ op.size = 2
  disp : op.hasDisp = false → op.disp = 0
  label : op.type = .mem → op.label = []
  bp : op.index = some R_BP → op.base.isSome = true
  segOvr : ∀ n, op.segOvr = some n → n < 4

/-- The entries of a mnemonic table. -/
def inTable (table : List (String × Nat)) (n : Nat) : Bool := table.any fun x => x.2 == n

/-- The instructions that are emitted as they are parsed: a mnemonic without operands, one with a
number, a prefix alone, and `BEXT` and `BINS` of the default registers. -/
def isFixed : List Nat → Bool
  | [op] => inTable simpleTable op || inTable prefixTable op
  | [op, n] => inTable adjustTable op && n < 256 || op == 0x0F && inTable v20SimpleTable n
  | [op, n, modrm] => op == 0x0F && (n == 0x33 || n == 0x31) && modrm == 0xC0
  | _ => false

/-- Parsed operands, and constants from the mnemonic tables. -/
def Instr.Wf : Instr → Prop
  | .alu op dst src => inTable aluTable op = true ∧ dst.Wf ∧ src.Wf
  | .shift op dst src => inTable shiftTable op = true ∧ dst.Wf ∧ src.Wf
  | .mov dst src => dst.Wf ∧ src.Wf
  | .xchg dst src => dst.Wf ∧ src.Wf
  | .test dst src => dst.Wf ∧ src.Wf
  | .lea dst src => dst.Wf ∧ src.Wf
  | .loadMem opcode dst src => inTable loadMemTable opcode = true ∧ dst.Wf ∧ src.Wf
  | .incDec op dst => inTable incDecTable op = true ∧ dst.Wf
  | .group3 field dst => (field = 5 ∨ inTable group3Table field = true) ∧ dst.Wf
  | .imulImm reg rm _ => reg < 8 ∧ rm < 8
  | .pushPop _ op => op.Wf
  | .jmpCall _ op => op.Wf
  | .jcc cc _ op => inTable jccTable cc = true ∧ op.Wf
  | .loop opcode op => inTable loopTable opcode = true ∧ op.Wf
  | .int op => op.Wf
  | .inOut _ dst src => dst.Wf ∧ src.Wf
  | .enter size level => size.Wf ∧ level.Wf
  | .bitop op dst src => inTable bitopTable op = true ∧ dst.Wf ∧ src.Wf
  | .bextBins _ first second => first.Wf ∧ ∀ op ∈ second, op.Wf
  | .brkem op => op.Wf
  | .prefixed byte rest => inTable prefixTable byte = true ∧ rest.Wf
  | .bytes bs => isFixed bs = true
  | .ret _ op => ∀ o ∈ op, o.Wf
  | .unknown => True

end Nib.Asm
