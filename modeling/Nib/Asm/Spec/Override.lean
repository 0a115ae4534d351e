import Nib.Asm.Line

/-!
# Segment overrides

The byte of an override belongs before the instruction. `overrideFirst` lists the instructions
that are encoded so.
-/

namespace Nib.Asm

def overrideByte (seg : Nat) : Nat := [0x26, 0x2E, 0x36, 0x3E].getD seg 0

namespace Operand

/-- The override of a memory operand. -/
def override (op : Operand) : Option Nat := if op.isMem then op.segOvr else none

/-- The operand without its override. -/
def clearOverride (op : Operand) : Operand := { op with segOvr := none }

end Operand

namespace Instr

/-- The override of the memory operand of an instruction. -/
def override : Instr → Option Nat
  | .alu _ dst src => dst.override <|> src.override
  | .shift _ dst src => dst.override <|> src.override
  | .mov dst src => dst.override <|> src.override
  | .xchg dst src => dst.override <|> src.override
  | .test dst src => dst.override <|> src.override
  | .lea dst src => dst.override <|> src.override
  | .loadMem opcode dst src =>
    if loadMemTable.any fun x => x.2 == opcode then dst.override <|> src.override else none
  | .incDec _ dst => dst.override
  | .group3 _ dst => dst.override
  | .pushPop _ op => op.override
  -- a memory operand has no label
  | .jmpCall _ op => if op.label.isEmpty then op.override else none
  | .bitop _ dst src => dst.override <|> src.override
  | .prefixed byte rest =>
    if prefixTable.any fun x => x.2 == byte then rest.override else none
  | _ => none

/-- The same instruction without an override. -/
def clearOverride : Instr → Instr
  | .alu op dst src => .alu op dst.clearOverride src.clearOverride
  | .shift op dst src => .shift op dst.clearOverride src.clearOverride
  | .mov dst src => .mov dst.clearOverride src.clearOverride
  | .xchg dst src => .xchg dst.clearOverride src.clearOverride
  | .test dst src => .test dst.clearOverride src.clearOverride
  | .lea dst src => .lea dst.clearOverride src.clearOverride
  | .loadMem opcode dst src => .loadMem opcode dst.clearOverride src.clearOverride
  | .incDec op dst => .incDec op dst.clearOverride
  | .group3 field dst => .group3 field dst.clearOverride
  | .pushPop isPop op => .pushPop isPop op.clearOverride
  | .jmpCall isCall op => .jmpCall isCall op.clearOverride
  | .bitop op dst src => .bitop op dst.clearOverride src.clearOverride
  | .prefixed byte rest => .prefixed byte rest.clearOverride
  | i => i

/-- An ALU instruction or `MOV` without an immediate, and an indirect jump or call. -/
def overrideFirst : Instr → Bool
  | .alu _ _ src => !src.isImm
  | .mov _ src => !src.isImm
  | .jmpCall _ _ => true
  | _ => false

/-- **The override byte comes first**, and then what is emitted without the override. -/
def PutsOverrideFirst (site : Site) (i : Instr) (seg : Nat) : Prop :=
  (encode site i).bytes = overrideByte seg :: (encode site i.clearOverride).bytes

end Instr

end Nib.Asm
