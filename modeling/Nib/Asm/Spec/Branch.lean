import Nib.Asm.Spec.Decode
import Nib.Asm.Spec.Duplicates
import Nib.Asm.Spec.Override

/-!
# Branches

What the processor does with the bytes of a branch, and what the operand in the text asks for.

* `Cpu.run` — where control is after some bytes
* `Instr.Reaches` — the branch goes to its target, or on to the byte after it
* `Instr.reachable` — when it does
-/

namespace Nib.Asm

/-! ## The processor -/

/-- What a branch reads: the sixteen conditions, whether a `LOOP` or `JCXZ` opcode jumps, the word
registers, and the words in memory. -/
structure Cpu where
  cond : Nat → Bool
  inverse : ∀ cc < 16, cond (cc ^^^ 1) = !cond cc
  loops : Nat → Bool
  reg : Nat → Int
  mem : Option Nat → MemRef → Int

namespace Cpu

/-- Whether a branch with a byte displacement jumps, if the opcode is one. -/
def shortJump (cpu : Cpu) (opcode : Nat) : Option Bool :=
  if 0x70 ≤ opcode ∧ opcode < 0x80 then some (cpu.cond (opcode - 0x70))
  else if 0xE0 ≤ opcode ∧ opcode < 0xE4 then some (cpu.loops opcode)
  else if opcode = 0xEB then some true
  else none

/-- The offset that a near or far jump or call goes to. `seg` is the segment override. -/
def jump (cpu : Cpu) (seg : Option Nat) (ip : Int) (opcode : Nat) (rest : List Nat) : Option Int :=
  if opcode = 0xE8 ∨ opcode = 0xE9 then some (ip + 3 + wordOf rest)
  else if opcode = 0x9A ∨ opcode = 0xEA then some (wordOf rest)
  else if opcode = 0xFF then
    match decodeRm rest with
    | some (field, .reg n, _) => if field = 2 ∨ field = 4 then some (cpu.reg n) else none
    | some (field, .mem ref, _) => if 2 ≤ field ∧ field ≤ 5 then some (cpu.mem seg ref) else none
    | none => none
  else none

/-- `LOCK` and the repeat prefixes, which do nothing before a branch. -/
def isPrefix (opcode : Nat) : Bool := prefixTable.any fun x => x.2 == opcode

/-- The segment of an override. -/
def overrideSeg (opcode : Nat) : Option Nat := [0x26, 0x2E, 0x36, 0x3E].idxOf? opcode

/-- **Where control is after the bytes at `ip`**: at the first jump that is taken, or at their
end. -/
def run (cpu : Cpu) : Option Nat → Int → List Nat → Option Int
  | _, ip, [] => some (ip % 65536)
  | seg, ip, [opcode] => if isPrefix opcode then cpu.run seg (ip + 1) [] else none
  | seg, ip, opcode :: d :: rest =>
    if isPrefix opcode then cpu.run seg (ip + 1) (d :: rest)
    else match overrideSeg opcode with
      | some n => cpu.run (some n) (ip + 1) (d :: rest)
      | none =>
        match cpu.shortJump opcode with
        | some true => some ((ip + 2 + signedByte d) % 65536)
        | some false => cpu.run none (ip + 2) rest
        | none => (cpu.jump seg ip opcode (d :: rest)).map (· % 65536)

end Cpu

/-! ## The text -/

namespace Operand

/-- A number or a label. -/
def isTarget (op : Operand) : Bool := op.isImm || !op.label.isEmpty

/-- A word in memory, or a word register of a near branch. -/
def isPointer (op : Operand) : Bool :=
  (op.isMem && op.size != 1) || (op.isReg && op.size == 2 && !op.isFar)

end Operand

namespace Instr

def isBranch : Instr → Bool
  | .jmpCall _ _ => true
  | .jcc _ _ _ => true
  | .loop _ _ => true
  | .prefixed _ rest => rest.isBranch
  | _ => false

/-- The target that the operand gives. Only `JMP` and `CALL` have a register or memory. -/
def target (cpu : Cpu) : Instr → Option Int
  | .jmpCall _ op =>
    if op.isTarget then some op.imm
    else if !op.isPointer then none
    else if op.isMem then some (cpu.mem op.segOvr op.memRef)
    else some (cpu.reg op.reg)
  | .jcc _ _ op => if op.isImm then some op.imm else none
  | .loop _ op => if op.isImm then some op.imm else none
  | .prefixed _ rest => rest.target cpu
  | _ => none

/-- The condition of the mnemonic. -/
def holds (cpu : Cpu) : Instr → Bool
  | .jcc cc _ _ => cpu.cond cc
  | .loop opcode _ => cpu.loops opcode
  | .prefixed _ rest => rest.holds cpu
  | _ => true

/-- A branch of two bytes has its displacement in the second one. -/
def Untruncated (site : Site) : Instr → Prop
  | .jmpCall isCall op => (encode site (.jmpCall isCall op)).bytes.length = 2 →
      op.isTarget = true → fitsByte (site.rel op.imm) = true
  | .jcc cc label op => (encode site (.jcc cc label op)).bytes.length = 2 →
      fitsByte (site.rel op.imm) = true
  | .loop opcode op => (encode site (.loop opcode op)).bytes.length = 2 →
      fitsByte (site.rel op.imm) = true
  | .prefixed _ rest => rest.Untruncated (site.advance 1)
  | _ => True

/-- **A branch reaches its target** if the condition holds, and the byte after it if not. -/
structure Reaches (site : Site) (i : Instr) : Prop where
  target : ∀ cpu : Cpu, ∃ t, i.target cpu = some t ∧
    cpu.run none site.pos (encode site i).bytes =
      some ((if i.holds cpu then t else site.pos + (encode site i).bytes.length) % 65536)
  short : i.Untruncated site

/-- A number or a label, which a conditional jump has to know or to have in short range, or a
pointer of `JMP` and `CALL`. -/
def reachable (site : Site) : Instr → Bool
  | .jmpCall _ op => op.isTarget || op.isPointer
  | .jcc _ label op =>
    op.isImm && (site.relaxed || site.knows label || fitsByte (site.rel op.imm))
  | .loop _ op => op.isImm
  | .prefixed _ rest => rest.reachable (site.advance 1)
  | _ => false

end Instr

end Nib.Asm
