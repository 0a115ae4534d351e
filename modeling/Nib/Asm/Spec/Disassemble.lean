import Nib.Asm.Disassemble
import Nib.Asm.Spec.Duplicates
import Nib.Asm.Spec.Override
import Nib.Asm.Spec.WellFormed

/-!
# What the disassembler should print

A line that is assembled should be listed as one instruction with the name of its operation: a
mnemonic that stands for the same constant in the tables of the assembler.

* `Instr.Agrees` — `dis86` reads the bytes of an instruction, and prints its operation
* `Instr.listed` — when it does
-/

namespace Nib.Asm

/-- The mnemonics of a constant, in upper case. -/
def namesOf (table : List (String × Nat)) (n : Nat) : List String :=
  (table.filter fun x => x.2 == n).map fun x => String.ofList (x.1.toList.map Char.toUpper)

namespace Instr

/-- The names of the operation of an instruction. -/
def names : Instr → List String
  | .bytes [op] => namesOf simpleTable op
  | .bytes [op, n] => namesOf adjustTable op ++ if op = 0x0F then namesOf v20SimpleTable n else []
  | .bytes _ => ["BEXT", "BINS"]
  | .alu op _ _ => namesOf aluTable op
  | .shift op _ _ => namesOf shiftTable op
  | .mov _ _ => ["MOV"]
  -- `XCHG AX, AX` is `NOP`
  | .xchg dst src => if dst.isAx && src.isAx then ["XCHG", "NOP"] else ["XCHG"]
  | .test _ _ => ["TEST"]
  | .lea _ _ => ["LEA"]
  | .loadMem opcode _ _ => namesOf loadMemTable opcode
  | .incDec op _ => namesOf incDecTable op
  | .group3 field _ => if field = 5 then ["IMUL"] else namesOf group3Table field
  | .imulImm _ _ _ => ["IMUL"]
  | .pushPop isPop _ => [if isPop then "POP" else "PUSH"]
  | .jmpCall isCall _ => if isCall then ["CALL", "CALL FAR"] else ["JMP", "JMP SHORT", "JMP FAR"]
  | .jcc cc _ _ => namesOf jccTable cc
  | .loop opcode _ => namesOf loopTable opcode
  | .ret isFar _ => [if isFar then "RETF" else "RET"]
  | .int _ => ["INT"]
  | .inOut isOut _ _ => [if isOut then "OUT" else "IN"]
  | .enter _ _ => ["ENTER"]
  | .bitop op _ _ => namesOf bitopTable op
  | .bextBins isBext _ _ => [if isBext then "BEXT" else "BINS"]
  | .brkem _ => ["BRKEM"]
  | .prefixed _ rest => rest.names
  | .unknown => []

/-- The prefix as it is printed. -/
def prefixTexts : Instr → List String
  | .prefixed byte _ => (namesOf prefixTable byte).map (· ++ " ")
  | _ => [""]

/-- At most one prefix. -/
def prefixCount : Instr → Nat
  | .prefixed _ rest => rest.prefixCount + 1
  | _ => 0

/-- A printed line has the bytes of an instruction and no others, and shows its operation. -/
structure ListedBy (site : Site) (i : Instr) (line : DisLine) : Prop where
  length : line.length = (encode site i).bytes.length
  pfx : line.pfx ∈ i.prefixTexts
  name : line.name ∈ i.names

/-- **`dis86` lists an instruction**, whatever follows. -/
def Agrees (site : Site) (i : Instr) : Prop :=
  ∀ rest ip, i.ListedBy site (dis86 ((encode site i).bytes ++ rest) ip)

/-- All but a prefix of its own, `BEXT` and `BINS`, `POP CS`, and a long conditional jump. -/
def listed (site : Site) : Instr → Bool
  | .bytes [op] => !inTable prefixTable op
  | .bytes bs => bs.length == 2
  | .bextBins _ _ _ => false
  | .pushPop isPop op => !(isPop && op.isSreg && op.reg == 1)
  | .jcc _ label op => !jccIsLong site label op.imm
  | .prefixed _ rest => rest.listed (site.advance 1)
  | _ => true

end Instr

/-! ## A listing -/

/-- What nibdis prints for the first `n` instructions of some code. -/
def listing : Nat → List Nat → Nat → List DisLine
  | 0, _, _ => []
  | n + 1, code, ip =>
    let line := dis86 code ip
    line :: listing n (code.drop line.length) (ip + line.length)

/-- An instruction of a source line without an error, without a segment override and with at most
one prefix. -/
structure Accepted (site : Site) (i : Instr) : Prop where
  line : ∃ s line text, (lineStatement s text).1 = .instr i ∧ lineErrors s line text = 0 ∧
    site = lineSite s line text
  override : i.override = none
  prefixes : i.prefixCount ≤ 1

/-- The code of several instructions. -/
def codeOf (is : List (Site × Instr)) : List Nat := is.flatMap fun x => (encode x.1 x.2).bytes

/-- **The listing stays in step with the instructions**, whatever follows. -/
def StaysInStep (is : List (Site × Instr)) : Prop :=
  ∀ rest ip, List.Forall₂ (fun x line => x.2.ListedBy x.1 line) is
    (listing is.length (codeOf is ++ rest) ip)

end Nib.Asm
