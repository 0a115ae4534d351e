import Nib.Infra.Printf

/-!
# Disassembler

`dis86` prints one instruction and returns the number of bytes it has read. Most opcodes print a
name and the operands that follow in the code; these are a table here. A byte after the end of
the code reads as 0.

* `modrmEa` — a ModR/M byte and the operand it stands for
* `opcodeEntry`, `Shape.read` — the name and the operands of an opcode
* `dis86` — prefixes, opcode and operands
-/

namespace Nib.Asm

open Infra

/-! ## Reading the code -/

/-- The bytes that are left, and the number of bytes read. -/
structure DisState where
  src : List Nat
  pos : Nat := 0
  deriving DecidableEq, Repr

def fetch (st : DisState) : Nat × DisState :=
  match st.src with
  | [] => (0, st)
  | b :: src => (b, { src, pos := st.pos + 1 })

def fetch16 (st : DisState) : Nat × DisState :=
  let (low, st) := fetch st
  let (high, st) := fetch st
  (low ||| (high <<< 8), st)

/-! ## Printing -/

def r8 : List String := ["AL", "CL", "DL", "BL", "AH", "CH", "DH", "BH"]

def r16 : List String := ["AX", "CX", "DX", "BX", "SP", "BP", "SI", "DI"]

def sr : List String := ["ES", "CS", "SS", "DS"]

def alu : List String := ["ADD", "OR", "ADC", "SBB", "AND", "SUB", "XOR", "CMP"]

def shf : List String := ["ROL", "ROR", "RCL", "RCR", "SHL", "SHR", "SAL", "SAR"]

def ccNames : List String :=
  [ "JO", "JNO", "JB", "JNB", "JZ", "JNZ", "JBE", "JNBE",
    "JS", "JNS", "JP", "JNP", "JL", "JNL", "JLE", "JNLE" ]

def bop : List String := ["TEST1", "CLR1", "SET1", "NOT1"]

def g3 : List String := ["TEST", "TEST", "NOT", "NEG", "MUL", "IMUL", "DIV", "IDIV"]

def g5 : List String := ["INC", "DEC", "CALL", "CALL FAR", "JMP", "JMP FAR", "PUSH", "???"]

/-- `%02X` and `%04X`. -/
def hex2 (n : Nat) : String := String.ofList (printHex 2 n)

def hex4 (n : Nat) : String := String.ofList (printHex 4 n)

/-- A general register. -/
def regText (w n : Nat) : String := (if w = 1 then r16 else r8).getD n ""

/-- `(int8_t)b` and `(int16_t)n`. -/
def int8 (b : Nat) : Int := if b < 128 then b else b - 256

def int16 (n : Nat) : Int := if n < 32768 then n else n - 65536

def rmBase : List String := ["BX+SI", "BX+DI", "BP+SI", "BP+DI", "SI", "DI", "BP", "BX"]

/-- The register field and the text of the other operand. -/
def modrmEa (w : Nat) (st : DisState) : Nat × String × DisState :=
  let (b, st) := fetch st
  let mod := b / 64
  let reg := b / 8 % 8
  let rm := b % 8
  if mod = 3 then (reg, regText w rm, st)
  else if mod = 0 ∧ rm = 6 then
    let (n, st) := fetch16 st
    (reg, "[" ++ hex4 n ++ "h]", st)
  else if mod = 0 then (reg, "[" ++ rmBase.getD rm "" ++ "]", st)
  else if mod = 1 then
    let (d, st) := fetch st
    if 0 ≤ int8 d then (reg, "[" ++ rmBase.getD rm "" ++ "+" ++ hex2 (int8 d).toNat ++ "h]", st)
    else (reg, "[" ++ rmBase.getD rm "" ++ "-" ++ hex2 (-int8 d).toNat ++ "h]", st)
  else
    let (n, st) := fetch16 st
    (reg, "[" ++ rmBase.getD rm "" ++ "+" ++ hex4 n ++ "h]", st)

/-! ## Operands -/

/-- What an opcode prints after its name. -/
inductive Shape
  | fixed (operands : String)
  | imm8 (before after : String)
  | imm16 (before after : String)
  | near8
  | near16
  | far
  | enter
  | rm (w : Nat) (after : String)
  | rmReg (w : Nat)
  | regRm (w : Nat)
  | rmSreg
  | sregRm
  | rmImm8 (w : Nat)
  | rmImm16 (w : Nat)
  | regRmImm8
  | regRmImm16
  /-- A byte or word immediate for the first two fields. -/
  | group3 (w : Nat)
  /-- A byte in hexadecimal and the field for the fields above 1. -/
  | incDec
  deriving DecidableEq, Repr

/-- The near target of a displacement. -/
def nearText (ip : Nat) (pos : Nat) (d : Int) : String := hex4 ((ip + pos + d) % 65536).toNat

/-- The register field, or 0 without a ModR/M byte, and the operands. -/
def Shape.read (ip : Nat) (shape : Shape) (st : DisState) : Nat × String × DisState :=
  match shape with
  | .fixed operands => (0, operands, st)
  | .imm8 before after =>
    let (n, st) := fetch st
    (0, before ++ hex2 n ++ "h" ++ after, st)
  | .imm16 before after =>
    let (n, st) := fetch16 st
    (0, before ++ hex4 n ++ "h" ++ after, st)
  | .near8 =>
    let (d, st) := fetch st
    (0, " " ++ nearText ip st.pos (int8 d) ++ "h", st)
  | .near16 =>
    let (d, st) := fetch16 st
    (0, " " ++ nearText ip st.pos (int16 d) ++ "h", st)
  | .far =>
    let (o, st) := fetch16 st
    let (s, st) := fetch16 st
    (0, " " ++ hex4 s ++ ":" ++ hex4 o ++ "h", st)
  | .enter =>
    let (sz, st) := fetch16 st
    let (lv, st) := fetch st
    (0, " " ++ hex4 sz ++ "h, " ++ hex2 lv ++ "h", st)
  | .rm w after =>
    let (reg, ea, st) := modrmEa w st
    (reg, " " ++ ea ++ after, st)
  | .rmReg w =>
    let (reg, ea, st) := modrmEa w st
    (reg, " " ++ ea ++ ", " ++ regText w reg, st)
  | .regRm w =>
    let (reg, ea, st) := modrmEa w st
    (reg, " " ++ regText w reg ++ ", " ++ ea, st)
  | .rmSreg =>
    let (reg, ea, st) := modrmEa 1 st
    (reg, " " ++ ea ++ ", " ++ sr.getD (reg % 4) "", st)
  | .sregRm =>
    let (reg, ea, st) := modrmEa 1 st
    (reg, " " ++ sr.getD (reg % 4) "" ++ ", " ++ ea, st)
  | .rmImm8 w =>
    let (reg, ea, st) := modrmEa w st
    let (n, st) := fetch st
    (reg, " " ++ ea ++ ", " ++ hex2 n ++ "h", st)
  | .rmImm16 w =>
    let (reg, ea, st) := modrmEa w st
    let (n, st) := fetch16 st
    (reg, " " ++ ea ++ ", " ++ hex4 n ++ "h", st)
  | .regRmImm8 =>
    let (reg, ea, st) := modrmEa 1 st
    let (n, st) := fetch st
    (reg, " " ++ regText 1 reg ++ ", " ++ ea ++ ", " ++ hex2 n ++ "h", st)
  | .regRmImm16 =>
    let (reg, ea, st) := modrmEa 1 st
    let (n, st) := fetch16 st
    (reg, " " ++ regText 1 reg ++ ", " ++ ea ++ ", " ++ hex4 n ++ "h", st)
  | .group3 w =>
    let (reg, ea, st) := modrmEa w st
    if reg ≤ 1 then
      if w = 1 then
        let (n, st) := fetch16 st
        (reg, " " ++ ea ++ ", " ++ hex4 n ++ "h", st)
      else
        let (n, st) := fetch st
        (reg, " " ++ ea ++ ", " ++ hex2 n ++ "h", st)
    else (reg, " " ++ ea, st)
  | .incDec =>
    let (reg, ea, st) := modrmEa 0 st
    if reg ≤ 1 then (reg, " " ++ ea, st)
    else (reg, " FEh /" ++ String.ofList (printDec reg) ++ " " ++ ea, st)

/-! ## Opcodes -/

/-- The names of an opcode by the register field, and its shape. A single name is for all
fields. -/
structure OpEntry where
  names : List String
  shape : Shape
  deriving DecidableEq, Repr

def OpEntry.name (entry : OpEntry) (reg : Nat) : String :=
  match entry.names with
  | [name] => name
  | names => names.getD reg "DB"

def opcodeTable : List (Nat × OpEntry) :=
  [ (0x06, ⟨["PUSH"], .fixed " ES"⟩), (0x07, ⟨["POP"], .fixed " ES"⟩),
    (0x0E, ⟨["PUSH"], .fixed " CS"⟩), (0x16, ⟨["PUSH"], .fixed " SS"⟩),
    (0x17, ⟨["POP"], .fixed " SS"⟩), (0x1E, ⟨["PUSH"], .fixed " DS"⟩),
    (0x1F, ⟨["POP"], .fixed " DS"⟩), (0x27, ⟨["DAA"], .fixed ""⟩), (0x2F, ⟨["DAS"], .fixed ""⟩),
    (0x37, ⟨["AAA"], .fixed ""⟩), (0x3F, ⟨["AAS"], .fixed ""⟩), (0x60, ⟨["PUSHA"], .fixed ""⟩),
    (0x61, ⟨["POPA"], .fixed ""⟩), (0x62, ⟨["BOUND"], .regRm 1⟩),
    (0x68, ⟨["PUSH"], .imm16 " " ""⟩), (0x69, ⟨["IMUL"], .regRmImm16⟩),
    (0x6A, ⟨["PUSH"], .imm8 " " ""⟩), (0x6B, ⟨["IMUL"], .regRmImm8⟩),
    (0x6C, ⟨["INSB"], .fixed ""⟩), (0x6D, ⟨["INSW"], .fixed ""⟩),
    (0x6E, ⟨["OUTSB"], .fixed ""⟩), (0x6F, ⟨["OUTSW"], .fixed ""⟩),
    (0x80, ⟨alu, .rmImm8 0⟩), (0x81, ⟨alu, .rmImm16 1⟩), (0x82, ⟨alu, .rmImm8 0⟩),
    (0x83, ⟨alu, .rmImm8 1⟩), (0x84, ⟨["TEST"], .rmReg 0⟩), (0x85, ⟨["TEST"], .rmReg 1⟩),
    (0x86, ⟨["XCHG"], .rmReg 0⟩), (0x87, ⟨["XCHG"], .rmReg 1⟩), (0x88, ⟨["MOV"], .rmReg 0⟩),
    (0x89, ⟨["MOV"], .rmReg 1⟩), (0x8A, ⟨["MOV"], .regRm 0⟩), (0x8B, ⟨["MOV"], .regRm 1⟩),
    (0x8C, ⟨["MOV"], .rmSreg⟩), (0x8D, ⟨["LEA"], .regRm 1⟩), (0x8E, ⟨["MOV"], .sregRm⟩),
    (0x8F, ⟨["POP"], .rm 1 ""⟩), (0x90, ⟨["NOP"], .fixed ""⟩), (0x98, ⟨["CBW"], .fixed ""⟩),
    (0x99, ⟨["CWD"], .fixed ""⟩), (0x9A, ⟨["CALL"], .far⟩), (0x9B, ⟨["WAIT"], .fixed ""⟩),
    (0x9C, ⟨["PUSHF"], .fixed ""⟩), (0x9D, ⟨["POPF"], .fixed ""⟩),
    (0x9E, ⟨["SAHF"], .fixed ""⟩), (0x9F, ⟨["LAHF"], .fixed ""⟩),
    (0xA0, ⟨["MOV"], .imm16 " AL, [" "]"⟩), (0xA1, ⟨["MOV"], .imm16 " AX, [" "]"⟩),
    (0xA2, ⟨["MOV"], .imm16 " [" "], AL"⟩), (0xA3, ⟨["MOV"], .imm16 " [" "], AX"⟩),
    (0xA4, ⟨["MOVSB"], .fixed ""⟩), (0xA5, ⟨["MOVSW"], .fixed ""⟩),
    (0xA6, ⟨["CMPSB"], .fixed ""⟩), (0xA7, ⟨["CMPSW"], .fixed ""⟩),
    (0xA8, ⟨["TEST"], .imm8 " AL, " ""⟩), (0xA9, ⟨["TEST"], .imm16 " AX, " ""⟩),
    (0xAA, ⟨["STOSB"], .fixed ""⟩), (0xAB, ⟨["STOSW"], .fixed ""⟩),
    (0xAC, ⟨["LODSB"], .fixed ""⟩), (0xAD, ⟨["LODSW"], .fixed ""⟩),
    (0xAE, ⟨["SCASB"], .fixed ""⟩), (0xAF, ⟨["SCASW"], .fixed ""⟩),
    (0xC0, ⟨shf, .rmImm8 0⟩), (0xC1, ⟨shf, .rmImm8 1⟩), (0xC2, ⟨["RET"], .imm16 " " ""⟩),
    (0xC3, ⟨["RET"], .fixed ""⟩), (0xC4, ⟨["LES"], .regRm 1⟩), (0xC5, ⟨["LDS"], .regRm 1⟩),
    (0xC6, ⟨["MOV"], .rmImm8 0⟩), (0xC7, ⟨["MOV"], .rmImm16 1⟩), (0xC8, ⟨["ENTER"], .enter⟩),
    (0xC9, ⟨["LEAVE"], .fixed ""⟩), (0xCA, ⟨["RETF"], .imm16 " " ""⟩),
    (0xCB, ⟨["RETF"], .fixed ""⟩), (0xCC, ⟨["INT"], .fixed " 3"⟩),
    (0xCD, ⟨["INT"], .imm8 " " ""⟩), (0xCE, ⟨["INTO"], .fixed ""⟩), (0xCF, ⟨["IRET"], .fixed ""⟩),
    (0xD0, ⟨shf, .rm 0 ", 1"⟩), (0xD1, ⟨shf, .rm 1 ", 1"⟩), (0xD2, ⟨shf, .rm 0 ", CL"⟩),
    (0xD3, ⟨shf, .rm 1 ", CL"⟩), (0xD4, ⟨["AAM"], .imm8 " " ""⟩), (0xD5, ⟨["AAD"], .imm8 " " ""⟩),
    (0xD6, ⟨["SALC"], .fixed ""⟩), (0xD7, ⟨["XLAT"], .fixed ""⟩), (0xE0, ⟨["LOOPNE"], .near8⟩),
    (0xE1, ⟨["LOOPE"], .near8⟩), (0xE2, ⟨["LOOP"], .near8⟩), (0xE3, ⟨["JCXZ"], .near8⟩),
    (0xE4, ⟨["IN"], .imm8 " AL, " ""⟩), (0xE5, ⟨["IN"], .imm8 " AX, " ""⟩),
    (0xE6, ⟨["OUT"], .imm8 " " ", AL"⟩), (0xE7, ⟨["OUT"], .imm8 " " ", AX"⟩),
    (0xE8, ⟨["CALL"], .near16⟩), (0xE9, ⟨["JMP"], .near16⟩), (0xEA, ⟨["JMP"], .far⟩),
    (0xEB, ⟨["JMP SHORT"], .near8⟩), (0xEC, ⟨["IN"], .fixed " AL, DX"⟩),
    (0xED, ⟨["IN"], .fixed " AX, DX"⟩), (0xEE, ⟨["OUT"], .fixed " DX, AL"⟩),
    (0xEF, ⟨["OUT"], .fixed " DX, AX"⟩), (0xF4, ⟨["HLT"], .fixed ""⟩),
    (0xF5, ⟨["CMC"], .fixed ""⟩), (0xF6, ⟨g3, .group3 0⟩), (0xF7, ⟨g3, .group3 1⟩),
    (0xF8, ⟨["CLC"], .fixed ""⟩), (0xF9, ⟨["STC"], .fixed ""⟩), (0xFA, ⟨["CLI"], .fixed ""⟩),
    (0xFB, ⟨["STI"], .fixed ""⟩), (0xFC, ⟨["CLD"], .fixed ""⟩), (0xFD, ⟨["STD"], .fixed ""⟩),
    (0xFE, ⟨["INC", "DEC"], .incDec⟩), (0xFF, ⟨g5, .rm 1 ""⟩) ]

/-- The opcodes of the eight ALU operations. -/
def aluEntry (b : Nat) : OpEntry :=
  let name := alu.getD (b / 8) ""
  match b % 8 with
  | 0 => ⟨[name], .rmReg 0⟩
  | 1 => ⟨[name], .rmReg 1⟩
  | 2 => ⟨[name], .regRm 0⟩
  | 3 => ⟨[name], .regRm 1⟩
  | 4 => ⟨[name], .imm8 " AL, " ""⟩
  | _ => ⟨[name], .imm16 " AX, " ""⟩

/-- A one-byte opcode. -/
def opcodeEntry (b : Nat) : OpEntry :=
  if b < 0x40 ∧ b % 8 < 6 then aluEntry b
  else if 0x40 ≤ b ∧ b < 0x48 then ⟨["INC"], .fixed (" " ++ regText 1 (b % 8))⟩
  else if 0x48 ≤ b ∧ b < 0x50 then ⟨["DEC"], .fixed (" " ++ regText 1 (b % 8))⟩
  else if 0x50 ≤ b ∧ b < 0x58 then ⟨["PUSH"], .fixed (" " ++ regText 1 (b % 8))⟩
  else if 0x58 ≤ b ∧ b < 0x60 then ⟨["POP"], .fixed (" " ++ regText 1 (b % 8))⟩
  else if 0x70 ≤ b ∧ b < 0x80 then ⟨[ccNames.getD (b % 16) ""], .near8⟩
  else if 0x91 ≤ b ∧ b < 0x98 then ⟨["XCHG"], .fixed (" AX, " ++ regText 1 (b % 8))⟩
  else if 0xB0 ≤ b ∧ b < 0xB8 then ⟨["MOV"], .imm8 (" " ++ regText 0 (b % 8) ++ ", ") ""⟩
  else if 0xB8 ≤ b ∧ b < 0xC0 then ⟨["MOV"], .imm16 (" " ++ regText 1 (b % 8) ++ ", ") ""⟩
  else if 0xD8 ≤ b ∧ b < 0xE0 then
    -- the operand is printed after the number of the coprocessor opcode
    ⟨["ESC " ++ String.ofList (printDec (b - 0xD8 : Nat)) ++ ","], .rm 1 ""⟩
  else
    match opcodeTable.lookup b with
    | some entry => entry
    | none => ⟨["DB"], .fixed (" " ++ hex2 b ++ "h")⟩

/-- The opcodes of the V20 that have no operands, or a byte. -/
def v20Table : List (Nat × OpEntry) :=
  [ (0x20, ⟨["ADD4S"], .fixed ""⟩), (0x22, ⟨["SUB4S"], .fixed ""⟩), (0x26, ⟨["CMP4S"], .fixed ""⟩),
    (0x28, ⟨["ROL4"], .fixed ""⟩), (0x2A, ⟨["ROR4"], .fixed ""⟩), (0x31, ⟨["BINS"], .fixed ""⟩),
    (0x33, ⟨["BEXT"], .fixed ""⟩), (0x39, ⟨["BINS"], .imm8 " " ""⟩),
    (0x3B, ⟨["BEXT"], .imm8 " " ""⟩), (0xFF, ⟨["BRKEM"], .imm8 " " ""⟩) ]

/-- The second byte after `0x0F`. -/
def v20Entry (b : Nat) : OpEntry :=
  if 0x10 ≤ b ∧ b ≤ 0x1F then
    ⟨[bop.getD (b / 2 % 4) ""], if b / 8 % 2 = 1 then .rmImm8 (b % 2) else .rm (b % 2) ", CL"⟩
  else
    match v20Table.lookup b with
    | some entry => entry
    | none => ⟨["DB"], .fixed (" 0Fh, " ++ hex2 b ++ "h")⟩

/-! ## One instruction -/

/-- What `dis86` prints, and the number of bytes. -/
structure DisLine where
  pfx : String
  name : String
  operands : String
  length : Nat
  deriving DecidableEq, Repr

def DisLine.text (line : DisLine) : String := line.pfx ++ line.name ++ line.operands

def prefixNames : List (Nat × String) :=
  [ (0x26, "ES:"), (0x2E, "CS:"), (0x36, "SS:"), (0x3E, "DS:"), (0x64, "REPNC "), (0x65, "REPC "),
    (0xF0, "LOCK "), (0xF2, "REPNE "), (0xF3, "REP ") ]

/-- The last prefix, the byte after the prefixes, and the state after it. -/
def readPrefixes (pfx : String) : List Nat → Nat → String × Nat × DisState
  | [], pos => (pfx, 0, { src := [], pos })
  | b :: src, pos =>
    match prefixNames.lookup b with
    | some pfx => readPrefixes pfx src (pos + 1)
    | none => (pfx, b, { src, pos := pos + 1 })

/-- The name and operands of an opcode. -/
def readOpcode (ip b : Nat) (st : DisState) : String × String × DisState :=
  if b = 0x0F then
    let (b2, st) := fetch st
    let (reg, operands, st) := (v20Entry b2).shape.read ip st
    ((v20Entry b2).name reg, operands, st)
  else
    let (reg, operands, st) := (opcodeEntry b).shape.read ip st
    ((opcodeEntry b).name reg, operands, st)

/-- **Disassemble the first instruction.** -/
def dis86 (code : List Nat) (ip : Nat) : DisLine :=
  let (pfx, b, st) := readPrefixes "" code 0
  let (name, operands, st) := readOpcode ip b st
  { pfx, name, operands, length := st.pos }

end Nib.Asm
