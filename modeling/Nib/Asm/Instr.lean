import Nib.Asm.Encode

/-!
# Instruction dispatch

`assemble_instruction` parses the operands of a mnemonic and calls the encoder of its family.
The two halves are `parseInstr` and `encode`, with an `Instr` in between; the bytes an
instruction emits before it parses its operands do not influence the parse.
-/

namespace Nib.Asm

/-- A parsed instruction. -/
inductive Instr
  | bytes (bs : List Nat)
  | alu (op : Nat) (dst src : Operand)
  | shift (op : Nat) (dst src : Operand)
  | mov (dst src : Operand)
  | xchg (dst src : Operand)
  | test (dst src : Operand)
  | lea (dst src : Operand)
  | loadMem (opcode : Nat) (dst src : Operand)
  | incDec (op : Nat) (dst : Operand)
  | group3 (field : Nat) (dst : Operand)
  | imulImm (reg rm : Nat) (imm : Int)
  | pushPop (isPop : Bool) (op : Operand)
  | jmpCall (isCall : Bool) (op : Operand)
  | jcc (cc : Nat) (label : List Char) (op : Operand)
  | loop (opcode : Nat) (op : Operand)
  | ret (isFar : Bool) (op : Option Operand)
  | int (op : Operand)
  | inOut (isOut : Bool) (dst src : Operand)
  | enter (size level : Operand)
  | bitop (op : Nat) (dst src : Operand)
  | bextBins (isBext : Bool) (first : Operand) (second : Option Operand)
  | brkem (op : Operand)
  | prefixed (byte : Nat) (rest : Instr)
  | unknown
  deriving DecidableEq, Repr

/-! ## Mnemonic tables -/

/-- The entry of a mnemonic. -/
def lookupWord {α : Type} (table : List (String × α)) (mnemonic : List Char) : Option α :=
  (table.find? fun x => isWord x.1 mnemonic).map Prod.snd

def prefixTable : List (String × Nat) :=
  [ ("rep", 0xF3), ("repe", 0xF3), ("repz", 0xF3), ("repne", 0xF2), ("repnz", 0xF2),
    ("lock", 0xF0), ("repc", 0x65), ("repnc", 0x64) ]

def simpleTable : List (String × Nat) :=
  [ ("nop", 0x90), ("cbw", 0x98), ("cwd", 0x99),
    ("pushf", 0x9C), ("popf", 0x9D), ("sahf", 0x9E),
    ("lahf", 0x9F), ("movsb", 0xA4), ("movsw", 0xA5),
    ("cmpsb", 0xA6), ("cmpsw", 0xA7), ("stosb", 0xAA),
    ("stosw", 0xAB), ("lodsb", 0xAC), ("lodsw", 0xAD),
    ("scasb", 0xAE), ("scasw", 0xAF), ("xlat", 0xD7),
    ("aaa", 0x37), ("aas", 0x3F), ("daa", 0x27),
    ("das", 0x2F), ("hlt", 0xF4), ("cmc", 0xF5),
    ("clc", 0xF8), ("stc", 0xF9), ("cli", 0xFA),
    ("sti", 0xFB), ("cld", 0xFC), ("std", 0xFD),
    ("into", 0xCE), ("iret", 0xCF), ("pusha", 0x60),
    ("popa", 0x61), ("leave", 0xC9), ("salc", 0xD6),
    ("insb", 0x6C), ("insw", 0x6D), ("outsb", 0x6E),
    ("outsw", 0x6F) ]

/-- `AAM` and `AAD`. -/
def adjustTable : List (String × Nat) := [ ("aam", 0xD4), ("aad", 0xD5) ]

def aluTable : List (String × Nat) :=
  [ ("add", 0), ("or", 1), ("adc", 2), ("sbb", 3), ("and", 4), ("sub", 5), ("xor", 6), ("cmp", 7) ]

def shiftTable : List (String × Nat) :=
  [ ("rol", 0), ("ror", 1), ("rcl", 2), ("rcr", 3), ("shl", 4), ("sal", 4), ("shr", 5), ("sar", 7) ]

/-- `NOT`, `NEG`, `MUL`, `DIV` and `IDIV` by their ModR/M field. -/
def group3Table : List (String × Nat) :=
  [ ("not", 2), ("neg", 3), ("mul", 4), ("div", 6), ("idiv", 7) ]

def incDecTable : List (String × Nat) := [ ("inc", 0), ("dec", 1) ]

def loadMemTable : List (String × Nat) := [ ("lds", 0xC5), ("les", 0xC4), ("bound", 0x62) ]

def jccTable : List (String × Nat) :=
  [ ("jo", 0x0), ("jno", 0x1), ("jb", 0x2), ("jnae", 0x2),
    ("jc", 0x2), ("jnb", 0x3), ("jae", 0x3), ("jnc", 0x3),
    ("jz", 0x4), ("je", 0x4), ("jnz", 0x5), ("jne", 0x5),
    ("jbe", 0x6), ("jna", 0x6), ("jnbe", 0x7), ("ja", 0x7),
    ("js", 0x8), ("jns", 0x9), ("jp", 0xA), ("jpe", 0xA),
    ("jnp", 0xB), ("jpo", 0xB), ("jl", 0xC), ("jnge", 0xC),
    ("jnl", 0xD), ("jge", 0xD), ("jle", 0xE), ("jng", 0xE),
    ("jnle", 0xF), ("jg", 0xF) ]

/-- `JCXZ` and the `LOOP` variants. -/
def loopTable : List (String × Nat) :=
  [ ("jcxz", 0xE3), ("loop", 0xE2), ("loope", 0xE1), ("loopz", 0xE1), ("loopne", 0xE0),
    ("loopnz", 0xE0) ]

def bitopTable : List (String × Nat) := [ ("test1", 0), ("clr1", 1), ("set1", 2), ("not1", 3) ]

/-- The two-byte instructions without operands: BCD strings and nibble rotates. -/
def v20SimpleTable : List (String × Nat) :=
  [ ("add4s", 0x20), ("sub4s", 0x22), ("cmp4s", 0x26), ("rol4", 0x28), ("ror4", 0x2A) ]

/-! ## Parsing -/

/-- Two operands and the comma between them. -/
def parseTwo (f : Operand → Operand → Instr) : Parse Instr := do
  let dst ← parseOperand
  expect .comma
  let src ← parseOperand
  pure (f dst src)

def parseOne (f : Operand → Instr) : Parse Instr := do
  let op ← parseOperand
  pure (f op)

/-- `MOV` infers a missing size from the other operand, or else takes words. -/
def inferMovSizes (dst src : Operand) : Operand × Operand :=
  let src := if dst.size ≠ 0 ∧ src.size = 0 then { src with size := dst.size } else src
  let dst := if src.size ≠ 0 ∧ dst.size = 0 then { dst with size := src.size } else dst
  if dst.size = 0 ∧ src.size = 0 then ({ dst with size := 2 }, { src with size := 2 })
  else (dst, src)

/-- The optional base of `AAM` and `AAD`. -/
def parseAdjust (opcode : Nat) : Parse Instr := do
  let t ← peekToken
  if t.type = .number then
    let _ ← consume
    pure (.bytes [opcode, toByte t.ival])
  else pure (.bytes [opcode, 0x0A])

/-- `IMUL` reads past its lookahead and puts the line pointer back. -/
def parseImul : Parse Instr := do
  let dst ← parseOperand
  let save ← Parse.getState
  let t ← nextTokenRaw
  if t.type = .comma then
    let src ← parseOperand
    let save2 ← Parse.getState
    let t2 ← nextTokenRaw
    if t2.type = .comma then
      let imm ← parseOperand
      pure (.imulImm dst.reg src.reg imm.imm)
    else
      Parse.restorePtr save2
      pure (.imulImm dst.reg dst.reg src.imm)
  else
    Parse.restorePtr save
    pure (.group3 5 dst)

/-- The operand text of a conditional jump, as it stands after the mnemonic. -/
def jccLabel (ptr : List Char) : List Char :=
  ((skipWs ptr).take 63).takeWhile fun c => !isSpace c && c != ';'

def parseJcc (cc : Nat) : Parse Instr := do
  let s ← Parse.getState
  let op ← parseOperand
  pure (.jcc cc (jccLabel s.ptr) op)

def parseRet (isFar : Bool) : Parse Instr := do
  let t ← peekToken
  if t.type = .number ∨ t.type = .ident then
    let op ← parseOperand
    pure (.ret isFar (some op))
  else pure (.ret isFar none)

def parseBextBins (isBext : Bool) : Parse Instr := do
  let t ← peekToken
  if t.type = .eol then pure (.bytes [0x0F, if isBext then 0x33 else 0x31, 0xC0])
  else
    let first ← parseOperand
    let t ← peekToken
    if t.type ≠ .comma then pure (.bextBins isBext first none)
    else
      let _ ← consume
      let second ← parseOperand
      pure (.bextBins isBext first (some second))

/-- The parser of a mnemonic in the table, or else the next one. -/
def onTable {α : Type} (table : List (String × α)) (mnemonic : List Char) (f : α → Parse Instr)
    (otherwise : Parse Instr) : Parse Instr :=
  match lookupWord table mnemonic with
  | some x => f x
  | none => otherwise

/-- The parser of one mnemonic, or else the next one. -/
def onWord (w : String) (mnemonic : List Char) (p otherwise : Parse Instr) : Parse Instr :=
  if isWord w mnemonic then p else otherwise

/-- The instructions other than prefixes. -/
def parsePlain (m : List Char) : Parse Instr :=
  onTable simpleTable m (fun op => pure (.bytes [op])) <|
  onTable adjustTable m parseAdjust <|
  onTable aluTable m (fun op => parseTwo (.alu op)) <|
  onTable shiftTable m (fun op => parseTwo (.shift op)) <|
  onWord "mov" m
    (parseTwo fun dst src => .mov (inferMovSizes dst src).1 (inferMovSizes dst src).2) <|
  onWord "xchg" m (parseTwo .xchg) <|
  onWord "test" m (parseTwo .test) <|
  onWord "lea" m (parseTwo .lea) <|
  onTable loadMemTable m (fun op => parseTwo (.loadMem op)) <|
  onTable incDecTable m (fun op => parseOne (.incDec op)) <|
  onTable group3Table m (fun field => parseOne (.group3 field)) <|
  onWord "imul" m parseImul <|
  onWord "push" m (parseOne (.pushPop false)) <|
  onWord "pop" m (parseOne (.pushPop true)) <|
  onWord "jmp" m (parseOne (.jmpCall false)) <|
  onWord "call" m (parseOne (.jmpCall true)) <|
  onTable jccTable m parseJcc <|
  onTable loopTable m (fun opcode => parseOne (.loop opcode)) <|
  onWord "ret" m (parseRet false) <|
  onWord "retf" m (parseRet true) <|
  onWord "int" m (parseOne .int) <|
  onWord "in" m (parseTwo (.inOut false)) <|
  onWord "out" m (parseTwo (.inOut true)) <|
  onWord "enter" m (parseTwo .enter) <|
  onTable bitopTable m (fun op => parseTwo (.bitop op)) <|
  onTable v20SimpleTable m (fun op => pure (.bytes [0x0F, op])) <|
  onWord "bext" m (parseBextBins true) <|
  onWord "bins" m (parseBextBins false) <|
  onWord "brkem" m (parseOne .brkem) <|
  pure .unknown

/-- A prefix is followed by an instruction, or by nothing. -/
def parseInstr : Nat → List Char → Parse Instr
  | 0, _ => do
    Parse.hang
    pure .unknown
  | fuel + 1, mnemonic =>
    match lookupWord prefixTable mnemonic with
    | some byte => do
      let t ← peekToken
      if t.type = .ident then
        let _ ← consume
        let rest ← parseInstr fuel t.sval
        pure (.prefixed byte rest)
      else pure (.bytes [byte])
    | none => parsePlain mnemonic

/-! ## Encoding -/

/-- The site of an instruction `n` bytes further on. -/
def Site.advance (site : Site) (n : Nat) : Site := { site with pos := site.pos + n }

def encode (site : Site) : Instr → Enc
  | .bytes bs => { bytes := bs }
  | .alu op dst src => asmAlu op dst src
  | .shift op dst src => asmShift op dst src
  | .mov dst src => asmMov dst src
  | .xchg dst src => asmXchg dst src
  | .test dst src => asmTest dst src
  | .lea dst src => asmLea dst src
  | .loadMem opcode dst src => asmLoadMem opcode dst src
  | .incDec op dst => asmIncDec op dst
  | .group3 field dst => asmGroup3 field dst
  | .imulImm reg rm imm => asmImulImm reg rm imm
  | .pushPop isPop op => asmPushPop isPop op
  | .jmpCall isCall op => asmJmpCall site isCall op
  | .jcc cc label op => asmJcc site cc label op
  | .loop opcode op => asmLoop site opcode op
  | .ret isFar op => asmRet isFar op
  | .int op => asmInt op
  | .inOut isOut dst src => asmInOut isOut dst src
  | .enter size level => asmEnter size level
  | .bitop op dst src => asmV20Bitop op dst src
  | .bextBins isBext first second => asmV20BextBins isBext first second
  | .brkem op => asmBrkem op
  | .prefixed byte rest => emit byte ++ encode (site.advance 1) rest
  | .unknown => encErr

end Nib.Asm
