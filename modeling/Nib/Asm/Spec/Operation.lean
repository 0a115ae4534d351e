import Nib.Asm.Instr
import Nib.Asm.Spec.Decode
import Nib.Asm.Spec.Override

/-!
# Operations

What the processor reads from the bytes of an instruction with operands, and what the text of the
instruction asks for.

* `form`, `decode` — the opcode table and the operands after an opcode
* `Op.Means` — a mnemonic and its operands ask for an operation
* `Faithful` — the bytes are read as what the text asks for
* `Encodable` — when they are
-/

namespace Nib.Asm

inductive Op
  | add | or | adc | sbb | and | sub | xor | cmp
  | rol | ror | rcl | rcr | shl | shr | sar
  | mov | xchg | test | imul | inc | dec | push | pop
  deriving DecidableEq, Repr

inductive Arg
  | reg (n : Nat)
  | sreg (n : Nat)
  | mem (ref : MemRef)
  | imm (n : Nat)
  deriving DecidableEq, Repr

/-- An operation on bytes or on words. An immediate is taken modulo the width. -/
structure Operation where
  op : Op
  width : Nat
  args : List Arg
  deriving DecidableEq, Repr

/-! ## Reading the bytes -/

/-- An immediate after the operands: a byte, a word, or a byte that stands for a word. -/
inductive ImmKind
  | byte | word | signed
  deriving DecidableEq, Repr

def ImmKind.read : ImmKind → List Nat → Option (Nat × List Nat)
  | .byte, b :: rest => some (b, rest)
  | .signed, b :: rest => some (signExtend b, rest)
  | .word, low :: high :: rest => some (low + 256 * high, rest)
  | _, _ => none

/-- The immediate of a width. -/
def ImmKind.ofWidth (w : Nat) : ImmKind := if w = 2 then .word else .byte

/-- What follows an opcode. An operation that depends on the ModR/M field is a list. -/
inductive Form
  | rmReg (op : Op) (w : Nat)
  | regRm (op : Op) (w : Nat)
  | rmSreg
  | sregRm
  | fixed (op : Op) (w : Nat) (args : List Arg)
  | fixedImm (op : Op) (w : Nat) (args : List Arg) (kind : ImmKind)
  | rm (ops : List (Option Op)) (w : Nat) (args : List Arg)
  | rmImm (ops : List (Option Op)) (w : Nat) (kind : ImmKind)
  | unary (w : Nat)
  | regRmImm (kind : ImmKind)
  deriving DecidableEq, Repr

def RmArg.arg : RmArg → Arg
  | .reg n => .reg n
  | .mem ref => .mem ref

def aluOps : List (Option Op) :=
  [some .add, some .or, some .adc, some .sbb, some .and, some .sub, some .xor, some .cmp]

def shiftOps : List (Option Op) :=
  [some .rol, some .ror, some .rcl, some .rcr, some .shl, some .shr, none, some .sar]

/-- The opcodes of the eight ALU operations. -/
def aluForm (op : Op) : Nat → Option Form
  | 0 => some (.rmReg op 1)
  | 1 => some (.rmReg op 2)
  | 2 => some (.regRm op 1)
  | 3 => some (.regRm op 2)
  | 4 => some (.fixedImm op 1 [.reg 0] .byte)
  | 5 => some (.fixedImm op 2 [.reg 0] .word)
  | _ => none

def segmentOpcodes : List (Nat × Form) :=
  [ (0x06, .fixed .push 2 [.sreg 0]), (0x07, .fixed .pop 2 [.sreg 0]),
    (0x0E, .fixed .push 2 [.sreg 1]), (0x16, .fixed .push 2 [.sreg 2]),
    (0x17, .fixed .pop 2 [.sreg 2]), (0x1E, .fixed .push 2 [.sreg 3]),
    (0x1F, .fixed .pop 2 [.sreg 3]) ]

def opcodes : List (Nat × Form) :=
  [ (0x68, .fixedImm .push 2 [] .word), (0x69, .regRmImm .word),
    (0x6A, .fixedImm .push 2 [] .signed), (0x6B, .regRmImm .signed),
    (0x80, .rmImm aluOps 1 .byte), (0x81, .rmImm aluOps 2 .word), (0x83, .rmImm aluOps 2 .signed),
    (0x84, .rmReg .test 1), (0x85, .rmReg .test 2), (0x86, .rmReg .xchg 1), (0x87, .rmReg .xchg 2),
    (0x88, .rmReg .mov 1), (0x89, .rmReg .mov 2), (0x8A, .regRm .mov 1), (0x8B, .regRm .mov 2),
    (0x8C, .rmSreg), (0x8E, .sregRm), (0x8F, .rm [some .pop] 2 []),
    (0xA8, .fixedImm .test 1 [.reg 0] .byte), (0xA9, .fixedImm .test 2 [.reg 0] .word),
    (0xC0, .rmImm shiftOps 1 .byte), (0xC1, .rmImm shiftOps 2 .byte),
    (0xC6, .rmImm [some .mov] 1 .byte), (0xC7, .rmImm [some .mov] 2 .word),
    (0xD0, .rm shiftOps 1 [.imm 1]), (0xD1, .rm shiftOps 2 [.imm 1]),
    (0xD2, .rm shiftOps 1 [.reg 1]), (0xD3, .rm shiftOps 2 [.reg 1]),
    (0xF6, .unary 1), (0xF7, .unary 2), (0xFE, .rm [some .inc, some .dec] 1 []),
    (0xFF, .rm [some .inc, some .dec, none, none, none, none, some .push] 2 []) ]

/-- The form of an opcode. `0x0F` starts the opcodes of the V20. -/
def form (opcode : Nat) : Option Form :=
  if opcode < 0x40 then
    match segmentOpcodes.lookup opcode with
    | some f => some f
    | none => (aluOps.getD (opcode / 8) none).bind fun op => aluForm op (opcode % 8)
  else if opcode < 0x48 then some (.fixed .inc 2 [.reg (opcode % 8)])
  else if opcode < 0x50 then some (.fixed .dec 2 [.reg (opcode % 8)])
  else if opcode < 0x58 then some (.fixed .push 2 [.reg (opcode % 8)])
  else if opcode < 0x60 then some (.fixed .pop 2 [.reg (opcode % 8)])
  else if 0x90 ≤ opcode ∧ opcode < 0x98 then some (.fixed .xchg 2 [.reg 0, .reg (opcode % 8)])
  else if 0xB0 ≤ opcode ∧ opcode < 0xB8 then
    some (.fixedImm .mov 1 [.reg (opcode % 8)] .byte)
  else if 0xB8 ≤ opcode ∧ opcode < 0xC0 then
    some (.fixedImm .mov 2 [.reg (opcode % 8)] .word)
  else opcodes.lookup opcode

/-- The operation of a form, and the bytes after it. -/
def Form.read (f : Form) (bytes : List Nat) : Option (Operation × List Nat) :=
  match f with
  | .rmReg op width => do
    let (field, arg, rest) ← decodeRm bytes
    some ({ op, width, args := [arg.arg, .reg field] }, rest)
  | .regRm op width => do
    let (field, arg, rest) ← decodeRm bytes
    some ({ op, width, args := [.reg field, arg.arg] }, rest)
  | .rmSreg => do
    let (field, arg, rest) ← decodeRm bytes
    some ({ op := .mov, width := 2, args := [arg.arg, .sreg field] }, rest)
  | .sregRm => do
    let (field, arg, rest) ← decodeRm bytes
    some ({ op := .mov, width := 2, args := [.sreg field, arg.arg] }, rest)
  | .fixed op width args => some ({ op, width, args }, bytes)
  | .fixedImm op width args kind => do
    let (n, rest) ← kind.read bytes
    some ({ op, width, args := args ++ [.imm n] }, rest)
  | .rm ops width args => do
    let (field, arg, rest) ← decodeRm bytes
    let op ← ops.getD field none
    some ({ op, width, args := arg.arg :: args }, rest)
  | .rmImm ops width kind => do
    let (field, arg, rest) ← decodeRm bytes
    let op ← ops.getD field none
    let (n, rest) ← kind.read rest
    some ({ op, width, args := [arg.arg, .imm n] }, rest)
  | .unary width => do
    let (field, arg, rest) ← decodeRm bytes
    if field = 0 then
      let (n, rest) ← (ImmKind.ofWidth width).read rest
      some ({ op := .test, width, args := [arg.arg, .imm n] }, rest)
    else if field = 5 then some ({ op := .imul, width, args := [arg.arg] }, rest)
    else none
  | .regRmImm kind => do
    let (field, arg, rest) ← decodeRm bytes
    let (n, rest) ← kind.read rest
    some ({ op := .imul, width := 2, args := [.reg field, arg.arg, .imm n] }, rest)

/-- **The operation at the start of some bytes**, and the bytes after it. -/
def decode : List Nat → Option (Operation × List Nat)
  | [] => none
  | opcode :: rest => (form opcode).bind fun f => f.read rest

/-! ## The text -/

def opTable : List (String × Op) :=
  [ ("add", .add), ("or", .or), ("adc", .adc), ("sbb", .sbb), ("and", .and), ("sub", .sub),
    ("xor", .xor), ("cmp", .cmp), ("rol", .rol), ("ror", .ror), ("rcl", .rcl), ("rcr", .rcr),
    ("shl", .shl), ("sal", .shl), ("shr", .shr), ("sar", .sar), ("mov", .mov), ("xchg", .xchg),
    ("test", .test), ("imul", .imul), ("inc", .inc), ("dec", .dec), ("push", .push),
    ("pop", .pop) ]

/-- One operand, or two with a comma between them. -/
def readOne : Parse (List Operand) := do
  let op ← parseOperand
  pure [op]

def readTwo : Parse (List Operand) := do
  let dst ← parseOperand
  expect .comma
  let src ← parseOperand
  pure [dst, src]

/-- One operand, and a second and a third one if a comma comes next. -/
def readUpToThree : Parse (List Operand) := do
  let dst ← parseOperand
  let save ← Parse.getState
  let t ← nextTokenRaw
  if t.type = .comma then
    let src ← parseOperand
    let save2 ← Parse.getState
    let t2 ← nextTokenRaw
    if t2.type = .comma then
      let imm ← parseOperand
      pure [dst, src, imm]
    else
      Parse.restorePtr save2
      pure [dst, src]
  else
    Parse.restorePtr save
    pure [dst]

namespace Op

def isShift (op : Op) : Bool := [Op.rol, .ror, .rcl, .rcr, .shl, .shr, .sar].contains op

/-- The operands as they stand in the text. -/
def operands (op : Op) : Parse (List Operand) :=
  match op with
  | .inc | .dec | .push | .pop => readOne
  | .imul => readUpToThree
  | _ => readTwo

end Op

/-- An operand of an operation with a width, which is that of the registers. -/
def Operand.arg (w : Nat) (op : Operand) : Option Arg :=
  match op.type with
  | .reg => if op.size = w then some (.reg op.reg) else none
  | .sreg => if w = 2 then some (.sreg op.reg) else none
  | .mem => some (.mem op.memRef)
  | .imm => some (.imm (op.imm % (if w = 2 then 65536 else 256)).toNat)
  | .none => none

/-- `CL` as a count. -/
def Operand.countArg (w : Nat) (op : Operand) : Option Arg :=
  if op.isCl then some (.reg 1) else if op.isImm then op.arg w else none

namespace Op

/-- The operands of the operation. `IMUL` of two operands multiplies its first one. -/
def args (op : Op) (w : Nat) (operands : List Operand) : Option (List Arg) :=
  match operands with
  | [dst] => do
    let a ← dst.arg w
    some [a]
  | [dst, src] => do
    let a ← dst.arg w
    let b ← if op.isShift then src.countArg w else src.arg w
    if op = .imul then some [a, a, b] else some [a, b]
  | [dst, src, imm] => do
    let a ← dst.arg w
    let b ← src.arg w
    let c ← imm.arg w
    some [a, b, c]
  | _ => none

/-- The operands that the width is taken from. The count of a shift is not one of them. -/
def sizing (op : Op) (operands : List Operand) : List Operand :=
  if op.isShift then operands.take 1 else operands

/-- Without a register, the width is that of a memory operand with a size of its own. -/
def sized (op : Op) (w : Nat) (operands : List Operand) : Bool :=
  ((op.sizing operands).any fun o => o.isReg || o.isSreg) ||
    (op.sizing operands).all fun o => !o.isMem || o.size == 0 || o.size == w

/-- **The text asks for an operation.** `XCHG` does not distinguish its operands. -/
def Means (op : Op) (operands : List Operand) (o : Operation) : Prop :=
  o.op = op ∧ op.sized o.width operands = true ∧ ∃ as, op.args o.width operands = some as ∧
    (o.args = as ∨ op = .xchg ∧ o.args = as.reverse)

end Op

/-- **The bytes are read as what the text asks for**, whatever follows. -/
def Faithful (op : Op) (operands : List Operand) (bytes : List Nat) : Prop :=
  ∃ o, op.Means operands o ∧ ∀ rest, decode (bytes ++ rest) = some (o, rest)

/-! ## The condition -/

/-- Operands that are encoded as they stand. -/
def Encodable (op : Op) (operands : List Operand) : Bool :=
  match op, operands with
  | .mov, _ => true
  | .inc, _ => true
  | .dec, _ => true
  -- a byte in memory is pushed as a word, and `POP CS` is a prefix
  | .push, [o] => !(o.isMem && o.size == 1)
  | .pop, [o] => !(o.isMem && o.size == 1) && !(o.isSreg && o.reg == 1)
  | .imul, [_] => true
  -- the kinds of these operands are not looked at
  | .imul, [dst, src] => dst.isReg && dst.size == 2 && src.isImm
  | .imul, [dst, src, imm] =>
    dst.isReg && dst.size == 2 && src.isReg && src.size == 2 && imm.isImm
  -- the second register, or the memory operand, may have another width
  | .xchg, [dst, src] => (dst.isReg && src.isReg && dst.size == src.size) ||
    (dst.isReg && src.isMem && (src.size != 2 || dst.size == 2)) ||
    (dst.isMem && src.isReg && (dst.size != 2 || src.size == 2))
  -- the width is that of the first operand
  | .test, [dst, src] => !src.isReg || dst.w == src.w
  | op, [dst, src] =>
    if op.isShift then !src.isImm || dst.w == 0 || src.imm % 65536 < 256
    else !(dst.isReg && src.isReg) || dst.size == src.size
  | _, _ => false

end Nib.Asm
