import Nib.Asm.Parse

/-!
# Instruction encoders

An encoder returns the bytes it emits and the number of errors it reports. Only the branches
read the position of the instruction.

* `emitModrmMem` — ModR/M byte and displacement of a memory operand
* `asmAlu`, `asmMov`, … — one function for each instruction family, as in the source
* `asmJmpCall`, `asmJcc`, `asmLoop` — branches, with the request to relax the line
-/

namespace Nib.Asm

/-- `(uint8_t)x`. -/
def toByte (x : Int) : Nat := (x % 256).toNat

/-- What an encoder emits: bytes, errors, and whether it marks the line as relaxed. -/
structure Enc where
  bytes : List Nat := []
  errors : Nat := 0
  relax : Bool := false
  deriving DecidableEq, Repr

namespace Enc

def append (a b : Enc) : Enc :=
  { bytes := a.bytes ++ b.bytes, errors := a.errors + b.errors, relax := a.relax || b.relax }

instance : Append Enc := ⟨append⟩

end Enc

def emit (b : Int) : Enc := { bytes := [toByte b] }

def emit16 (w : Int) : Enc := { bytes := [toByte w, toByte (w / 256)] }

/-- `errors++` in an encoder. -/
def encErr : Enc := { errors := 1 }

/-- `imm >= -128 && imm <= 127`. -/
def fitsByte (n : Int) : Bool := decide (-128 ≤ n) && decide (n ≤ 127)

namespace Operand

def isReg (op : Operand) : Bool := op.type == .reg
def isMem (op : Operand) : Bool := op.type == .mem
def isImm (op : Operand) : Bool := op.type == .imm
def isSreg (op : Operand) : Bool := op.type == .sreg

/-- The width bit. -/
def w (op : Operand) : Nat := if op.size = 2 then 1 else 0

def isAx (op : Operand) : Bool := op.isReg && op.reg == 0 && op.size == 2

/-- `AL` where the width bit is clear. -/
def isAl (op : Operand) : Bool := op.isReg && op.reg == 0 && op.size != 2

def isCl (op : Operand) : Bool := op.isReg && op.reg == 1 && op.size == 1

/-- Neither base nor index. -/
def isDirect (op : Operand) : Bool := op.base.isNone && op.index.isNone

end Operand

/-! ## ModR/M -/

def modrmRmTable : List (Option Nat × Option Nat) :=
  [ (some R_BX, some R_SI), (some R_BX, some R_DI), (some R_BP, some R_SI), (some R_BP, some R_DI),
    (none, some R_SI), (none, some R_DI), (some R_BP, none), (some R_BX, none) ]

/-- The matching row of the table, in either operand order. -/
def findRm (base index : Option Nat) : Option Nat :=
  modrmRmTable.findIdx? fun row =>
    (row.1 == base && row.2 == index) || (row.1 == index && row.2 == base)

/-- `mod`: the number of displacement bytes. `[BP]` alone is encoded as `[BP+0]`. -/
def modField (op : Operand) (rm : Nat) : Nat :=
  let bpAlone := rm == 6 && !op.hasDisp && op.base == some R_BP && op.index.isNone
  let hasDisp := op.hasDisp || bpAlone
  let disp := if bpAlone then 0 else op.disp
  if !hasDisp || (disp == 0 && rm != 6) then 0
  else if fitsByte disp then 1
  else 2

/-- The displacement that is emitted. -/
def modrmDisp (op : Operand) (rm : Nat) : Int :=
  if rm == 6 && !op.hasDisp && op.base == some R_BP && op.index.isNone then 0 else op.disp

def modrmByte (mod regField rm : Nat) : Int := ((mod <<< 6) ||| (regField <<< 3) ||| rm : Nat)

def emitSegOverride (op : Operand) : Enc :=
  match op.segOvr with
  | some seg => emit (([0x26, 0x2E, 0x36, 0x3E].getD seg 0 : Nat))
  | none => {}

def emitModrmMem (op : Operand) (regField : Nat) : Enc :=
  if op.isDirect then emit (modrmByte 0 regField 6) ++ emit16 op.disp
  else
    match findRm op.base op.index with
    | none => encErr ++ emit 0
    | some rm =>
      let mod := modField op rm
      emit (modrmByte mod regField rm) ++
        (if mod = 1 then emit (modrmDisp op rm)
        else if mod = 2 then emit16 (modrmDisp op rm)
        else {})

/-- The register form of the ModR/M byte. -/
def emitModrmReg (regField reg : Nat) : Enc := emit (modrmByte 3 regField reg)

/-- A register or memory operand without its segment override. -/
def emitRm (op : Operand) (regField : Nat) : Enc :=
  if op.isReg then emitModrmReg regField op.reg else emitModrmMem op regField

def emitModrm (op : Operand) (regField : Nat) : Enc :=
  if op.isReg then emitModrmReg regField op.reg
  else if op.isMem then emitSegOverride op ++ emitModrmMem op regField
  else encErr

/-- The override that precedes the opcode of a memory operand. -/
def emitMemOverride (op : Operand) : Enc := if op.isMem then emitSegOverride op else {}

/-- An immediate as wide as the width bit says. -/
def emitImm (w : Nat) (imm : Int) : Enc := if w = 1 then emit16 imm else emit imm

/-! ## Instruction families -/

/-- `0x83` takes a sign-extended byte. -/
def aluShortImm (dst src : Operand) : Bool := dst.w == 1 && fitsByte src.imm

def asmAlu (aluop : Nat) (dst src : Operand) : Enc :=
  if src.isImm then
    if dst.isAx then emit (aluop * 8 + 5) ++ emit16 src.imm
    else if dst.isAl then emit (aluop * 8 + 4) ++ emit src.imm
    else if aluShortImm dst src then emit 0x83 ++ emitModrm dst aluop ++ emit src.imm
    else emit (0x80 + dst.w) ++ emitModrm dst aluop ++ emitImm dst.w src.imm
  else if dst.isReg && (src.isReg || src.isMem) then
    emitMemOverride src ++ emit (aluop * 8 + 2 + dst.w) ++ emitRm src dst.reg
  else if (dst.isReg || dst.isMem) && src.isReg then
    emitMemOverride dst ++ emit (aluop * 8 + src.w) ++ emitRm dst src.reg
  else encErr

def asmShift (op : Nat) (dst src : Operand) : Enc :=
  if src.isImm && src.imm == 1 then emit (0xD0 + dst.w) ++ emitModrm dst op
  else if src.isCl then emit (0xD2 + dst.w) ++ emitModrm dst op
  else if src.isImm then emit (0xC0 + dst.w) ++ emitModrm dst op ++ emit src.imm
  else encErr

def asmIncDec (op : Nat) (dst : Operand) : Enc :=
  if dst.isReg && dst.w == 1 then emit (0x40 + op * 8 + dst.reg)
  else emit (0xFE + dst.w) ++ emitModrm dst op

def asmPushPop (isPop : Bool) (op : Operand) : Enc :=
  if op.isReg && op.size == 2 then emit ((if isPop then 0x58 else 0x50) + op.reg)
  else if op.isSreg then emit ((if isPop then 0x07 else 0x06) + op.reg * 8)
  else if op.isMem then
    emit (if isPop then 0x8F else 0xFF) ++ emitModrm op (if isPop then 0 else 6)
  else if !isPop && op.isImm then
    if fitsByte op.imm then emit 0x6A ++ emit op.imm else emit 0x68 ++ emit16 op.imm
  else encErr

/-- A width mismatch of a register, or of a memory operand with a size of its own. -/
def widthMismatch (op : Operand) (size : Nat) : Bool :=
  (op.isReg && op.size != size) || (op.isMem && op.size != 0 && op.size != size)

def asmMov (dst src : Operand) : Enc :=
  if dst.isSreg && (src.isReg || src.isMem) then
    if (src.isReg && src.size != 2) || (src.isMem && src.size == 1) then encErr
    else emitMemOverride src ++ emit 0x8E ++ emitRm src dst.reg
  else if src.isSreg && (dst.isReg || dst.isMem) then
    if (dst.isReg && dst.size != 2) || (dst.isMem && dst.size == 1) then encErr
    else emitMemOverride dst ++ emit 0x8C ++ emitRm dst src.reg
  else if dst.isReg && src.isImm then
    emit (0xB0 + dst.w * 8 + dst.reg) ++ emitImm dst.w src.imm
  else if dst.isMem && src.isImm then
    emit (0xC6 + dst.w) ++ emitModrm dst 0 ++ emitImm dst.w src.imm
  else if dst.isReg && (src.isReg || src.isMem) then
    if widthMismatch src dst.size then encErr
    else emitMemOverride src ++ emit (0x8A + dst.w) ++ emitRm src dst.reg
  else if dst.isMem && src.isReg then
    if widthMismatch dst src.size then encErr
    else emitMemOverride dst ++ emit (0x88 + src.w) ++ emitRm dst src.reg
  else encErr

def asmXchg (dst src : Operand) : Enc :=
  if dst.isAx && src.isReg && src.size == 2 then emit (0x90 + src.reg)
  else if src.isAx && dst.isReg && dst.size == 2 then emit (0x90 + dst.reg)
  else
    emit (0x86 + if dst.size = 2 ∨ src.size = 2 then 1 else 0) ++
      (if dst.isReg && src.isReg then emitModrmReg dst.reg src.reg
      else if dst.isReg then emitModrm src dst.reg
      else emitModrm dst src.reg)

def asmTest (dst src : Operand) : Enc :=
  if src.isImm then
    if dst.isAx then emit 0xA9 ++ emit16 src.imm
    else if dst.isAl then emit 0xA8 ++ emit src.imm
    else emit (0xF6 + dst.w) ++ emitModrm dst 0 ++ emitImm dst.w src.imm
  else if src.isReg then emit (0x84 + dst.w) ++ emitModrm dst src.reg
  else encErr

def asmLea (dst src : Operand) : Enc :=
  if !dst.isReg || dst.size != 2 then encErr
  else if !src.isMem then encErr
  else emit 0x8D ++ emitModrm src dst.reg

/-- `LDS`, `LES` and `BOUND`: an opcode and a memory operand. -/
def asmLoadMem (opcode : Nat) (dst src : Operand) : Enc := emit opcode ++ emitModrm src dst.reg

/-- `NOT`, `NEG`, `MUL`, `IMUL`, `DIV` and `IDIV` with one operand. -/
def asmGroup3 (field : Nat) (dst : Operand) : Enc := emit (0xF6 + dst.w) ++ emitModrm dst field

/-- `IMUL` with an immediate. -/
def asmImulImm (reg rm : Nat) (imm : Int) : Enc :=
  if fitsByte imm then emit 0x6B ++ emitModrmReg reg rm ++ emit imm
  else emit 0x69 ++ emitModrmReg reg rm ++ emit16 imm

def asmRet (isFar : Bool) (op : Option Operand) : Enc :=
  match op with
  | some op => emit (if isFar then 0xCA else 0xC2) ++ emit16 op.imm
  | none => emit (if isFar then 0xCB else 0xC3)

def asmInt (op : Operand) : Enc :=
  if op.imm = 3 then emit 0xCC else emit 0xCD ++ emit op.imm

def asmInOut (isOut : Bool) (dst src : Operand) : Enc :=
  let port := if isOut then dst else src
  let value := if isOut then src else dst
  if port.isImm then emit ((if isOut then 0xE6 else 0xE4) + value.w) ++ emit port.imm
  else if port.isReg && port.reg == 2 then emit ((if isOut then 0xEE else 0xEC) + value.w)
  else encErr

def asmEnter (size level : Operand) : Enc := emit 0xC8 ++ emit16 size.imm ++ emit level.imm

/-! ## V20 extensions -/

def asmV20Bitop (op : Nat) (dst src : Operand) : Enc :=
  if src.isCl then emit 0x0F ++ emit (0x10 + op * 2 + dst.w) ++ emitModrm dst 0
  else if src.isImm then
    emit 0x0F ++ emit (0x18 + op * 2 + dst.w) ++ emitModrm dst 0 ++ emit src.imm
  else encErr

def isByteReg (op : Operand) : Bool := op.isReg && op.size == 1

def asmV20BextBins (isBext : Bool) (first : Operand) (second : Option Operand) : Enc :=
  match second with
  | none =>
    if isByteReg first then
      emit 0x0F ++ emit (if isBext then 0x33 else 0x31) ++ emitModrm first 0
    else encErr
  | some second =>
    if second.isImm then
      if !isByteReg first then encErr
      else if second.imm < 0 ∨ second.imm > 15 then encErr
      else
        emit 0x0F ++ emit (if isBext then 0x3B else 0x39) ++ emitModrm first 0 ++ emit second.imm
    else if isByteReg first && isByteReg second then
      emit 0x0F ++ emit (if isBext then 0x33 else 0x31) ++ emitModrmReg second.reg first.reg
    else encErr

def asmBrkem (op : Operand) : Enc := emit 0x0F ++ emit 0xFF ++ emit op.imm

/-! ## Branches -/

/-- Where a branch is assembled: the position of its first byte, whether its line is marked as
relaxed, and the symbol table. -/
structure Site where
  pos : Int
  relaxed : Bool
  labels : List Label

/-- The displacement of a two-byte branch. -/
def Site.rel (site : Site) (target : Int) : Int := target - (site.pos + 2)

/-- A `JMP` is near if its line was marked before or the target is out of short range. -/
def jmpIsNear (site : Site) (target : Int) : Bool := site.relaxed || !fitsByte (site.rel target)

def asmJmpCall (site : Site) (isCall : Bool) (op : Operand) : Enc :=
  if op.isImm || !op.label.isEmpty then
    if op.isFar then
      let seg := match findLabel site.labels op.label with
        | some l => l.segment
        | none => 0
      emit (if isCall then 0x9A else 0xEA) ++ emit16 op.imm ++ emit16 seg
    else if !isCall && !jmpIsNear site op.imm then emit 0xEB ++ emit (site.rel op.imm)
    else
      { emit (if isCall then 0xE8 else 0xE9) ++ emit16 (op.imm - (site.pos + 3)) with
        relax := !isCall && !site.relaxed }
  else if op.isReg || op.isMem then
    let regField := if isCall then (if op.isFar then 3 else 2) else if op.isFar then 5 else 4
    emitMemOverride op ++ emit 0xFF ++ emitRm op regField
  else encErr

/-- The label is in the symbol table. -/
def Site.knows (site : Site) (label : List Char) : Bool := (findLabel site.labels label).isSome

/-- A conditional jump is long if its line was marked before, or if the label is known and the
target is out of short range. -/
def jccIsLong (site : Site) (label : List Char) (target : Int) : Bool :=
  site.relaxed || (site.knows label && !fitsByte (site.rel target))

/-- `label` is the operand as it stands in the text. -/
def asmJcc (site : Site) (cc : Nat) (label : List Char) (op : Operand) : Enc :=
  if jccIsLong site label op.imm then
    let rel16 := op.imm - (site.pos + 2 + 3)
    { emit (0x70 + (cc ^^^ 1 : Nat)) ++ emit 3 ++ emit 0xE9 ++ emit16 rel16 with
      relax := !site.relaxed }
  else emit (0x70 + cc) ++ emit (site.rel op.imm)

def asmLoop (site : Site) (opcode : Nat) (op : Operand) : Enc :=
  (if fitsByte (site.rel op.imm) then {} else encErr) ++ emit opcode ++ emit (site.rel op.imm)

end Nib.Asm
