import Nib.Asm.Lexer
import Nib.Asm.Symbols

/-!
# Operand parser

The parser state is the rest of the line with at most one token of lookahead. Control flow
depends on the text of the line only; the symbol table supplies values.

* `parsePrimary`, `parseExpr` — expressions, evaluated from left to right
* `parseOperand` — registers, memory operands, immediates and labels

A recursion that the source bounds by the text is bounded by fuel here, and `hung` records that
the fuel ran out. The loop over the components of a memory operand does not end on a line
without the closing bracket: the end of the line is an error each time and is not consumed.
-/

namespace Nib.Asm

/-- What a line is parsed against. -/
structure Env where
  labels : List Label
  pass2 : Bool

structure ParseState where
  ptr : List Char
  peek : Option Token := none
  errors : Nat := 0
  hung : Bool := false
  deriving DecidableEq, Repr

def Parse (α : Type) : Type := Env → ParseState → α × ParseState

namespace Parse

instance : Monad Parse where
  pure a := fun _ s => (a, s)
  bind m f := fun e s => f (m e s).1 e (m e s).2

/-- `errors++`. -/
def err : Parse Unit := fun _ s => ((), { s with errors := s.errors + 1 })

def hang : Parse Unit := fun _ s => ((), { s with hung := true })

def getState : Parse ParseState := fun _ s => (s, s)

/-- Back to an earlier place of the line. Errors stay. -/
def restore (saved : ParseState) : Parse Unit := fun _ s =>
  ((), { s with ptr := saved.ptr, peek := saved.peek })

/-- Put the line pointer back. -/
def restorePtr (saved : ParseState) : Parse Unit := fun _ s => ((), { s with ptr := saved.ptr })

end Parse

open Parse

/-- `next_token` at the line pointer, past any lookahead. -/
def nextTokenRaw : Parse Token := fun _ s =>
  ((nextToken s.ptr).1,
    { s with ptr := (nextToken s.ptr).2.1, errors := s.errors + (nextToken s.ptr).2.2 })

def peekToken : Parse Token := fun e s =>
  match s.peek with
  | some t => (t, s)
  | none =>
    let (t, s') := nextTokenRaw e s
    (t, { s' with peek := some t })

def consume : Parse Token := fun e s =>
  match s.peek with
  | some t => (t, { s with peek := none })
  | none => nextTokenRaw e s

def expect (type : TokType) : Parse Unit := do
  let t ← consume
  if t.type ≠ type then err

def lookupLabel (name : List Char) : Parse Int := fun e s =>
  match findLabel e.labels name with
  | some l => (l.value, s)
  | none => (0, if e.pass2 then { s with errors := s.errors + 1 } else s)

/-- The `SEG` operator: the segment a label was defined in. -/
def lookupSegment (name : List Char) : Parse Int := fun e s =>
  match findLabel e.labels name with
  | some l => (l.segment, s)
  | none => (0, if e.pass2 then { s with errors := s.errors + 1 } else s)

/-! ## Expressions -/

mutual

def parsePrimary : Nat → Parse Int
  | 0 => do
    hang
    pure 0
  | fuel + 1 => do
    let t ← peekToken
    if t.type = .number then
      let _ ← consume
      pure t.ival
    else if t.type = .ident then
      let _ ← consume
      if isWord "seg" t.sval then
        let lt ← peekToken
        if lt.type = .ident then
          let _ ← consume
          lookupSegment lt.sval
        else lookupLabel t.sval
      else lookupLabel t.sval
    else if t.type = .lparen then
      let _ ← consume
      let val ← parseExprFuel fuel
      expect .rparen
      pure val
    else
      err
      let _ ← consume
      pure 0

def parseExprFuel : Nat → Parse Int
  | 0 => do
    hang
    pure 0
  | fuel + 1 => do
    let t ← peekToken
    if t.type = .minus then
      let _ ← consume
      let val ← parsePrimary fuel
      parseExprLoop fuel (toInt32 (-val))
    else if t.type = .plus then
      let _ ← consume
      let val ← parsePrimary fuel
      parseExprLoop fuel val
    else
      let val ← parsePrimary fuel
      parseExprLoop fuel val

def parseExprLoop : Nat → Int → Parse Int
  | 0, val => do
    hang
    pure val
  | fuel + 1, val => do
    let t ← peekToken
    if t.type = .plus then
      let _ ← consume
      let rhs ← parsePrimary fuel
      parseExprLoop fuel (toInt32 (val + rhs))
    else if t.type = .minus then
      let _ ← consume
      let rhs ← parsePrimary fuel
      parseExprLoop fuel (toInt32 (val - rhs))
    else if t.type = .star then
      let _ ← consume
      let rhs ← parsePrimary fuel
      parseExprLoop fuel (toInt32 (val * rhs))
    else pure val

end

/-- Enough for every expression in the rest of the line. -/
def exprFuel (s : ParseState) : Nat := 2 * s.ptr.length + 6

def parseExpr : Parse Int := do
  let s ← getState
  parseExprFuel (exprFuel s)

/-! ## Registers -/

inductive RegSize
  | byte | word | segment
  deriving DecidableEq, Repr

structure RegInfo where
  name : String
  id : Nat
  size : RegSize
  deriving DecidableEq, Repr

def regs : List RegInfo :=
  [ ⟨"al", 0, .byte⟩, ⟨"cl", 1, .byte⟩, ⟨"dl", 2, .byte⟩, ⟨"bl", 3, .byte⟩,
    ⟨"ah", 4, .byte⟩, ⟨"ch", 5, .byte⟩, ⟨"dh", 6, .byte⟩, ⟨"bh", 7, .byte⟩,
    ⟨"ax", 0, .word⟩, ⟨"cx", 1, .word⟩, ⟨"dx", 2, .word⟩, ⟨"bx", 3, .word⟩,
    ⟨"sp", 4, .word⟩, ⟨"bp", 5, .word⟩, ⟨"si", 6, .word⟩, ⟨"di", 7, .word⟩,
    ⟨"es", 0, .segment⟩, ⟨"cs", 1, .segment⟩, ⟨"ss", 2, .segment⟩, ⟨"ds", 3, .segment⟩ ]

def findReg (name : List Char) : Option RegInfo := regs.find? fun r => isWord r.name name

def R_BX : Nat := 3
def R_BP : Nat := 5
def R_SI : Nat := 6
def R_DI : Nat := 7

/-! ## Operands -/

inductive OpType
  | none | reg | sreg | imm | mem
  deriving DecidableEq, Repr

/-- An operand. `R_NONE` is `none`; a size of 0 is inferred from the other operand. -/
structure Operand where
  type : OpType := .none
  reg : Nat := 0
  size : Nat := 0
  disp : Int := 0
  hasDisp : Bool := false
  base : Option Nat := none
  index : Option Nat := none
  segOvr : Option Nat := none
  imm : Int := 0
  label : List Char := []
  isFar : Bool := false
  deriving DecidableEq, Repr

/-- `BYTE` or `WORD`, 0 for neither. -/
def checkSizePrefix : Parse Nat := do
  let t ← peekToken
  if t.type = .ident ∧ isWord "byte" t.sval then
    let _ ← consume
    pure 1
  else if t.type = .ident ∧ isWord "word" t.sval then
    let _ ← consume
    pure 2
  else pure 0

/-- Consume a keyword if it comes next. -/
def acceptWord (w : String) : Parse Bool := do
  let t ← peekToken
  if t.type = .ident ∧ isWord w t.sval then
    let _ ← consume
    pure true
  else pure false

/-- A segment register after the bracket must be an override. -/
def parseSegOverride (op : Operand) : Parse Operand := do
  let t ← peekToken
  match if t.type = .ident then findReg t.sval else none with
  | some r =>
    if r.size = .segment then
      let saved ← getState
      let _ ← consume
      let t ← peekToken
      if t.type = .colon then
        let _ ← consume
        pure { op with segOvr := some r.id }
      else
        restore saved
        err
        pure op
    else pure op
  | none => pure op

/-- Place a word register of a memory operand. -/
def addMemReg (op : Operand) (r : Nat) : Parse Operand :=
  if r = R_BX ∨ r = R_BP then
    if op.base.isNone then pure { op with base := some r }
    else if op.index.isNone then pure { op with index := some r }
    else do
      err
      pure op
  else if r = R_SI ∨ r = R_DI then
    if op.index.isNone then pure { op with index := some r }
    else if op.base.isNone then pure { op with base := some r }
    else do
      err
      pure op
  else do
    err
    pure op

/-- The components up to the closing bracket. -/
def parseMemComponents : Nat → Bool → Operand → Parse Operand
  | 0, _, op => do
    hang
    pure op
  | fuel + 1, got, op => do
    let t ← peekToken
    if t.type = .rbrak then
      let _ ← consume
      pure op
    else if t.type = .plus ∧ got then
      let _ ← consume
      parseMemComponents fuel got op
    else if t.type = .minus ∧ got then
      let _ ← consume
      let s ← getState
      let val ← parsePrimary (exprFuel s)
      parseMemComponents fuel true { op with disp := toInt32 (op.disp - val), hasDisp := true }
    else
      match if t.type = .ident then findReg t.sval else none with
      | some r =>
        if r.size = .word then
          let _ ← consume
          let op ← addMemReg op r.id
          parseMemComponents fuel true op
        else
          let val ← parseExpr
          parseMemComponents fuel true { op with disp := toInt32 (op.disp + val), hasDisp := true }
      | none =>
        let val ← parseExpr
        parseMemComponents fuel true { op with disp := toInt32 (op.disp + val), hasDisp := true }

/-- A memory operand, after the opening bracket. -/
def parseMem (op : Operand) : Parse Operand := do
  let op ← parseSegOverride op
  let s ← getState
  let op ← parseMemComponents (s.ptr.length + 3) false op
  if op.base.isNone ∧ op.index.isNone then pure { op with hasDisp := true } else pure op

/-- A label operand, 16-bit by default. -/
def labelOperand (op : Operand) (sizePfx : Nat) (name : List Char) : Parse Operand := do
  let val ← lookupLabel name
  pure { op with
    type := .imm, imm := val, label := name.take 63, size := if sizePfx ≠ 0 then sizePfx else 2 }

/-- The `SEG` operand reads 0 for an undefined label and reports no error. -/
def segOperand (op : Operand) (sizePfx : Nat) (name : List Char) : Parse Operand := fun e s =>
  ({ op with
      type := .imm
      imm := match findLabel e.labels name with
        | some l => l.segment
        | none => 0
      size := if sizePfx ≠ 0 then sizePfx else 2 }, s)

def parseOperand : Parse Operand := do
  let sizePfx ← checkSizePrefix
  let _ ← acceptWord "ptr"
  let isFar ← acceptWord "far"
  let op : Operand := { isFar }
  let t ← peekToken
  if t.type = .lbrak then
    let _ ← consume
    parseMem { op with type := .mem, size := sizePfx }
  else
    match if t.type = .ident then findReg t.sval else none with
    | some r =>
      let _ ← consume
      match r.size with
      | .segment => pure { op with type := .sreg, reg := r.id, size := 2 }
      | .word => pure { op with type := .reg, reg := r.id, size := 2 }
      | .byte => pure { op with type := .reg, reg := r.id, size := 1 }
    | none =>
      if t.type = .number then
        let _ ← consume
        pure { op with type := .imm, imm := t.ival, size := sizePfx }
      else if t.type = .ident then
        if isWord "seg" t.sval then
          let _ ← consume
          let lt ← peekToken
          if lt.type = .ident then
            let _ ← consume
            segOperand op sizePfx lt.sval
          else
            -- the source consumes again here: the lookahead is lost
            let _ ← consume
            labelOperand op sizePfx t.sval
        else
          let _ ← consume
          labelOperand op sizePfx t.sval
      else
        err
        pure op

end Nib.Asm
