import Nib.Asm.Instr

/-!
# Lines and passes

`process_line` takes the assembler from one state to the next, and `main` runs it over all
lines: pass 1 once, again while a branch was relaxed (at most four times more), then pass 2.
The map file, the debug file and the output formats have no counterpart.
-/

namespace Nib.Asm

def maxOutput : Int := 1048576

/-- A saved position of `org`. -/
structure OrgState where
  orgBase : Int
  outPos : Int
  segBase : Int
  deriving DecidableEq, Repr

/-- The state of a run. `output` lists the bytes written in pass 2, last first. `stopped` is
set by a fatal error and by a line that is never finished. -/
structure AsmState where
  labels : List Label := []
  outPos : Int := 0
  orgBase : Int := 0
  segBase : Int := 0
  orgStack : List OrgState := []
  pass2 : Bool := false
  errors : Nat := 0
  relaxed : List Nat := []
  jccRelaxed : Bool := false
  output : List (Int × Nat) := []
  stopped : Bool := false
  deriving DecidableEq, Repr

namespace AsmState

/-- `org_base + out_pos`. -/
def pos (s : AsmState) : Int := s.orgBase + s.outPos

def env (s : AsmState) : Env := { labels := s.labels, pass2 := s.pass2 }

def addErrors (s : AsmState) (n : Nat) : AsmState := { s with errors := s.errors + n }

/-- Emit one byte; only pass 2 writes it. -/
def emitByte (s : AsmState) (b : Nat) : AsmState :=
  if s.stopped then s
  else if s.pass2 && decide (s.pos ≥ maxOutput) then { s with stopped := true }
  else
    { s with
      output := if s.pass2 then (s.pos, b) :: s.output else s.output
      outPos := s.outPos + 1 }

def emitBytes (s : AsmState) (bs : List Nat) : AsmState := bs.foldl emitByte s

/-- Define a label. In the first run of pass 1 a second definition is an error, as long as no
line was relaxed. -/
def addLabelTyped (s : AsmState) (name : List Char) (value : Int) (ltype : LabelType) : AsmState :=
  if (findLabel s.labels name).isSome && !s.pass2 && s.relaxed.isEmpty then s.addErrors 1
  else { s with labels := setLabel s.labels name value ltype s.segBase }

def markRelaxedLine (s : AsmState) (line : Nat) : AsmState :=
  if s.relaxed.contains line then s
  else { s with relaxed := s.relaxed ++ [line], jccRelaxed := true }

/-- The site of the next byte. -/
def site (s : AsmState) (line : Nat) : Site :=
  { pos := s.pos, relaxed := s.relaxed.contains line, labels := s.labels }

end AsmState

/-! ## Directives -/

/-- One item of a `db` list. A string is emitted up to its first NUL. -/
def parseDbItem : Parse (Option (List Nat)) := do
  let t ← peekToken
  if t.type = .string then
    let _ ← consume
    pure (some ((t.sval.takeWhile (· ≠ '\x00')).map fun c => c.toNat % 256))
  else if t.type = .number ∨ t.type = .ident ∨ t.type = .minus then
    let val ← parseExpr
    pure (some [toByte val])
  else pure none

/-- The bytes of a `db` list. -/
def parseDb : Nat → Parse (List Nat)
  | 0 => do
    Parse.hang
    pure []
  | fuel + 1 => do
    let bytes ← parseDbItem
    match bytes with
    | none => pure []
    | some bs =>
      let t ← peekToken
      if t.type = .comma then
        let _ ← consume
        let rest ← parseDb fuel
        pure (bs ++ rest)
      else pure bs

def parseDw : Nat → Parse (List Nat)
  | 0 => do
    Parse.hang
    pure []
  | fuel + 1 => do
    let t ← peekToken
    if t.type = .number ∨ t.type = .ident ∨ t.type = .minus then
      let val ← parseExpr
      let t ← peekToken
      if t.type = .comma then
        let _ ← consume
        let rest ← parseDw fuel
        pure ((emit16 val).bytes ++ rest)
      else pure (emit16 val).bytes
    else pure []

/-- What a line does after its label. -/
inductive Statement
  | empty
  | notInstr
  | org (op : Operand)
  | endorg
  | data (bytes : List Nat)
  | seg (op : Operand)
  | instr (i : Instr)
  deriving DecidableEq, Repr

def parseStatement : Parse Statement := do
  let t ← peekToken
  if t.type = .eol then pure .empty
  else
    let _ ← consume
    let s ← Parse.getState
    let fuel := s.ptr.length + 1
    if t.type ≠ .ident then
      Parse.err
      pure .notInstr
    else if isWord "org" t.sval then
      let op ← parseOperand
      pure (.org op)
    else if isWord "endorg" t.sval then pure .endorg
    else if isWord "db" t.sval then
      let bytes ← parseDb fuel
      pure (.data bytes)
    else if isWord "dw" t.sval then
      let bytes ← parseDw fuel
      pure (.data bytes)
    else if isWord "seg" t.sval then
      let op ← parseOperand
      pure (.seg op)
    else
      let i ← parseInstr fuel t.sval
      pure (.instr i)

/-! ## One line -/

/-- `w` in any case, and no identifier character after it. -/
def startsWithWord (w : String) (s : List Char) : Bool :=
  isWord w (s.take w.length) && match s.drop w.length with
    | [] => true
    | c :: _ => !c.isAlphanum && c != '_'

/-- A label at the start of the line: its name and the text after it. `EQU`, `DB` and `DW`
need no colon. -/
def scanLabel (line : List Char) : Option (List Char × List Char) :=
  match skipWs line with
  | [] => none
  | c :: text =>
    let p := c :: text
    if !isIdentStart c then none
    else
      let name := p.takeWhile isIdentChar
      if name.length ≥ 64 then none
      else
        match skipWs (p.dropWhile isIdentChar) with
        | ':' :: rest => some (name, rest)
        | rest =>
          if startsWithWord "equ" rest || startsWithWord "db" rest || startsWithWord "dw" rest then
            some (name, rest)
          else none

/-- What the label of a line defines. -/
inductive LabelDef
  | none
  | equ (name : List Char) (expr : List Char)
  | pos (name : List Char) (ltype : LabelType)
  deriving DecidableEq, Repr

/-- The label of a line and the text of its statement. A comment with debug information and an
`EQU` line have no statement. -/
def splitLine (line : List Char) : LabelDef × List Char :=
  if (skipWs line).take 3 = "; @".toList then (.none, [])
  else
    match scanLabel line with
    | Option.none => (.none, line)
    | some (name, rest) =>
      let p := skipWs rest
      if startsWithWord "equ" p then (.equ name (p.drop 3), [])
      else if startsWithWord "db" p || startsWithWord "dw" p then (.pos name .data, rest)
      else (.pos name .code, rest)

namespace AsmState

/-- The errors of a parse, and a parse that is never finished. -/
def afterParse (s : AsmState) (p : ParseState) : AsmState :=
  { s with errors := s.errors + p.errors, stopped := s.stopped || p.hung }

def defineLabel (s : AsmState) (d : LabelDef) : AsmState :=
  match d with
  | .none => s
  | .equ name expr =>
    let (val, p) := parseExpr s.env { ptr := expr }
    (s.afterParse p).addLabelTyped name val .equ
  | .pos name ltype => s.addLabelTyped name s.pos ltype

def execStatement (s : AsmState) (line : Nat) : Statement → AsmState
  | .empty => s
  | .notInstr => s
  | .org op =>
    { s with
      orgStack := { orgBase := s.orgBase, outPos := s.outPos, segBase := s.segBase } :: s.orgStack
      orgBase := op.imm
      outPos := 0 }
  | .endorg =>
    match s.orgStack with
    | [] => s
    | st :: rest =>
      { s with
        orgStack := rest, orgBase := st.orgBase, outPos := st.outPos, segBase := st.segBase }
  | .data bytes => s.emitBytes bytes
  | .seg op => { s with segBase := op.imm }
  | .instr i =>
    let enc := encode (s.site line) i
    let s := if enc.relax then s.markRelaxedLine line else s
    (s.addErrors enc.errors).emitBytes enc.bytes

def processLine (s : AsmState) (line : Nat) (text : List Char) : AsmState :=
  if s.stopped then s
  else
    let (labelDef, rest) := splitLine text
    let s := s.defineLabel labelDef
    if s.stopped then s
    else
      let (stmt, p) := parseStatement s.env { ptr := rest }
      let s := s.afterParse p
      if s.stopped then s else s.execStatement line stmt

/-- All lines in order, numbered from `line`. -/
def processLines (s : AsmState) (line : Nat) : List (List Char) → AsmState
  | [] => s
  | text :: rest => (s.processLine line text).processLines (line + 1) rest

/-- The state in which a run of pass 1 starts. Labels and relaxed lines are kept. -/
def startPass1 (s : AsmState) : AsmState :=
  { s with
    outPos := 0, orgBase := 0, segBase := 0, orgStack := [], pass2 := false, errors := 0
    jccRelaxed := false }

/-- The state in which pass 2 starts. Errors are kept as well. -/
def startPass2 (s : AsmState) : AsmState :=
  { s with outPos := 0, orgBase := 0, segBase := 0, orgStack := [], pass2 := true }

end AsmState

/-- One run of pass 1. -/
def runPass1 (lines : List (List Char)) (s : AsmState) : AsmState :=
  s.startPass1.processLines 1 lines

/-- The state before the last run of pass 1: pass 1 is repeated while it relaxes a line, at
most `n` times after the first run. -/
def beforeLastPass1 (lines : List (List Char)) : Nat → AsmState → AsmState
  | 0, s => s
  | n + 1, s =>
    let s' := runPass1 lines s
    if s'.jccRelaxed then beforeLastPass1 lines n s' else s

/-- The state in which the last run of pass 1 starts. -/
def lastPass1Start (lines : List (List Char)) : AsmState :=
  (beforeLastPass1 lines 4 {}).startPass1

def afterPass1 (lines : List (List Char)) : AsmState := (lastPass1Start lines).processLines 1 lines

/-- The state at the end of a run. -/
def assemble (lines : List (List Char)) : AsmState :=
  (afterPass1 lines).startPass2.processLines 1 lines

/-- The run ends, and without an error. -/
def Assembles (lines : List (List Char)) : Prop :=
  (assemble lines).stopped = false ∧ (assemble lines).errors = 0

end Nib.Asm
