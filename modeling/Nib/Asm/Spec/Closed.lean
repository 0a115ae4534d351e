import Nib.Asm.Line
import Nib.Asm.Spec.Data

/-!
# Closing brackets

* `Want.step` — a scan over the tokens of a memory operand that counts parentheses
* `closes` — the bracket of a memory operand is closed
* `ClosedLine` — every memory operand of a line is
* `LineFinishes` — the line is read to an end
-/

namespace Nib.Asm

/-! ## Inside the brackets -/

/-- What comes next, and in how many parentheses. Without `ops` no operator may follow outside of
them, as after the minus between two components. -/
inductive Want
  | component (got : Bool)
  | expr (ops : Bool) (depth : Nat)
  | value (ops : Bool) (depth : Nat)
  /-- The label after `SEG`. -/
  | label (ops : Bool) (depth : Nat)
  | operator (ops : Bool) (depth : Nat)
  deriving DecidableEq, Repr

namespace Want

/-- After a value. -/
def afterValue (ops : Bool) (depth : Nat) : Want :=
  if depth = 0 && !ops then .component true else .operator ops depth

def atValue (ops : Bool) (depth : Nat) (t : Token) : Want :=
  if t.type = .lparen then .expr ops (depth + 1)
  else if t.type = .ident && isWord "seg" t.sval then .label ops depth
  -- what is no value is taken for one
  else afterValue ops depth

def atExpr (ops : Bool) (depth : Nat) (t : Token) : Want :=
  if t.type = .minus ∨ t.type = .plus then .value ops depth else atValue ops depth t

def isWordReg (t : Token) : Bool :=
  match if t.type = .ident then findReg t.sval else none with
  | some r => r.size == .word
  | none => false

/-- Nothing comes after the closing bracket. -/
def atComponent (got : Bool) (t : Token) : Option Want :=
  if t.type = .rbrak then none
  else if t.type = .plus ∧ got then some (.component got)
  else if t.type = .minus ∧ got then some (.value false 0)
  else if isWordReg t then some (.component true)
  else some (atExpr true 0 t)

def isOperator (t : Token) : Bool := t.type = .plus || t.type = .minus || t.type = .star

def atOperator (ops : Bool) (depth : Nat) (t : Token) : Option Want :=
  if isOperator t then some (.value ops depth)
  else if depth = 0 then atComponent true t
  -- whatever it is, it is taken for the closing parenthesis
  else some (afterValue ops (depth - 1))

def atAfterValue (ops : Bool) (depth : Nat) (t : Token) : Option Want :=
  if depth = 0 && !ops then atComponent true t else atOperator ops depth t

def step (w : Want) (t : Token) : Option Want :=
  match w with
  | .component got => atComponent got t
  | .expr ops depth => some (atExpr ops depth t)
  | .value ops depth => some (atValue ops depth t)
  | .label ops depth =>
    if t.type = .ident then some (afterValue ops depth) else atAfterValue ops depth t
  | .operator ops depth => atOperator ops depth t

end Want

/-- The tokens after the closing bracket, `none` without one. -/
def closes (w : Want) : List Token → Option (List Token)
  | [] => none
  | t :: ts =>
    match w.step t with
    | some w => closes w ts
    | none => some ts

/-! ## Operands -/

/-- The token that is read next. -/
def nextOf (ts : List Token) : Token := ts.headD { type := .eol }

def skipIf (p : Token → Bool) (ts : List Token) : List Token :=
  if p (nextOf ts) then ts.tail else ts

def isKeyword (w : String) (t : Token) : Bool := t.type = .ident && isWord w t.sval

def isSegReg (t : Token) : Bool :=
  match if t.type = .ident then findReg t.sval else none with
  | some r => r.size == .segment
  | none => false

/-- A segment override. -/
def skipOverride (ts : List Token) : List Token :=
  if isSegReg (nextOf ts) && (nextOf ts.tail).type = .colon then ts.tail.tail else ts

/-- An operand after its size, `PTR` and `FAR`. -/
def operandStart (ts : List Token) : List Token :=
  let ts := skipIf (fun t => isKeyword "byte" t || isKeyword "word" t) ts
  skipIf (isKeyword "far") (skipIf (isKeyword "ptr") ts)

/-- Other tokens are no operand, and are not passed over. -/
def startsOperand (t : Token) : Bool := t.type = .lbrak || t.type = .number || t.type = .ident

/-- The tokens after an operand, `none` if it is a memory operand that is not closed. -/
def skipOperand (ts : List Token) : Option (List Token) :=
  let ts := operandStart ts
  let t := nextOf ts
  if t.type = .lbrak then closes (.component false) (skipOverride ts.tail)
  else if t.type = .ident && (findReg t.sval).isNone && isWord "seg" t.sval then some ts.tail.tail
  else if startsOperand t then some ts.tail
  else some ts

/-- Two operands and the token between them. -/
def skipTwo (ts : List Token) : Option (List Token) :=
  (skipOperand ts).bind fun ts => skipOperand ts.tail

/-- More operands, each after a comma. The comma is looked for behind what is no operand. -/
def skipMore (n : Nat) (ts : List Token) : Option (List Token) :=
  match n with
  | 0 => skipOperand ts
  | n + 1 =>
    if startsOperand (nextOf (operandStart ts)) then
      (skipOperand ts).bind fun ts =>
        if (nextOf ts).type = .comma then skipMore n ts.tail else some ts
    else some (operandStart ts)

/-! ## Statements -/

/-- The operands that an instruction reads. -/
inductive Operands
  | none | one | two | imul | ret | bext
  deriving DecidableEq, Repr

def ofTable {α : Type} (table : List (String × α)) (mnemonic : List Char)
    (ops otherwise : Operands) : Operands :=
  match lookupWord table mnemonic with
  | some _ => ops
  | Option.none => otherwise

def ofWord (w : String) (mnemonic : List Char) (ops otherwise : Operands) : Operands :=
  if isWord w mnemonic then ops else otherwise

def operandsOf (m : List Char) : Operands :=
  ofTable simpleTable m .none <|
  ofTable adjustTable m .none <|
  ofTable aluTable m .two <|
  ofTable shiftTable m .two <|
  ofWord "mov" m .two <|
  ofWord "xchg" m .two <|
  ofWord "test" m .two <|
  ofWord "lea" m .two <|
  ofTable loadMemTable m .two <|
  ofTable incDecTable m .one <|
  ofTable group3Table m .one <|
  ofWord "imul" m .imul <|
  ofWord "push" m .one <|
  ofWord "pop" m .one <|
  ofWord "jmp" m .one <|
  ofWord "call" m .one <|
  ofTable jccTable m .one <|
  ofTable loopTable m .one <|
  ofWord "ret" m .ret <|
  ofWord "retf" m .ret <|
  ofWord "int" m .one <|
  ofWord "in" m .two <|
  ofWord "out" m .two <|
  ofWord "enter" m .two <|
  ofTable bitopTable m .two <|
  ofTable v20SimpleTable m .none <|
  ofWord "bext" m .bext <|
  ofWord "bins" m .bext <|
  ofWord "brkem" m .one <|
  .none

/-- The operands that come are closed. -/
def closesOperands (ts : List Token) : Operands → Bool
  | .none => true
  | .one => (skipOperand ts).isSome
  | .two => (skipTwo ts).isSome
  | .imul => (skipMore 2 ts).isSome
  | .ret =>
    if (nextOf ts).type = .number ∨ (nextOf ts).type = .ident then (skipOperand ts).isSome else true
  | .bext =>
    if (nextOf ts).type = .eol then true
    else
      ((skipOperand ts).bind fun ts =>
        if (nextOf ts).type = .comma then skipOperand ts.tail else some ts).isSome

/-- An instruction from its mnemonic on, which may be a prefix. -/
def closesInstr : List Token → Bool
  | [] => true
  | t :: ts =>
    match lookupWord prefixTable t.sval with
    | some _ => if (nextOf ts).type = .ident then closesInstr ts else true
    | Option.none => closesOperands ts (operandsOf t.sval)

/-- A line after its label. -/
def closesStatement (ts : List Token) : Bool :=
  let t := nextOf ts
  if t.type ≠ .ident then true
  else if isWord "org" t.sval then (skipOperand ts.tail).isSome
  else if isWord "endorg" t.sval || isWord "db" t.sval || isWord "dw" t.sval then true
  else if isWord "seg" t.sval then (skipOperand ts.tail).isSome
  else closesInstr ts

/-- Every memory operand that the line opens is closed: some `]` stands where a component may begin,
not where a value is missing nor inside of parentheses. -/
def ClosedLine (text : List Char) : Prop := closesStatement (tokens (splitLine text).2) = true

instance (text : List Char) : Decidable (ClosedLine text) :=
  inferInstanceAs (Decidable (closesStatement (tokens (splitLine text).2) = true))

/-! ## The line -/

/-- No loop over the line runs out of what bounds it. -/
def LineFinishes (env : Env) (text : List Char) : Prop :=
  (∀ name expr, (splitLine text).1 = .equ name expr →
    (parseExpr env { ptr := expr }).2.hung = false) ∧
    (parseStatement env { ptr := (splitLine text).2 }).2.hung = false

end Nib.Asm
