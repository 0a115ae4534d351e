import Nib.Compile.Spec.Lines

/-!
# Running a statement tree

The structured meaning of a function body. A `Tree` is a statement whose parts without control
flow have been replaced by the lines printed for them; `outline` computes it from the statement.
`srcStep` runs the tree with a stack of the blocks and loops it is in.

* `if` and `while` evaluate their condition once for every test
* `for` loads the counter, runs the body, decrements and tests the counter
* `break` leaves the innermost loop, `continue` goes to its next test
* a case of a flag check is entered if its condition holds
-/

namespace Nib.Compile

open Nib.Infra

inductive Tree
  | code (lines : List Instr)
  | exit (e : Exit) (args : List Arg)
  | label (name : String)
  | goto (name : String)
  | brk
  | cont
  | ite (cond : List Instr) (v : Int) (lblElse lblEnd : Nat) (thenBody : List Tree)
      (elseBody : Option (List Tree))
  | while (cond : List Instr) (v : Int) (lblTop lblEnd : Nat) (body : List Tree)
  | for (start : List Instr) (cx : Int) (lblTop lblEnd : Nat) (body : List Tree)
  | check (condition : FlagExpr) (skip : Nat) (body : List Tree)
  /-- Checks for which no line is printed. -/
  | dropped (conditions : List FlagExpr)

/-! ## From statements to trees -/

/-- A value, the trees of the statements so far, and the state of the compiler. -/
structure Outlined (α : Type) where
  value : α
  trees : List Tree
  state : FnState

def Outline (α : Type) : Type := FnState → Outlined α

namespace Outline

instance : Monad Outline where
  pure a := fun s => ⟨a, [], s⟩
  bind m f := fun s =>
    let r := m s
    let r' := f r.value r.state
    ⟨r'.value, r.trees ++ r'.trees, r'.state⟩

def tree (t : Tree) : Outline Unit := fun s => ⟨(), [t], s⟩

/-- A statement without control flow: a tree of its own. -/
def code {α : Type} (m : Compile α) : Outline α := fun s =>
  let r := m s.comp
  ⟨r.value, [.code r.lines], { s with comp := r.state }⟩

/-- The lines of a part of a statement. -/
def part {α : Type} (m : Compile α) : Outline (α × List Instr) := fun s =>
  let r := m s.comp
  ⟨(r.value, r.lines), [], { s with comp := r.state }⟩

/-- The trees of a block of a statement. -/
def block (m : Outline Unit) : Outline (List Tree) := fun s =>
  let r := m s
  ⟨r.trees, [], r.state⟩

def modifyComp (f : Compiler → Compiler) : Outline Unit := fun s =>
  ⟨(), [], { s with comp := f s.comp }⟩

def allocLabel : Outline Nat := fun s =>
  ⟨s.nextLabel, [], { s with nextLabel := s.nextLabel + 1 }⟩

def getFnState : Outline FnState := fun s => ⟨s, [], s⟩

def inLoop (breakLabel continueLabel : Nat) (m : Outline Unit) : Outline Unit := fun s =>
  let r := m { s with
    loopDepth := s.loopDepth + 1
    loopBreakLabel := breakLabel
    loopContinueLabel := continueLabel }
  ⟨(), r.trees, { r.state with
    loopDepth := s.loopDepth
    loopBreakLabel := s.loopBreakLabel
    loopContinueLabel := s.loopContinueLabel }⟩

def inScope (m : Outline Unit) : Outline Unit := do
  modifyComp pushScope
  m
  modifyComp popScope

end Outline

open Outline

/-- The labels a flag test takes beside the one that skips the case. -/
def allocTestLabels (condition : FlagExpr) : Outline Unit :=
  match condition with
  | .or _ _ => do
    let _ ← allocLabel
    pure ()
  | .xor _ _ => do
    let _ ← allocLabel
    let _ ← allocLabel
    pure ()
  | _ => pure ()

/-- The lines of a trap. -/
def trapLines (condition : FlagExpr) : Compile Unit :=
  if condition = .flag .of then emitOp .into [] else emitOp .int [.imm 4]

def outlineTailcall (e : Expr) : Outline Unit := do
  let s ← getFnState
  let c := s.comp
  match e with
  | .call func args =>
    let fnName := calleeName func
    let vals ← code (emitArgs (calleeParams (findFunction c fnName)) (emitExprs args))
    tree (.exit .tailcall (.name fnName :: vregArgs (vals.map TypedVreg.vreg)))
  | .nearIndirectCall addr externName args =>
    let (vals, descriptor) ← code do
      let target ← emitExprTyped addr
      if target.type = some .far then
        cerr ("near indirect tailcall target must be u16, got " ++ typeStrOpt target.type)
      let c ← Compile.getState
      let (fi, descriptorName) := findIndirectDescriptor c externName ""
      let vals ← emitArgs (calleeParams fi) (emitExprs args)
      let irArgs ← splitFarArgs (calleeParams fi) (args.zip vals)
      pure (irArgs, ([Arg.vreg target.vreg, .name descriptorName] : List Arg))
    tree (.exit .ntailcall (descriptor ++ vregArgs vals))
  | _ => code (cerr "tailcall requires a function call")

def outlineGoto (label : String) : Outline Unit := do
  let s ← getFnState
  if (findFunction s.comp label).isSome then tree (.exit .gotoFn [.name label])
  else tree (.goto label)

/-- A `break` or `continue`; outside of a loop it is an error. -/
def outlineLoopJump (what : String) (t : Tree) : Outline Unit := do
  let s ← getFnState
  if s.loopDepth = 0 then code (cerr (what ++ " outside loop")) else tree t

mutual

/-- The tree of a statement: its structure, and the lines of its parts. -/
def outlineStmt : Stmt → Outline Unit
  | .vardecl line type name init isConst => do
    code (emitLineNote line)
    code (emitVardecl type name init isConst)
  | .assign line targets value flagChecks => do
    code (emitLineNote line)
    let hasChecks ← code (emitAssign targets value)
    if hasChecks then outlineFlagChecks flagChecks
    else tree (.dropped (flagChecks.map FlagCase.condition))
  | .toggleAssign line target value flagChecks => do
    code (emitLineNote line)
    code (emitToggleAssign target value)
    outlineFlagChecks flagChecks
  | .expr line e => do
    code (emitLineNote line)
    let _ ← code (emitExprTyped e)
  | .ifStmt line cond thenBody elseBody => do
    code (emitLineNote line)
    let (v, condLines) ← part (emitCond "if" cond)
    let lblElse ← allocLabel
    let lblEnd ← allocLabel
    let thenTrees ← block (inScope (outlineStmts thenBody))
    if elseBody.isEmpty then tree (.ite condLines v lblElse lblEnd thenTrees none)
    else do
      let elseTrees ← block (inScope (outlineStmts elseBody))
      tree (.ite condLines v lblElse lblEnd thenTrees (some elseTrees))
  | .whileStmt line cond body => do
    code (emitLineNote line)
    let lblTop ← allocLabel
    let lblEnd ← allocLabel
    let (v, condLines) ← part (emitCond "while" cond)
    let trees ← block (inLoop lblEnd lblTop (inScope (outlineStmts body)))
    tree (.while condLines v lblTop lblEnd trees)
  | .forStmt line start stop body => do
    code (emitLineNote line)
    code (checkForEnd stop)
    let lblTop ← allocLabel
    let lblEnd ← allocLabel
    let (cx, startLines) ← part (emitForStart start)
    let trees ← block (inLoop lblEnd lblTop (inScope do
      modifyComp (addSymbol (cxSymbol cx))
      outlineStmts body))
    tree (.for startLines cx lblTop lblEnd trees)
  | .ret line exprs => do
    code (emitLineNote line)
    code (emitReturn exprs)
    tree (.exit .ret [])
  | .breakStmt line => do
    code (emitLineNote line)
    outlineLoopJump "break" .brk
  | .continueStmt line => do
    code (emitLineNote line)
    outlineLoopJump "continue" .cont
  | .goto line label => do
    code (emitLineNote line)
    outlineGoto label
  | .tailcall line e => do
    code (emitLineNote line)
    outlineTailcall e
  | .label line name => do
    code (emitLineNote line)
    tree (.label name)
  | .asm line clause body => do
    code (emitLineNote line)
    code (Compile.print (.asm clause body))

def outlineStmts : List Stmt → Outline Unit
  | [] => pure ()
  | s :: rest => do
    outlineStmt s
    outlineStmts rest

def outlineFlagChecks : List (FlagCase Stmt) → Outline Unit
  | [] => pure ()
  | c :: rest => do
    outlineFlagCase c
    outlineFlagChecks rest

def outlineFlagCase : FlagCase Stmt → Outline Unit
  | ⟨condition, none⟩ => do
    let skip ← allocLabel
    allocTestLabels condition
    let trees ← block (code (trapLines condition))
    tree (.check condition skip trees)
  | ⟨condition, some body⟩ => do
    let skip ← allocLabel
    allocTestLabels condition
    let trees ← block (inScope (outlineStmts body))
    tree (.check condition skip trees)

end

/-! ## Running a tree -/

/-- A block or a loop that is being executed, and what follows it. -/
inductive Frame
  | block (rest : List Tree)
  | while (cond : List Instr) (v : Int) (lblTop lblEnd : Nat) (body rest : List Tree)
  | for (cx : Int) (lblTop lblEnd : Nat) (body rest : List Tree)

structure SrcConfig (ρ : Type) where
  cur : List Tree
  frames : List Frame
  state : MachState ρ

/-- The truth of a condition on the flags. -/
def FlagExpr.eval (flag : Flag → Bool) : FlagExpr → Bool
  | .flag id => flag id
  | .not e => !e.eval flag
  | .or l r => l.eval flag || r.eval flag
  | .and l r => l.eval flag && r.eval flag
  | .xor l r => l.eval flag != r.eval flag

/-- What follows the innermost loop. -/
def breakOut : List Frame → Option (List Tree × List Frame)
  | [] => none
  | .block _ :: k => breakOut k
  | .while _ _ _ _ _ rest :: k => some (rest, k)
  | .for _ _ _ _ rest :: k => some (rest, k)

/-- The innermost loop. -/
def innermostLoop : List Frame → Option (Frame × List Frame)
  | [] => none
  | .block _ :: k => innermostLoop k
  | f :: k => some (f, k)

mutual

/-- Where a label of the program stands, and the blocks and loops around it. -/
def findTree (name : String) : Tree → List Tree → List Frame → Option (List Tree × List Frame)
  | .label n, rest, k => if n = name then some (.label n :: rest, k) else none
  | .ite _ _ _ _ thenBody elseBody, rest, k =>
    match findTrees name thenBody (.block rest :: k) with
    | some r => some r
    | none => findElse name elseBody (.block rest :: k)
  | .while cond v lblTop lblEnd body, rest, k =>
    findTrees name body (.while cond v lblTop lblEnd body rest :: k)
  | .for _ cx lblTop lblEnd body, rest, k =>
    findTrees name body (.for cx lblTop lblEnd body rest :: k)
  | .check _ _ body, rest, k => findTrees name body (.block rest :: k)
  | .code _, _, _ | .exit _ _, _, _ | .goto _, _, _ | .brk, _, _ | .cont, _, _ => none
  | .dropped _, _, _ => none

def findTrees (name : String) : List Tree → List Frame → Option (List Tree × List Frame)
  | [], _ => none
  | t :: rest, k =>
    match findTree name t rest k with
    | some r => some r
    | none => findTrees name rest k

def findElse (name : String) : Option (List Tree) → List Frame → Option (List Tree × List Frame)
  | none, _ => none
  | some ts, k => findTrees name ts k

end

variable {ρ : Type}

/-- Test the condition of a `while`. -/
def testWhile (exec : Exec ρ) (cond : List Instr) (v : Int) (lblTop lblEnd : Nat)
    (body rest : List Tree) (k : List Frame) (s : MachState ρ) : SrcConfig ρ × List Line :=
  let s' := execAll exec cond s
  let events := cond.map Line.instr
  if s'.vreg v = 0 then (⟨rest, k, s'⟩, events)
  else (⟨body, .while cond v lblTop lblEnd body rest :: k, s'⟩, events)

/-- Count down and test the counter of a `for`. -/
def testFor (cx : Int) (lblTop lblEnd : Nat) (body rest : List Tree) (k : List Frame)
    (s : MachState ρ) : SrcConfig ρ :=
  let s' := s.decr cx
  if s'.vreg cx = 0 then ⟨rest, k, s'⟩ else ⟨body, .for cx lblTop lblEnd body rest :: k, s'⟩

/-- The end of a block or of the body of a loop. -/
def endStep (exec : Exec ρ) : List Frame → MachState ρ → Option (SrcConfig ρ × List Line)
  | [], _ => none
  | .block rest :: k, s => some (⟨rest, k, s⟩, [])
  | .while cond v lblTop lblEnd body rest :: k, s =>
    some (testWhile exec cond v lblTop lblEnd body rest k s)
  | .for cx lblTop lblEnd body rest :: k, s => some (testFor cx lblTop lblEnd body rest k s, [])

/-- One tree, followed by `rest`. -/
def treeStep (exec : Exec ρ) (whole : List Tree) (t : Tree) (rest : List Tree) (k : List Frame)
    (s : MachState ρ) : Option (SrcConfig ρ × List Line) :=
  match t with
  | .code lines => some (⟨rest, k, execAll exec lines s⟩, lines.map .instr)
  | .exit e args => some (⟨[], [], s⟩, [.exit e args])
  | .label _ => some (⟨rest, k, s⟩, [])
  | .goto name => (findTrees name whole []).map fun r => (⟨r.1, r.2, s⟩, [])
  | .brk =>
    match breakOut k with
    | some (rest', k') => some (⟨rest', k', s⟩, [])
    | none => some (⟨rest, k, s⟩, [])
  | .cont =>
    match innermostLoop k with
    | some (f, k') => endStep exec (f :: k') s
    | none => some (⟨rest, k, s⟩, [])
  | .ite cond v _ _ thenBody elseBody =>
    let s' := execAll exec cond s
    let branch := if s'.vreg v = 0 then elseBody.getD [] else thenBody
    some (⟨branch, .block rest :: k, s'⟩, cond.map .instr)
  | .while cond v lblTop lblEnd body => some (testWhile exec cond v lblTop lblEnd body rest k s)
  | .for start cx lblTop lblEnd body =>
    some (⟨body, .for cx lblTop lblEnd body rest :: k, execAll exec start s⟩, start.map .instr)
  | .check condition _ body =>
    if condition.eval s.flag then some (⟨body, .block rest :: k, s⟩, [])
    else some (⟨rest, k, s⟩, [])
  | .dropped conditions =>
    -- the handlers of these cases were never compiled
    if conditions.any (FlagExpr.eval s.flag) then none else some (⟨rest, k, s⟩, [])

/-- One step of a function body. -/
def srcStep (exec : Exec ρ) (whole : List Tree) : System (SrcConfig ρ) Line := fun c =>
  match c.cur with
  | [] => endStep exec c.frames c.state
  | t :: rest => treeStep exec whole t rest c.frames c.state

/-! ## Where the lowering is faithful -/

/-- Whether the jump printed for an operand is taken: none is printed for an operand that is not a
single flag, and there is no answer for a flag without a jump. -/
def jumpsOn (flag : Flag → Bool) (e : FlagExpr) (set : Bool) : Option Bool :=
  match e with
  | .flag id => if hasJump id then some (flag id == set) else none
  | _ => some false

/-- Whether the jumps printed for a condition enter its case. -/
def testEnters (flag : Flag → Bool) : FlagExpr → Option Bool
  | .flag id => (jumpsOn flag (.flag id) false).map not
  | .not (.flag id) => (jumpsOn flag (.flag id) true).map not
  | .not _ => some true
  | .or l r =>
    match jumpsOn flag l true with
    | some false => jumpsOn flag r true
    | first => first
  | .and l r =>
    match jumpsOn flag l false with
    | some false => (jumpsOn flag r false).map not
    | first => first.map not
  | .xor l r =>
    match jumpsOn flag l true with
    | some false =>
      match jumpsOn flag r false with
      -- the jump leads to the place where the first flag is taken to be set
      | some false => (jumpsOn flag r true).map not
      | second => second.map not
    | some true => (jumpsOn flag r true).map not
    | none => none

/-- The next step is not a `continue` of a `for`, and not a check whose jumps decide otherwise
than its condition. -/
def isFaithful (c : SrcConfig ρ) : Bool :=
  match c.cur with
  | .cont :: _ =>
    match innermostLoop c.frames with
    | some (.for .., _) => false
    | _ => true
  | .check condition _ _ :: _ =>
    testEnters c.state.flag condition == some (condition.eval c.state.flag)
  | .dropped conditions :: _ => !conditions.any (FlagExpr.eval c.state.flag)
  | _ => true

end Nib.Compile
