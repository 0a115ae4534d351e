import Nib.Compile.Assign

/-!
# Statements

Control flow is lowered to labels and jumps. The labels `break` and `continue` jump to are part
of the state and are restored after a loop.
-/

namespace Nib.Compile

open Compile

/-- The state of the compiler inside a function body. -/
structure FnState where
  comp : Compiler := {}
  nextLabel : Nat := 0
  loopDepth : Nat := 0
  loopBreakLabel : Nat := 0
  loopContinueLabel : Nat := 0

/-- What a statement returns, the lines it prints and the state it leaves. -/
structure Printed (α : Type) where
  value : α
  lines : List Line
  state : FnState

def EmitStmt (α : Type) : Type := FnState → Printed α

namespace EmitStmt

instance : Monad EmitStmt where
  pure a := fun s => ⟨a, [], s⟩
  bind m f := fun s =>
    let r := m s
    let r' := f r.value r.state
    ⟨r'.value, r.lines ++ r'.lines, r'.state⟩

def printLine (l : Line) : EmitStmt Unit := fun s => ⟨(), [l], s⟩

/-- Emit lines that do not transfer control. -/
def lift {α : Type} (m : Compile α) : EmitStmt α := fun s =>
  let r := m s.comp
  ⟨r.value, r.lines.map .instr, { s with comp := r.state }⟩

def modifyComp (f : Compiler → Compiler) : EmitStmt Unit := fun s =>
  ⟨(), [], { s with comp := f s.comp }⟩

def allocLabel : EmitStmt Nat := fun s =>
  ⟨s.nextLabel, [], { s with nextLabel := s.nextLabel + 1 }⟩

def getFnState : EmitStmt FnState := fun s => ⟨s, [], s⟩

/-- Run the body of a loop with its labels. -/
def inLoop (breakLabel continueLabel : Nat) (m : EmitStmt Unit) : EmitStmt Unit := fun s =>
  let r := m { s with
    loopDepth := s.loopDepth + 1
    loopBreakLabel := breakLabel
    loopContinueLabel := continueLabel }
  ⟨(), r.lines, { r.state with
    loopDepth := s.loopDepth
    loopBreakLabel := s.loopBreakLabel
    loopContinueLabel := s.loopContinueLabel }⟩

/-- Run a block in a scope of its own. -/
def inScope (m : EmitStmt Unit) : EmitStmt Unit := do
  modifyComp pushScope
  m
  modifyComp popScope

end EmitStmt

open EmitStmt

def jumpTo (j : Jump) (label : Nat) : EmitStmt Unit := printLine (.jump j (.auto label))

def placeLabel (label : Nat) : EmitStmt Unit := printLine (.label (.auto label))

/-! ## Flag checks -/

/-- Jump if a single flag has a value; other operands print nothing. -/
def jumpOnFlag (e : FlagExpr) (set : Bool) (label : Nat) : EmitStmt Unit :=
  match e with
  | .flag id => jumpTo (.onFlag id set) label
  | _ => pure ()

/-- Jump to `skip` if the condition of a case is not met. -/
def emitFlagTest (condition : FlagExpr) (skip : Nat) : EmitStmt Unit :=
  match condition with
  | .flag id => jumpTo (.onFlag id false) skip
  | .not (.flag id) => jumpTo (.onFlag id true) skip
  | .not _ => pure ()
  | .or l r => do
    let enter ← allocLabel
    jumpOnFlag l true enter
    jumpOnFlag r true enter
    jumpTo .always skip
    placeLabel enter
  | .and l r => do
    jumpOnFlag l false skip
    jumpOnFlag r false skip
  | .xor l r => do
    let aSet ← allocLabel
    jumpOnFlag l true aSet
    jumpOnFlag r false skip
    jumpTo .always (skip + 1)
    placeLabel aSet
    jumpOnFlag r true skip
    let _ ← allocLabel
    pure ()

def emitTrap (condition : FlagExpr) : EmitStmt Unit :=
  if condition = .flag .of then lift (emitOp .into []) else lift (emitOp .int [.imm 4])

/-! ## Leaving the function -/

/-- The values of a `return`, each for the type of its result. -/
def emitReturnValues : List Ty → Nat → List Expr → Compile (List TypedVreg)
  | _, _, [] => pure []
  | types, i, e :: rest => do
    let val ← emitExprTypedFor e types.head?
    let c ← getState
    if types.head?.isSome && val.type.isSome && !typeAssignable c types.head? val.type &&
        val.type != some .void then
      cerr ("return type mismatch: return " ++ toString i ++ " is " ++ typeStrOpt types.head? ++
        ", got " ++ typeStrOpt val.type)
    let vals ← emitReturnValues types.tail (i + 1) rest
    pure (val :: vals)

def emitReturn (exprs : List Expr) : Compile Unit := do
  let c ← getState
  let returns := c.curFnReturns
  match exprs with
  | [] =>
    if returns.length > 0 then
      cerr ("return without value in function returning " ++ toString returns.length ++ " value" ++
        if returns.length = 1 then "" else "s")
  | _ =>
    if returns.length = 0 then cerr "return with value in void function"
    else if exprs.length ≠ returns.length then
      cerr ("function returns " ++ toString returns.length ++ " values, got " ++
        toString exprs.length)
    let vals ← emitReturnValues returns 1 exprs
    emitOp .retval (vregArgs (vals.map TypedVreg.vreg))

def emitTailcall (e : Expr) : EmitStmt Unit := do
  let s ← getFnState
  let c := s.comp
  match e with
  | .call func args =>
    let fnName := calleeName func
    let vals ← lift (emitArgs (calleeParams (findFunction c fnName)) (emitExprs args))
    printLine (.exit .tailcall (.name fnName :: vregArgs (vals.map TypedVreg.vreg)))
  | .nearIndirectCall addr externName args =>
    let (vals, descriptor) ← lift do
      let target ← emitExprTyped addr
      if target.type = some .far then
        cerr ("near indirect tailcall target must be u16, got " ++ typeStrOpt target.type)
      let c ← getState
      let (fi, descriptorName) := findIndirectDescriptor c externName ""
      let vals ← emitArgs (calleeParams fi) (emitExprs args)
      let irArgs ← splitFarArgs (calleeParams fi) (args.zip vals)
      pure (irArgs, ([Arg.vreg target.vreg, .name descriptorName] : List Arg))
    printLine (.exit .ntailcall (descriptor ++ vregArgs vals))
  | _ => lift (cerr "tailcall requires a function call")

def emitGoto (label : String) : EmitStmt Unit := do
  let s ← getFnState
  if (findFunction s.comp label).isSome then printLine (.exit .gotoFn [.name label])
  else printLine (.jump .always (.user label))

/-! ## Control flow -/

/-- The comment that names the source line, unless the last one did. -/
def emitLineNote (line : Nat) : Compile Unit := do
  let c ← getState
  if line > 0 ∧ line ≠ c.lastEmittedLine ∧ c.srcFile ≠ "" then
    print (.note (.line c.srcFile line))
    modifyState fun c => { c with lastEmittedLine := line }

/-- The condition of an `if` or a `while`. -/
def emitCond (what : String) (cond : Expr) : Compile Int := do
  let v ← emitExprTyped cond
  if v.type.isSome && v.type ≠ some .bool then
    cerr (what ++ " condition must be bool, got " ++ typeStrOpt v.type)
  pure v.vreg

/-- The counter of a `for` loop, loaded with its start. -/
def emitForStart (start : Expr) : Compile Int := do
  let cx ← allocVreg
  print (.prefer cx "CX")
  match litIntValue start with
  | some n => emitOp .mov [.vreg cx, .imm n]
  | none =>
    let v ← emitExprTyped start
    emitOp .mov [.vreg cx, .vreg v.vreg]
  pure cx

/-- The counter as a symbol of the body. -/
def cxSymbol (cx : Int) : Symbol :=
  { name := "CX", type := some .u16, vreg := cx, isPinned := true }

def checkForEnd (stop : Expr) : Compile Unit := do
  let endVal ← requireConstExpr stop "for loop end"
  if endVal ≠ 0 then cerr "for loop end must be 0 for LOOP lowering"

/-- Jump to a label of the innermost loop. -/
def emitLoopJump (what : String) (label : FnState → Nat) : EmitStmt Unit := do
  let s ← getFnState
  if s.loopDepth = 0 then lift (cerr (what ++ " outside loop"))
  else jumpTo .always (label s)

mutual

def emitStmt : Stmt → EmitStmt Unit
  | .vardecl line type name init isConst => do
    lift (emitLineNote line)
    lift (emitVardecl type name init isConst)
  | .assign line targets value flagChecks => do
    lift (emitLineNote line)
    let hasChecks ← lift (emitAssign targets value)
    if hasChecks then emitFlagChecks flagChecks else pure ()
  | .toggleAssign line target value flagChecks => do
    lift (emitLineNote line)
    lift (emitToggleAssign target value)
    emitFlagChecks flagChecks
  | .expr line e => do
    lift (emitLineNote line)
    let _ ← lift (emitExprTyped e)
  | .ifStmt line cond thenBody elseBody => do
    lift (emitLineNote line)
    let v ← lift (emitCond "if" cond)
    let lblElse ← allocLabel
    let lblEnd ← allocLabel
    jumpTo (.ifZero v) lblElse
    inScope (emitStmts thenBody)
    if elseBody.isEmpty then placeLabel lblElse
    else do
      jumpTo .always lblEnd
      placeLabel lblElse
      inScope (emitStmts elseBody)
      placeLabel lblEnd
  | .whileStmt line cond body => do
    lift (emitLineNote line)
    let lblTop ← allocLabel
    let lblEnd ← allocLabel
    placeLabel lblTop
    let v ← lift (emitCond "while" cond)
    jumpTo (.ifZero v) lblEnd
    inLoop lblEnd lblTop (inScope (emitStmts body))
    jumpTo .always lblTop
    placeLabel lblEnd
  | .forStmt line start stop body => do
    lift (emitLineNote line)
    lift (checkForEnd stop)
    let lblTop ← allocLabel
    let lblEnd ← allocLabel
    let cx ← lift (emitForStart start)
    placeLabel lblTop
    inLoop lblEnd lblTop (inScope do
      modifyComp (addSymbol (cxSymbol cx))
      emitStmts body)
    jumpTo (.loop cx) lblTop
    placeLabel lblEnd
  | .ret line exprs => do
    lift (emitLineNote line)
    lift (emitReturn exprs)
    printLine (.exit .ret [])
  | .breakStmt line => do
    lift (emitLineNote line)
    emitLoopJump "break" FnState.loopBreakLabel
  | .continueStmt line => do
    lift (emitLineNote line)
    emitLoopJump "continue" FnState.loopContinueLabel
  | .goto line label => do
    lift (emitLineNote line)
    emitGoto label
  | .tailcall line e => do
    lift (emitLineNote line)
    emitTailcall e
  | .label line name => do
    lift (emitLineNote line)
    printLine (.label (.user name))
  | .asm line clause body => do
    lift (emitLineNote line)
    lift (print (.asm clause body))

def emitStmts : List Stmt → EmitStmt Unit
  | [] => pure ()
  | s :: rest => do
    emitStmt s
    emitStmts rest

/-- The cases of a flag-check block, in order. -/
def emitFlagChecks : List (FlagCase Stmt) → EmitStmt Unit
  | [] => pure ()
  | c :: rest => do
    emitFlagCase c
    emitFlagChecks rest

def emitFlagCase : FlagCase Stmt → EmitStmt Unit
  | ⟨condition, none⟩ => do
    let skip ← allocLabel
    emitFlagTest condition skip
    emitTrap condition
    placeLabel skip
  | ⟨condition, some body⟩ => do
    let skip ← allocLabel
    emitFlagTest condition skip
    inScope (emitStmts body)
    placeLabel skip

end

end Nib.Compile
