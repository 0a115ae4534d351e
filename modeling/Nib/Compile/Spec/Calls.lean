import Nib.Compile.Stmt

/-!
# Calls that agree with their callee

The header of a function has one `.param` line for each word it is passed, and two for a far
parameter. A call line has to pass these words, of these kinds, in this order.

* `CallSite` — the six kinds of calls
* `Carries` — how the vregs of a call line come from the values of the arguments
* `Agrees` — the call passes what the callee expects and takes what it returns
* `FitsArgs`, `Fits` — when it does
-/

namespace Nib.Compile

/-! ## Kinds of words -/

/-- The width of a vreg. -/
inductive IrClass
  | byte | word
  deriving DecidableEq, Repr

/-- What a `.param` line makes of a type that is not far. -/
def irClass : Ty → IrClass
  | .u8 => .byte
  | _ => .word

/-- What a word stands for. -/
inductive IrKind
  | value (cls : IrClass)
  | farOff | farSeg
  /-- A far value in one word. -/
  | farWhole
  | unknown
  deriving DecidableEq, Repr

/-- The words that a function with these parameters expects. -/
def irParams (params : List Ty) : List IrKind :=
  params.flatMap fun t => if t = .far then [.farOff, .farSeg] else [.value (irClass t)]

/-- What a vreg is recorded as. An untyped literal is a word. -/
def argClass : Option Ty → IrClass
  | none => .word
  | some t => irClass t

def wholeKind (type : Option Ty) : IrKind :=
  if type = some .far then .farWhole else .value (argClass type)

def splitKinds (type : Option Ty) : List IrKind :=
  if type = some .far then [.farOff, .farSeg] else [.unknown, .unknown]

/-- The words that are passed for values of these types, where `known` are the parameters the
compiler knows of the callee. -/
def passedKinds : List Ty → List (Option Ty) → List IrKind
  | _, [] => []
  | known, t :: ts =>
    (if known.head? = some .far then splitKinds t else [wholeKind t]) ++ passedKinds known.tail ts

/-! ## Call sites -/

inductive CallSite
  | call (name : String) (args : List Expr)
  | mcall (targets : List Expr) (name : String) (args : List Expr)
  | icall (addr : Expr) (externName moduleName : String) (args : List Expr)
  | ncall (addr : Expr) (externName : String) (args : List Expr)
  | tailcall (name : String) (args : List Expr)
  | ntailcall (addr : Expr) (externName : String) (args : List Expr)

namespace CallSite

def args : CallSite → List Expr
  | call _ args | mcall _ _ args | icall _ _ _ args | ncall _ _ args | tailcall _ args
  | ntailcall _ _ args => args

/-- The compiler on the call. -/
def emit : CallSite → EmitStmt Unit
  | call name args => do
    let _ ← EmitStmt.lift (emitExprTyped (.call (.ident name) args))
  | mcall targets name args =>
    EmitStmt.lift (emitMultiCallAssign targets (.call (.ident name) args))
  | icall addr externName moduleName args => do
    let _ ← EmitStmt.lift (emitExprTyped (.indirectCall addr externName moduleName args))
  | ncall addr externName args => do
    let _ ← EmitStmt.lift (emitExprTyped (.nearIndirectCall addr externName args))
  | tailcall name args => emitTailcall (.call (.ident name) args)
  | ntailcall addr externName args => emitTailcall (.nearIndirectCall addr externName args)

/-- What is compiled before the arguments. -/
def prepare : CallSite → Compile Unit
  | call _ _ | tailcall _ _ => pure ()
  | mcall targets name _ => do
    let c ← Compile.getState
    match findFunction c name with
    | none => pure ()
    | some fn =>
      if fn.returnTypes.length ≠ targets.length then
        cerr ("'" ++ name ++ "' returns " ++ toString fn.returnTypes.length ++
          " values, assignment has " ++ toString targets.length ++ " targets")
  | icall addr _ _ _ => do
    let _ ← emitExprTyped addr
  | ncall addr _ _ => do
    let target ← emitExprTyped addr
    if target.type = some .far then
      cerr ("near indirect call target must be u16, got " ++ typeStrOpt target.type)
  | ntailcall addr _ _ => do
    let target ← emitExprTyped addr
    if target.type = some .far then
      cerr ("near indirect tailcall target must be u16, got " ++ typeStrOpt target.type)

/-- The compiler when the arguments are reached. -/
def entry (site : CallSite) (c : Compiler) : Compiler := (site.prepare c).state

/-- What the compiler knows of the callee. -/
def sig (site : CallSite) (c : Compiler) : Option FunctionSig :=
  match site with
  | call name _ | mcall _ name _ | tailcall name _ => findFunction c name
  | icall _ externName moduleName _ =>
    (findIndirectDescriptor (site.entry c) externName moduleName).1
  | ncall _ externName _ | ntailcall _ externName _ =>
    (findIndirectDescriptor (site.entry c) externName "").1

/-- The values of the arguments. -/
def vals (site : CallSite) (c : Compiler) : List TypedVreg :=
  (emitArgs (calleeParams (site.sig c)) (emitExprs site.args) (site.entry c)).value

/-- The compiler when the arguments are there. -/
def reached (site : CallSite) (c : Compiler) : Compiler :=
  (emitArgs (calleeParams (site.sig c)) (emitExprs site.args) (site.entry c)).state

/-- The parameters by which far arguments are split. A direct tail call splits none. -/
def known (site : CallSite) (c : Compiler) : List Ty :=
  match site with
  | tailcall _ _ => []
  | _ => calleeParams (site.sig c)

/-- A call line is written: it is not a call of a builtin, and the callee of a call with several
results is known. -/
def IsCall (c : Compiler) : CallSite → Prop
  | call name args => emitEarlyBuiltin name (args.zip (emitExprs args)) = none ∧
    ∀ c dst vals, emitBuiltin c name dst vals = none
  | mcall _ name _ => (findFunction c name).isSome
  | _ => True

/-- The line is a call of this kind that passes the given vregs. -/
def IsLine (irArgs : List Int) : CallSite → Line → Prop
  | call name _, l => ∃ dst, l = .instr (.op .call ([.vreg dst, .name name] ++ vregArgs irArgs))
  | mcall targets name _, l => ∃ rets, rets.length = targets.length ∧
    l = .instr (.op .mcall (vregArgs rets ++ .name name :: vregArgs irArgs))
  | icall _ _ _ _, l => ∃ dst target name,
    l = .instr (.op .icall (.vreg dst :: target ++ .name name :: vregArgs irArgs))
  | ncall _ _ _, l => ∃ dst target name,
    l = .instr (.op .ncall ([.vreg dst, .vreg target, .name name] ++ vregArgs irArgs))
  | tailcall name _, l => l = .exit .tailcall (.name name :: vregArgs irArgs)
  | ntailcall _ _ _, l => ∃ target name,
    l = .exit .ntailcall ([.vreg target, .name name] ++ vregArgs irArgs)

/-- The types of the results that the caller takes. A tail call leaves them to its own caller. -/
def results (site : CallSite) (c : Compiler) : List (Option Ty) :=
  match site with
  | call _ _ | icall _ _ _ _ | ncall _ _ _ =>
    ((((site.sig c).map FunctionSig.returnTypes).getD []).take 1).map some
  | mcall targets _ _ => (List.range targets.length).map fun i =>
    (((site.sig c).map FunctionSig.returnTypes).getD [])[i]?
  | tailcall _ _ | ntailcall _ _ _ => c.curFnReturns.map some

end CallSite

/-! ## Agreement -/

/-- The two words of a far argument: its own segment, that of the variable it names, or what
`far.off` and `far.seg` take out of memory. -/
inductive Halves (c : Compiler) (lines : List Line) (e : Expr) (v : TypedVreg) : Int → Int → Prop
  | own (seg : Int) : v.vregSeg = some seg → Halves c lines e v v.vreg seg
  | symbol (off seg : Int) : farSymbol c e = some (off, seg) → Halves c lines e v off seg
  | memory (off seg : Int) : .instr (.op .farOff [.vreg off, .vreg v.vreg]) ∈ lines →
    .instr (.op .farSeg [.vreg seg, .vreg v.vreg]) ∈ lines → Halves c lines e v off seg

/-- The vregs of a call line, from the arguments in order. -/
inductive Carries (c : Compiler) (lines : List Line) : List Ty → List (Expr × TypedVreg) →
    List Int → Prop
  | nil (known : List Ty) : Carries c lines known [] []
  | whole {known rest e v irArgs} : known.head? ≠ some .far →
    Carries c lines known.tail rest irArgs →
      Carries c lines known ((e, v) :: rest) (v.vreg :: irArgs)
  | split {known rest e v off seg irArgs} : known.head? = some .far → Halves c lines e v off seg →
    Carries c lines known.tail rest irArgs →
      Carries c lines known ((e, v) :: rest) (off :: seg :: irArgs)

/-- The call line is there, and its vregs come from the arguments. -/
def CallSite.Written (site : CallSite) (c : FnState) : Prop :=
  ∃ irArgs, (∃ l ∈ (site.emit c).lines, site.IsLine irArgs l) ∧
    Carries (site.reached c.comp) (site.emit c).lines (site.known c.comp)
      (site.args.zip (site.vals c.comp)) irArgs

/-- The callee finds its parameters, and the caller its results. -/
structure CallSite.Agrees (site : CallSite) (c : Compiler) (params returns : List Ty) : Prop where
  params : passedKinds (site.known c) ((site.vals c).map TypedVreg.type) = irParams params
  returns : site.results c = returns.map some

/-- The counts that the compiler compares, of a callee that it knows. -/
def CallSite.Counted (c : Compiler) : CallSite → Prop
  | .call name args => ∀ fn, findFunction c name = some fn →
    fn.paramTypes.length = args.length ∧ fn.returnTypes.length ≤ 1
  | .mcall targets name args => ∀ fn, findFunction c name = some fn →
    fn.paramTypes.length = args.length ∧ fn.returnTypes.length = targets.length
  | _ => True

/-- The compiler reports an error. -/
def CallSite.Rejected (site : CallSite) (c : FnState) : Prop :=
  c.comp.errors.length < (site.emit c).state.comp.errors.length

/-! ## The condition -/

/-- A far value for a far parameter, else a value of the width of the parameter. -/
def FitsParam (a : Option Ty) (t : Ty) : Prop :=
  (a = some .far ↔ t = .far) ∧ (t ≠ .far → argClass a = irClass t)

/-- There are as many arguments as parameters, each fits its parameter, and the compiler knows which
of the parameters are far. -/
def FitsArgs : List Ty → List Ty → List (Option Ty) → Prop
  | _, [], [] => True
  | known, t :: ts, a :: as =>
    (known.head? = some .far ↔ t = .far) ∧ FitsParam a t ∧ FitsArgs known.tail ts as
  | _, _, _ => False

/-- The results of the callee are those the call is compiled for. -/
def CallSite.FitsReturns (site : CallSite) (c : Compiler) (returns : List Ty) : Prop :=
  match site with
  | .call _ _ | .icall _ _ _ _ | .ncall _ _ _ =>
    (((site.sig c).map FunctionSig.returnTypes).getD []).take 1 = returns
  | .mcall targets _ _ => targets.length = returns.length ∧ ∀ i < returns.length,
    (((site.sig c).map FunctionSig.returnTypes).getD [])[i]? = returns[i]?
  | .tailcall _ _ | .ntailcall _ _ _ => c.curFnReturns = returns

structure CallSite.Fits (site : CallSite) (c : Compiler) (params returns : List Ty) : Prop where
  args : FitsArgs (site.known c) params ((site.vals c).map TypedVreg.type)
  returns : site.FitsReturns c returns

end Nib.Compile
