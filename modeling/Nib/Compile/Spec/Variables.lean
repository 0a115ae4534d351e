import Nib.Compile.Spec.Machine

/-!
# Writing and reading a variable

Every statement that writes a variable computes a value and stores it. `Write.prepare` is the
first part, `Write.store` the second one; they are taken apart from the definitions of the
statements.
-/

namespace Nib.Compile

open Nib.Infra Compile

/-! ## Variables and their vregs -/

/-- The vregs of a variable. A global has its place in memory. -/
def Symbol.vregs (s : Symbol) : List Int :=
  if s.isGlobal then [] else s.vreg :: s.vregSeg.toList

/-- The vregs of the variables of a function. -/
def Compiler.localVregs (c : Compiler) : List Int := c.scopes.flatten.flatMap Symbol.vregs

/-- The variables of the function have different vregs, and these have been handed out. -/
structure WellScoped (c : Compiler) : Prop where
  nodup : c.localVregs.Nodup
  fresh : ∀ v ∈ c.localVregs, v < c.nextVreg

/-- An expression that names a variable. -/
inductive VarRef
  | ident (name : String)
  | reg (id : Nat) (rclass : RegClass)
  deriving DecidableEq, Repr

namespace VarRef

def expr : VarRef → Expr
  | .ident name => .ident name
  | .reg id .word => .reg id false
  | .reg id .byte => .reg id true
  | .reg id .seg => .sreg id

def name : VarRef → String
  | .ident name => name
  | .reg id rclass => regNameStr id rclass

/-- The expression stands for the variable. A register stands for a pinned one. -/
structure Names (ref : VarRef) (c : Compiler) (sym : Symbol) : Prop where
  lookup : symLookup c ref.name = some sym
  pinned : ∀ id rclass, ref = .reg id rclass → sym.isGlobal = false ∧ sym.isStackLocal = false

end VarRef

/-- A scalar. Only far variables have a second vreg, and only arrays are initialized data. -/
structure Symbol.IsScalar (sym : Symbol) : Prop where
  type : sym.type = some .u8 ∨ sym.type = some .u16 ∨ sym.type = some .seg
  vregSeg : sym.vregSeg = none
  isInitData : sym.isInitData = false

/-- Where a variable lies in memory. -/
def Symbol.memAt (p : Placement) (sym : Symbol) : Option (BitVec 16) :=
  if sym.isGlobal then
    some (if sym.hasAt then BitVec.ofInt 16 sym.atOff else p.labelAddr sym.name)
  else if sym.isStackLocal then some (p.slotAddr sym.vreg)
  else none

/-- The bytes of a variable in memory. -/
def Symbol.occupies (p : Placement) (c : Compiler) (sym : Symbol) (b : BitVec 16) : Prop :=
  ∃ a, sym.memAt p = some a ∧
    ∃ i : Nat, (i : Int) < typeSizeOpt c sym.type ∧ b = a + BitVec.ofNat 16 i

/-- A variable is the same in two states. -/
structure Symbol.Same (p : Placement) (c : Compiler) (sym : Symbol) (s s' : IrState) : Prop where
  vregs : ∀ v ∈ sym.vregs, s'.vreg v = s.vreg v
  mem : ∀ b, sym.occupies p c b → s'.rest b = s.rest b

/-! ## Writes -/

/-- A value that is stored: a literal, or a vreg. -/
inductive Source
  | literal (n : Int)
  | value (val : TypedVreg)
  deriving DecidableEq, Repr

def Source.word (p : Placement) (s : IrState) : Source → BitVec 16
  | .literal n => BitVec.ofInt 16 n
  | .value val => p.value s val.vreg

/-- A value cut to the width of a type. -/
def truncate (type : Option Ty) (x : BitVec 16) : BitVec 16 :=
  if type = some .u8 then zeroExtend (low x) else x

/-- A statement, or one target of a statement, that writes a variable. -/
inductive Write
  | literal (ref : VarRef) (n : Int)
  | value (ref : VarRef) (e : Expr)
  | init (type : Ty) (name : DeclName) (e : Expr) (isConst : Bool)
  | result (ref : VarRef) (v : Int) (type : Option Ty)

namespace Write

/-- The name of a declaration as an expression. -/
def declRef : DeclName → VarRef
  | .var name => .ident name
  | .reg id rclass => .reg id rclass

/-- The variable that is written. -/
def ref : Write → VarRef
  | .literal ref _ | .value ref _ | .result ref _ _ => ref
  | .init _ name _ _ => declRef name

def statement : Write → Compile Unit
  | .literal ref n => do
    let _ ← emitAssign [ref.expr] (.litInt n)
  | .value ref e => do
    let _ ← emitAssign [ref.expr] e
  | .init type name e isConst => emitVardecl type name (some e) isConst
  | .result ref v type => do
    let val ← tv v type
    emitAssignSimple ref.expr val

/-- The variable of a target. -/
def targetSymbol : VarRef → Compile (Option Symbol)
  | .ident name => do
    let c ← getState
    pure (symLookup c name)
  | .reg id rclass => do
    let sym ← regTarget id rclass
    pure (some sym)

/-- A constant is not written. -/
def checkConst : VarRef → Compile Unit
  | .ident name => do
    let c ← getState
    if ((symLookup c name).map Symbol.isConst).getD false then
      cerr ("cannot reassign const variable '" ++ name ++ "'")
  | .reg _ _ => pure ()

/-- The type of the value fits the variable. -/
def checkType (ref : VarRef) (sym : Option Symbol) (valType : Option Ty) : Compile Unit :=
  match sym with
  | some sym => checkAssign ref.name sym.type valType
  | none => pure ()

def checkInit (type : Ty) (valType : Option Ty) : Compile Unit := do
  let c ← getState
  match valType with
  | some valType =>
    if !initializerFits c type valType then
      cerr ("initializer type mismatch: declared " ++ typeStr type ++ ", got " ++ typeStr valType)
  | none => pure ()

def checkResult (ref : VarRef) (sym : Option Symbol) (valType : Option Ty) : Compile Unit := do
  let c ← getState
  match sym with
  | some sym =>
    if !typeAssignable c sym.type valType then assignTypeError ref.name sym.type valType
  | none => pure ()

/-- The part of a statement that computes the value, with its checks. -/
def prepare : Write → Compile (Option Symbol × Source)
  | .literal ref n => do
    checkConst ref
    let sym ← targetSymbol ref
    pure (sym, .literal n)
  | .value ref e => do
    checkConst ref
    let c ← getState
    let val ← emitExprTypedFor e (assignTargetType c ref.expr)
    let sym ← targetSymbol ref
    checkType ref sym val.type
    pure (sym, .value val)
  | .init type name e isConst => do
    let sym ← declare type name isConst
    emitDeclDirectives sym type true
    let val ← emitInitializerExprTyped e (some type)
    let type' := inferredType type val.type
    modifyState (updateSymbol sym.vreg fun s => { s with type := some type' })
    checkInit type' val.type
    pure (some sym, .value val)
  | .result ref v type => do
    let val ← tv v type
    let sym ← targetSymbol ref
    checkResult ref sym val.type
    pure (sym, .value val)

/-- The part of a statement that stores the value. -/
def store (w : Write) (sym : Symbol) : Source → Compile Unit
  | .literal n => emitLiteralStore sym n
  | .value val =>
    match w with
    | .init type .. => emitInitStore sym (inferredType type val.type) val
    | .result (.ident _) .. =>
      if sym.isGlobal && typeIsScalar sym.type then do
        if sym.type = some .u8 && val.type.isNone then print (.vreg val.vreg .u8 .plain)
        emitGlobalStore sym val.vreg
      else emitOp .mov [.vreg sym.vreg, .vreg val.vreg]
    | .value (.ident _) _ => emitValueStore sym val
    | _ => emitOp .mov [.vreg sym.vreg, .vreg val.vreg]

end Write

end Nib.Compile
