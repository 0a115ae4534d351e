import Nib.Compile.Expr

/-!
# Declarations and assignments

The statements that write a variable, up to their flag checks. There are four store paths: the
initializer of a declaration, a literal, any other expression, and one result of a call with
several.
-/

namespace Nib.Compile

open Compile

/-! ## Declarations -/

/-- Change the symbols of a vreg in the innermost scope. -/
def updateSymbol (vreg : Int) (f : Symbol → Symbol) (c : Compiler) : Compiler :=
  match c.scopes with
  | [] => c
  | scope :: rest =>
    { c with scopes := (scope.map fun s => if s.vreg = vreg then f s else s) :: rest }

/-- The declared type; an array without a size takes the size of its initializer. -/
def inferredType (type : Ty) (valType : Option Ty) : Ty :=
  match type, valType with
  | .array e 0, some (.array _ n) => if n > 0 then .array e n else type
  | _, _ => type

/-- An initializer fits the declared type. -/
def initializerFits (c : Compiler) (type valType : Ty) : Bool :=
  type == valType ||
    (typeIsInteger (some type) && typeIsInteger (some valType) &&
      decide (typeSize c valType ≤ typeSize c type)) ||
    (match type, valType with
      | .array e n, .array e' n' => e == e' && decide (n' ≤ n)
      | _, _ => false) ||
    valType == .void

def declIsPinned : DeclName → Bool
  | .var _ => false
  | .reg _ _ => true

def declSymName : DeclName → String
  | .var name => name
  | .reg id rclass => regNameStr id rclass

/-- The symbol of a declaration. A variable whose address is taken lies on the stack. -/
def declare (type : Ty) (name : DeclName) (isConst : Bool) : Compile Symbol := do
  let c ← getState
  let vreg ← allocVreg
  let size := typeSize c type
  let addrTaken := !declIsPinned name && c.addrTaken.contains (declSymName name)
  let sym : Symbol :=
    { name := symName (declSymName name)
      type := some type
      vreg
      isPinned := declIsPinned name
      isConst
      isStackLocal := addrTaken && decide (size > 0) }
  modifyState (addSymbol sym)
  if addrTaken then
    if size ≤ 0 then
      cerr ("cannot take address of zero-sized local '" ++ declSymName name ++ "'")
    else print (.stackLocal vreg size sym.name)
  pure sym

/-- The directives of a declaration. -/
def emitDeclDirectives (sym : Symbol) (type : Ty) (hasInit : Bool) : Compile Unit := do
  match type with
  | .array _ 0 => if !hasInit then cerr "unsized array requires an initializer"
  | _ => pure ()
  if sym.isConst && !sym.isStackLocal then
    print (.vreg sym.vreg (if type = .u8 then .u8 else .u16) .const)
  if sym.isPinned then
    print (.note (.pin sym.vreg sym.name))
    print (.prefer sym.vreg sym.name)

/-- Store the value of an initializer. -/
def emitInitStore (sym : Symbol) (type : Ty) (val : TypedVreg) : Compile Unit := do
  if sym.isStackLocal then
    let addr ← emitStackAddr sym
    if typeIsAggregate (some type) then
      cerr "stack local aggregate initializers are not supported"
    else emitOp (storeOp (some type)) [.vreg addr, .vreg val.vreg]
  else
    emitOp .mov [.vreg sym.vreg, .vreg val.vreg]
    match val.vregSeg with
    | some valSeg =>
      if type = .far then
        let seg ← allocVreg
        modifyState (updateSymbol sym.vreg fun s => { s with vregSeg := some seg })
        print (.vreg seg .seg .plain)
        emitOp .mov [.vreg seg, .vreg valSeg]
    | none => pure ()

def emitVardecl (type : Ty) (name : DeclName) (init : Option Expr) (isConst : Bool) :
    Compile Unit := do
  let sym ← declare type name isConst
  emitDeclDirectives sym type init.isSome
  match init with
  | none => pure ()
  | some e =>
    let val ← emitInitializerExprTyped e (some type)
    let type' := inferredType type val.type
    modifyState (updateSymbol sym.vreg fun s => { s with type := some type' })
    let c ← getState
    match val.type with
    | some valType =>
      if !initializerFits c type' valType then
        cerr ("initializer type mismatch: declared " ++ typeStr type' ++ ", got " ++
          typeStr valType)
    | none => pure ()
    emitInitStore sym type' val

/-! ## Stores -/

/-- Store to a scalar global. -/
def emitGlobalStore (sym : Symbol) (vreg : Int) : Compile Unit :=
  emitOp .storemem [.mem (if sym.hasAt then .abs sym.atOff else .sym sym.name), .vreg vreg]

def assignTypeError (name : String) (type valType : Option Ty) : Compile Unit :=
  cerr ("assignment type mismatch: '" ++ name ++ "' is " ++ typeStrOpt type ++ ", got " ++
    typeStrOpt valType)

/-- Check an assignment: the types are equal, the value is a narrower integer, or it is void. -/
def checkAssign (name : String) (type valType : Option Ty) : Compile Unit := do
  let c ← getState
  if valType.isSome && type.isSome && !typesEqual type valType then
    let ok := typeIsInteger type && typeIsInteger valType &&
      decide (typeSizeOpt c valType ≤ typeSizeOpt c type) || valType == some .void
    if !ok then assignTypeError name type valType

/-- The symbol of a register target. A register that is used for the first time is declared with
its pin. -/
def regTarget (id : Nat) (rclass : RegClass) : Compile Symbol := do
  let (sym, isNew) ← regSymbol id rclass
  if isNew then
    let _ ← tvPin sym.vreg sym.type (regNameStr id rclass)
    pure sym
  else pure sym

/-- A register or segment register. -/
def regOf : Expr → Option (Nat × RegClass)
  | .reg id isByte => some (id, if isByte then .byte else .word)
  | .sreg id => some (id, .seg)
  | _ => none

/-- Store a literal into a variable. -/
def emitLiteralStore (sym : Symbol) (value : Int) : Compile Unit := do
  if sym.isStackLocal then
    let tmp ← allocVreg
    emitOp .mov [.vreg tmp, .imm value]
    let addr ← emitStackAddr sym
    emitOp (storeOp sym.type) [.vreg addr, .vreg tmp]
  else if sym.isGlobal && typeIsScalar sym.type then
    let tmp ← allocVreg
    emitOp .mov [.vreg tmp, .imm value]
    if sym.type = some .u8 then print (.vreg tmp .u8 .plain)
    emitGlobalStore sym tmp
  else emitOp .mov [.vreg sym.vreg, .imm value]

/-- Store a value into a variable. -/
def emitValueStore (sym : Symbol) (val : TypedVreg) : Compile Unit := do
  if sym.isStackLocal then
    let addr ← emitStackAddr sym
    emitOp (storeOp sym.type) [.vreg addr, .vreg val.vreg]
  else if sym.isGlobal && typeIsScalar sym.type then
    if sym.type = some .u8 && val.type.isNone then print (.vreg val.vreg .u8 .plain)
    emitGlobalStore sym val.vreg
  else emitOp .mov [.vreg sym.vreg, .vreg val.vreg]

/-! ## One of several results -/

def emitAssignSimple (t : Expr) (val : TypedVreg) : Compile Unit := do
  match t with
  | .ident name =>
    let c ← getState
    match symLookup c name with
    | none => cerr ("undefined variable '" ++ name ++ "'")
    | some sym =>
      if !typeAssignable c sym.type val.type then assignTypeError name sym.type val.type
      if sym.isGlobal && typeIsScalar sym.type then
        if sym.type = some .u8 && val.type.isNone then print (.vreg val.vreg .u8 .plain)
        emitGlobalStore sym val.vreg
      else emitOp .mov [.vreg sym.vreg, .vreg val.vreg]
  | _ =>
    match regOf t with
    | some (id, rclass) =>
      let sym ← regTarget id rclass
      let c ← getState
      if !typeAssignable c sym.type val.type then
        assignTypeError (regNameStr id rclass) sym.type val.type
      emitOp .mov [.vreg sym.vreg, .vreg val.vreg]
    | none => cerr "multi-return assignment target must be a variable or register"

def allocVregs : Nat → Compile (List Int)
  | 0 => pure []
  | n + 1 => do
    let v ← allocVreg
    let vs ← allocVregs n
    pure (v :: vs)

/-- The types of the results, as far as they are known. -/
def emitReturnTypes : List (Int × Option Ty) → Compile Unit
  | [] => pure ()
  | (v, type) :: rest => do
    match type with
    | some t => print (.vreg v t .plain)
    | none => pure ()
    emitReturnTypes rest

/-- Each target takes its result. -/
def emitTargets : List (Expr × Int × Option Ty) → Compile Unit
  | [] => pure ()
  | (t, v, type) :: rest => do
    let val ← tv v type
    emitAssignSimple t val
    emitTargets rest

/-- A call with several results. -/
def emitMultiCallAssign (targets : List Expr) (value : Expr) : Compile Unit := do
  match value with
  | .call (.ident fnName) args =>
    let c ← getState
    match findFunction c fnName with
    | none => cerr ("unknown function '" ++ fnName ++ "'")
    | some fn =>
      if fn.returnTypes.length ≠ targets.length then
        cerr ("'" ++ fnName ++ "' returns " ++ toString fn.returnTypes.length ++
          " values, assignment has " ++ toString targets.length ++ " targets")
      let vals ← emitArgs fn.paramTypes (emitExprs args)
      if fn.paramTypes.length ≠ args.length then
        cerr ("'" ++ fnName ++ "' expects " ++ toString fn.paramTypes.length ++
          " arguments, got " ++ toString args.length)
      let irArgs ← splitFarArgs fn.paramTypes (args.zip vals)
      let retVregs ← allocVregs targets.length
      emitOp .mcall (vregArgs retVregs ++ .name fnName :: vregArgs irArgs)
      let retTypes := (List.range targets.length).map fun i => fn.returnTypes[i]?
      emitReturnTypes (retVregs.zip retTypes)
      emitTargets (targets.zip (retVregs.zip retTypes))
  | _ => cerr "multi-return assignment requires a direct function call"

/-! ## Assignment -/

/-- The type an assignment gives its right side. -/
def assignTargetType (c : Compiler) (t : Expr) : Option Ty :=
  match t with
  | .ident name => (symLookup c name).bind Symbol.type
  | .reg _ isByte => some (regType (if isByte then .byte else .word))
  | .sreg _ => some .seg
  | .flag _ => some .bool
  | _ => none

/-- The target of a literal: a variable or a register. -/
def literalTarget (t : Expr) : Compile (Option Symbol) := do
  match t with
  | .ident name =>
    let c ← getState
    pure (symLookup c name)
  | _ =>
    match regOf t with
    | some (id, rclass) =>
      let sym ← regTarget id rclass
      pure (some sym)
    | none => pure none

/-- Store to an array element. -/
def emitIndexStore (array index : Expr) (val : TypedVreg) : Compile Unit := do
  let arr ← emitExprTyped array
  let idx ← emitExprTyped index
  let elem := typeOfElement arr.type
  let scaledIdx ← emitScaledIndex idx.vreg ((elem.map elemShift).getD 0)
  if elem = some .far then
    let (offV, segV) ←
      match val.vregSeg with
      | some segV => pure (val.vreg, segV)
      | none => emitFarHalves val.vreg
    emitOp .store [.elem arr.vreg scaledIdx, .vreg offV]
    let sidx2 ← allocVreg
    emitOp (.binop .add) [.vreg sidx2, .vreg scaledIdx, .imm 2]
    emitOp .store [.elem arr.vreg sidx2, .vreg segV]
  else emitOp (storeOp elem) [.elem arr.vreg scaledIdx, .vreg val.vreg]

/-- Store a value to the target of an assignment. -/
def emitTargetStore (t : Expr) (val : TypedVreg) : Compile Unit := do
  match t with
  | .ident name =>
    let c ← getState
    match symLookup c name with
    | none => cerr ("undefined variable '" ++ name ++ "'")
    | some sym =>
      checkAssign name sym.type val.type
      emitValueStore sym val
  | .flag id => emitOp .setflag [.name (flagName id), .vreg val.vreg]
  | .deref ptr seg => emitDerefStore ptr seg (emitExprTyped ptr) val
  | .index array index => emitIndexStore array index val
  | .field object fieldName => emitStructFieldStore (emitExprTyped object) fieldName val
  | _ =>
    match regOf t with
    | some (id, rclass) =>
      let sym ← regTarget id rclass
      checkAssign (regNameStr id rclass) sym.type val.type
      emitOp .mov [.vreg sym.vreg, .vreg val.vreg]
    | none => cerr "invalid assignment target"

/-- Assign any value. -/
def emitGeneralAssign (t value : Expr) : Compile Bool := do
  let c ← getState
  let val ← emitExprTypedFor value (assignTargetType c t)
  emitTargetStore t val
  pure true

/-- An assignment to one target. The result is false where the flag checks of the statement are
not compiled. -/
def emitAssignOne (t value : Expr) : Compile Bool := do
  match t with
  | .ident name =>
    let c ← getState
    if ((symLookup c name).map Symbol.isConst).getD false then
      cerr ("cannot reassign const variable '" ++ name ++ "'")
  | _ => pure ()
  match value with
  | .litInt n =>
    match t with
    | .flag id =>
      emitOp .setflag [.name (flagName id), .imm n]
      pure false
    | _ =>
      let target ← literalTarget t
      match target with
      | some sym =>
        emitLiteralStore sym n
        pure false
      | none => emitGeneralAssign t value
  | _ => emitGeneralAssign t value

def emitAssign (targets : List Expr) (value : Expr) : Compile Bool := do
  match targets with
  | [t] => emitAssignOne t value
  | [] => pure true
  | _ =>
    emitMultiCallAssign targets value
    pure false

def emitToggleAssign (target value : Expr) : Compile Unit := do
  let val ← emitExprTyped value
  match target with
  | .flag id => emitOp .toggleflag [.name (flagName id)]
  | .field object fieldName =>
    let obj ← emitExprTyped object
    emitOp .togglefield [.vreg obj.vreg, .name fieldName, .vreg val.vreg]
  | _ => cerr "toggle-assign only valid for flags and bit fields"

end Nib.Compile
