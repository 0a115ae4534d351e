import Nib.Compile.State

/-!
# Named constants

Before a function body is compiled, the names of constants in its expressions are replaced by
their values. A declaration registers the value of its initializer.
-/

namespace Nib.Compile

open Compile

mutual

def resolveConstantsExpr (c : Compiler) : Expr → Expr
  | .ident name =>
    match findConstant c name with
    | some value => .litInt value
    | none => .ident name
  | .binop op left right =>
    .binop op (resolveConstantsExpr c left) (resolveConstantsExpr c right)
  | .unop op operand => .unop op (resolveConstantsExpr c operand)
  | .call func args => .call (resolveConstantsExpr c func) (resolveConstantsExprs c args)
  | .indirectCall addr externName moduleName args =>
    .indirectCall (resolveConstantsExpr c addr) externName moduleName
      (resolveConstantsExprs c args)
  | .nearIndirectCall addr externName args =>
    .nearIndirectCall (resolveConstantsExpr c addr) externName (resolveConstantsExprs c args)
  | .index array index => .index (resolveConstantsExpr c array) (resolveConstantsExpr c index)
  | .checkedIndex array index =>
    .checkedIndex (resolveConstantsExpr c array) (resolveConstantsExpr c index)
  | .field object fieldName => .field (resolveConstantsExpr c object) fieldName
  | .rawField object fieldName => .rawField (resolveConstantsExpr c object) fieldName
  | .cast operand targetType => .cast (resolveConstantsExpr c operand) targetType
  | .deref ptr seg => .deref (resolveConstantsExpr c ptr) seg
  | e => e

def resolveConstantsExprs (c : Compiler) : List Expr → List Expr
  | [] => []
  | e :: es => resolveConstantsExpr c e :: resolveConstantsExprs c es

end

/-! ## Declarations -/

def registerConstant (name : String) (value : Int) : Compile Unit :=
  modifyState fun c => { c with constants := c.constants ++ [(symName name, value)] }

/-- The value of an initializer that is refused is 0. -/
def compileConst (name : String) (init : Expr) : Compile Unit := do
  let value ← requireConstExpr init "const initializer"
  registerConstant name value

end Nib.Compile
