/-!
# Syntax

The syntax tree the parser hands to the compiler, as far as function bodies need it. A memory
expression, a parenthesis, an array initializer and a constant declaration never reach a body:
the parser builds a dereference, the expression itself, a global and nothing in their place.
Constants are replaced by their values before a body is compiled.
-/

namespace Nib.Compile

/-! ## Registers and flags -/

inductive RegClass
  | word | byte | seg
  deriving DecidableEq, Repr

/-- The name at an index of a table, `??` outside of it. -/
def nameAt (names : List String) (id : Nat) : String := names.getD id "??"

def wregName (id : Nat) : String := nameAt ["AX", "CX", "DX", "BX", "SP", "BP", "SI", "DI"] id

def bregName (id : Nat) : String := nameAt ["AL", "CL", "DL", "BL", "AH", "CH", "DH", "BH"] id

def sregName (id : Nat) : String := nameAt ["ES", "CS", "SS", "DS"] id

def regNameStr (id : Nat) : RegClass → String
  | .word => wregName id
  | .byte => bregName id
  | .seg => sregName id

def wregBx : Nat := 3

def wregBp : Nat := 5

def wregSi : Nat := 6

def wregDi : Nat := 7

def sregCs : Nat := 1

def sregDs : Nat := 3

inductive Flag
  | cf | pf | af | zf | sf | tf | df | of | ie
  deriving DecidableEq, Repr

def flagName : Flag → String
  | .cf => "CF"
  | .pf => "PF"
  | .af => "AF"
  | .zf => "ZF"
  | .sf => "SF"
  | .tf => "TF"
  | .df => "DF"
  | .of => "OF"
  | .ie => "IF"

/-! ## Types -/

inductive Ty
  | u8 | u16 | u32 | seg | bool
  | array (element : Ty) (size : Int)
  | bcd (size : Int)
  | struct (name : String)
  | far
  | void
  deriving DecidableEq, Repr

def typeStr : Ty → String
  | .u8 => "u8"
  | .u16 => "u16"
  | .u32 => "u32"
  | .seg => "seg"
  | .bool => "bool"
  | .array e n => typeStr e ++ "[" ++ toString n ++ "]"
  | .bcd n => "bcd[" ++ toString n ++ "]"
  | .struct name => name
  | .far => "far32"
  | .void => "void"

/-- The text of a type that may be missing. -/
def typeStrOpt : Option Ty → String
  | none => "void"
  | some t => typeStr t

/-! ## Expressions -/

inductive OpKind
  | add | sub | mul | div | mod
  | smul | sdiv | smod
  | and | or | xor
  | shl | shr | srshr
  | rol | ror | rcl | rcr
  | eq | neq
  | lt | gt | lte | gte
  | slt | sgt | slte | sgte
  | xchg
  deriving DecidableEq, Repr

inductive UnopKind
  | neg | not | addr | farAddr | lnot
  deriving DecidableEq, Repr

def opStr : OpKind → String
  | .add => "add"
  | .sub => "sub"
  | .mul => "mul"
  | .div => "div"
  | .mod => "mod"
  | .smul => "imul"
  | .sdiv => "idiv"
  | .smod => "imod"
  | .and => "and"
  | .or => "or"
  | .xor => "xor"
  | .shl => "shl"
  | .shr => "shr"
  | .srshr => "sar"
  | .rol => "rol"
  | .ror => "ror"
  | .rcl => "rcl"
  | .rcr => "rcr"
  | .eq => "cmp.eq"
  | .neq => "cmp.ne"
  | .lt => "cmp.b"
  | .gt => "cmp.a"
  | .lte => "cmp.be"
  | .gte => "cmp.ae"
  | .slt => "cmp.l"
  | .sgt => "cmp.g"
  | .slte => "cmp.le"
  | .sgte => "cmp.ge"
  | .xchg => "xchg"

def unopStr : UnopKind → String
  | .neg => "neg"
  | .not => "not"
  | .addr => "lea"
  | .farAddr => "far_lea"
  | .lnot => "lnot"

def binopIsShift : OpKind → Bool
  | .shl | .shr | .srshr | .rol | .ror | .rcl | .rcr => true
  | _ => false

def binopIsCompare : OpKind → Bool
  | .eq | .neq | .lt | .gt | .lte | .gte | .slt | .sgt | .slte | .sgte => true
  | _ => false

inductive Expr
  | litInt (value : Int)
  | litStr (bytes : List Nat)
  | ident (name : String)
  | reg (id : Nat) (isByte : Bool)
  | sreg (id : Nat)
  | flag (id : Flag)
  | binop (op : OpKind) (left right : Expr)
  | unop (op : UnopKind) (operand : Expr)
  | call (func : Expr) (args : List Expr)
  | index (array index : Expr)
  | checkedIndex (array index : Expr)
  | field (object : Expr) (fieldName : String)
  | rawField (object : Expr) (fieldName : String)
  | farLit (seg off : Int)
  | cast (operand : Expr) (targetType : Ty)
  | indirectCall (addr : Expr) (externName moduleName : String) (args : List Expr)
  | nearIndirectCall (addr : Expr) (externName : String) (args : List Expr)
  | deref (ptr : Expr) (seg : Option Nat)

/-! ## Statements -/

inductive FlagExpr
  | flag (id : Flag)
  | not (e : FlagExpr)
  | or (left right : FlagExpr)
  | and (left right : FlagExpr)
  | xor (left right : FlagExpr)
  deriving DecidableEq, Repr

/-- A case of a flag-check block. Without a body it is a trap. -/
structure FlagCase (S : Type) where
  condition : FlagExpr
  body : Option (List S)

/-- A register or a flag of a clause. `FLAGS` stands for all flags. -/
inductive RegItem
  | reg (id : Nat) (rclass : RegClass)
  | flag (id : Flag)
  | flagsAll
  deriving DecidableEq, Repr

def regItemName : RegItem → String
  | .reg id rclass => regNameStr id rclass
  | .flag id => flagName id
  | .flagsAll => "FLAGS"

/-- The clause of an assembly block. -/
structure AsmClause where
  isClobbers : Bool
  items : List RegItem
  deriving DecidableEq, Repr

/-- A declaration names a variable or a register. -/
inductive DeclName
  | var (name : String)
  | reg (id : Nat) (rclass : RegClass)
  deriving DecidableEq, Repr

/-- A statement and its source line. An empty `else` is no `else`. -/
inductive Stmt
  | vardecl (line : Nat) (type : Ty) (name : DeclName) (init : Option Expr) (isConst : Bool)
  | assign (line : Nat) (targets : List Expr) (value : Expr) (flagChecks : List (FlagCase Stmt))
  | toggleAssign (line : Nat) (target value : Expr) (flagChecks : List (FlagCase Stmt))
  | expr (line : Nat) (e : Expr)
  | ifStmt (line : Nat) (cond : Expr) (thenBody elseBody : List Stmt)
  | whileStmt (line : Nat) (cond : Expr) (body : List Stmt)
  | forStmt (line : Nat) (start stop : Expr) (body : List Stmt)
  | ret (line : Nat) (exprs : List Expr)
  | breakStmt (line : Nat)
  | continueStmt (line : Nat)
  | goto (line : Nat) (label : String)
  | tailcall (line : Nat) (e : Expr)
  | label (line : Nat) (name : String)
  | asm (line : Nat) (clause : Option AsmClause) (body : String)

def Stmt.line : Stmt → Nat
  | .vardecl line .. => line
  | .assign line .. => line
  | .toggleAssign line .. => line
  | .expr line .. => line
  | .ifStmt line .. => line
  | .whileStmt line .. => line
  | .forStmt line .. => line
  | .ret line .. => line
  | .breakStmt line => line
  | .continueStmt line => line
  | .goto line _ => line
  | .tailcall line _ => line
  | .label line _ => line
  | .asm line .. => line

end Nib.Compile
