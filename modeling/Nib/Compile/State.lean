import Nib.Compile.Nir

/-!
# Compiler state

The part of the state that expressions see. Scopes are listed from the innermost to the global
one, and the symbols of a scope in the order in which they were added.
-/

namespace Nib.Compile

/-- A name that can be looked up. A far parameter has a second vreg for its segment. -/
structure Symbol where
  name : String
  type : Option Ty
  vreg : Int
  vregSeg : Option Int := none
  isPinned : Bool := false
  isGlobal : Bool := false
  isConst : Bool := false
  hasAt : Bool := false
  atOff : Int := 0
  isInitData : Bool := false
  isStackLocal : Bool := false
  deriving DecidableEq, Repr

structure FunctionSig where
  name : String
  paramTypes : List Ty
  returnTypes : List Ty
  deriving DecidableEq, Repr

/-- A field of a structure. A bit field has no type. -/
structure Field where
  name : Option String
  type : Option Ty
  bits : Int
  isBits : Bool
  asType : Option Ty
  deriving DecidableEq, Repr

structure StructSig where
  name : String
  fields : List Field
  aligned : Bool
  deriving DecidableEq, Repr

structure Compiler where
  scopes : List (List Symbol) := [[]]
  nextVreg : Int := 0
  errors : List String := []
  srcFile : String := ""
  lastEmittedLine : Nat := 0
  nextConst : Nat := 0
  curFnReturns : List Ty := []
  curFnIsBare : Bool := false
  functions : List FunctionSig := []
  structs : List StructSig := []
  constants : List (String × Int) := []
  isrNames : List String := []
  addrTaken : List String := []

/-! ## Emission -/

/-- What a piece of the compiler returns, the lines it prints and the state it leaves. -/
structure Emitted (α : Type) where
  value : α
  lines : List Instr
  state : Compiler

def Compile (α : Type) : Type := Compiler → Emitted α

namespace Compile

instance : Monad Compile where
  pure a := fun c => ⟨a, [], c⟩
  bind m f := fun c =>
    let r := m c
    let r' := f r.value r.state
    ⟨r'.value, r.lines ++ r'.lines, r'.state⟩

def print (i : Instr) : Compile Unit := fun c => ⟨(), [i], c⟩

def getState : Compile Compiler := fun c => ⟨c, [], c⟩

def modifyState (f : Compiler → Compiler) : Compile Unit := fun c => ⟨(), [], f c⟩

end Compile

open Compile

def emitOp (o : Op) (args : List Arg) : Compile Unit := print (.op o args)

/-- Report an error. -/
def cerr (message : String) : Compile Unit :=
  modifyState fun c => { c with errors := c.errors ++ [message] }

def allocVreg : Compile Int := fun c =>
  ⟨c.nextVreg, [], { c with nextVreg := c.nextVreg + 1 }⟩

/-! ## Lookup -/

/-- The first symbol of a name, from the innermost scope outwards. -/
def symLookup (c : Compiler) (name : String) : Option Symbol :=
  c.scopes.findSome? fun scope => scope.find? fun s => s.name == name

def findFunction (c : Compiler) (name : String) : Option FunctionSig :=
  c.functions.find? fun f => f.name == name

def findStruct (c : Compiler) (name : String) : Option StructSig :=
  c.structs.find? fun s => s.name == name

def findConstant (c : Compiler) (name : String) : Option Int :=
  (c.constants.find? fun k => k.1 == name).map (·.2)

def isIsr (c : Compiler) (name : String) : Bool := c.isrNames.contains name

/-- The descriptor of an indirect call: the function of this name, or the one whose name follows
the module name and an underscore. -/
def findIndirectDescriptor (c : Compiler) (name moduleName : String) :
    Option FunctionSig × String :=
  match findFunction c name with
  | some f => (some f, name)
  | none =>
    let modulePart := moduleName.toList ++ ['_']
    if moduleName ≠ "" ∧ modulePart.isPrefixOf name.toList then
      let localName := String.ofList (name.toList.drop modulePart.length)
      match findFunction c localName with
      | some f => (some f, localName)
      | none => (none, name)
    else (none, name)

/-! ## Scopes -/

def pushScope (c : Compiler) : Compiler := { c with scopes := [] :: c.scopes }

def popScope (c : Compiler) : Compiler := { c with scopes := c.scopes.tail }

/-- Add a symbol to the innermost scope. -/
def addSymbol (s : Symbol) (c : Compiler) : Compiler :=
  match c.scopes with
  | [] => { c with scopes := [[s]] }
  | scope :: rest => { c with scopes := (scope ++ [s]) :: rest }

/-- The first 63 characters of a name are kept. -/
def symName (name : String) : String := String.ofList (name.toList.take 63)

def symAdd (name : String) (type : Option Ty) (isGlobal : Bool) : Compile Symbol := do
  let vreg ← allocVreg
  let sym : Symbol := { name := symName name, type, vreg, isGlobal }
  modifyState (addSymbol sym)
  pure sym

def symAddPinned (type : Ty) (reg : Nat) (rclass : RegClass) : Compile Symbol := do
  let vreg ← allocVreg
  let sym : Symbol :=
    { name := symName (regNameStr reg rclass), type := some type, vreg, isPinned := true }
  modifyState (addSymbol sym)
  pure sym

/-! ## Constant expressions -/

/-- A C `int`. -/
def toInt32 (n : Int) : Int := (BitVec.ofInt 32 n).toInt

/-- Apply an operation on bits to two C `int`s. -/
def bitsInt32 (f : BitVec 32 → BitVec 32 → BitVec 32) (l r : Int) : Int :=
  (f (BitVec.ofInt 32 l) (BitVec.ofInt 32 r)).toInt

/-- The machine shifts by the count modulo 32. -/
def shiftCount (r : BitVec 32) : Nat := r.toNat % 32

def evalConstBinop (op : OpKind) (l r : Int) : Option Int :=
  match op with
  | .add => some (toInt32 (l + r))
  | .sub => some (toInt32 (l - r))
  | .mul => some (toInt32 (l * r))
  | .div => if r = 0 then none else some (toInt32 (l.tdiv r))
  | .mod => if r = 0 then none else some (toInt32 (l.tmod r))
  | .and => some (bitsInt32 (· &&& ·) l r)
  | .or => some (bitsInt32 (· ||| ·) l r)
  | .xor => some (bitsInt32 (· ^^^ ·) l r)
  | .shl => some (bitsInt32 (fun a b => a <<< shiftCount b) l r)
  | .shr => some (bitsInt32 (fun a b => a >>> shiftCount b) l r)
  | _ => none

/-- Evaluate a constant expression. -/
def evalConstExpr (c : Compiler) : Expr → Option Int
  | .litInt value => some value
  | .ident name => findConstant c name
  | .binop op l r => do
    let l ← evalConstExpr c l
    let r ← evalConstExpr c r
    evalConstBinop op l r
  | .unop .neg e => (evalConstExpr c e).map fun v => toInt32 (-v)
  | .unop .not e => (evalConstExpr c e).map fun v => toInt32 (-v - 1)
  | _ => none

def requireConstExpr (e : Expr) (what : String) : Compile Int := do
  let c ← getState
  match evalConstExpr c e with
  | some value => pure value
  | none =>
    cerr (what ++ " must be a constant expression")
    pure 0

end Nib.Compile
