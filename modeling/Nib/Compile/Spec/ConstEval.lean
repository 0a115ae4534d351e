import Mathlib
import Nib.Compile.Constants

/-!
# The arithmetic of constant expressions

What C leaves undefined when a constant expression is evaluated, beside the values that the same
expression has over the integers.

* `cEval`, `DeclsDefined` — the evaluation, with an outcome of its own for an undefined operation
* `exact`, `exactDecls` — the values over the integers
* `Fits`, `FitsDecls` — every one of these values is an `int`
-/

namespace Nib.Compile

/-- A value of type `int`. -/
def isInt (n : Int) : Bool := -2147483648 ≤ n && n ≤ 2147483647

/-! ## The evaluation -/

/-- C defines the operation on these operands. A division by 0 is refused before it is tried. -/
def definedBinop (op : OpKind) (l r : Int) : Bool :=
  match op with
  | .add => isInt (l + r)
  | .sub => isInt (l - r)
  | .mul => isInt (l * r)
  | .div | .mod => r == 0 || isInt (l.tdiv r)
  | .shl => 0 ≤ r && r < 32 && 0 ≤ l && isInt (l * 2 ^ r.toNat)
  | .shr => 0 ≤ r && r < 32
  | _ => true

/-- The end of an evaluation. Nothing is known of what follows an undefined operation. -/
inductive Outcome
  | undefined | refused
  | value (n : Int)
  deriving DecidableEq, Repr

def Outcome.ofOption : Option Int → Outcome
  | none => .refused
  | some n => .value n

/-- The evaluation, operation by operation. -/
def cEval (c : Compiler) : Expr → Outcome
  | .litInt value => .value value
  | .ident name => .ofOption (findConstant c name)
  | .binop op l r =>
    match cEval c l with
    | .value l =>
      match cEval c r with
      | .value r =>
        if definedBinop op l r then .ofOption (evalConstBinop op l r) else .undefined
      | o => o
    | o => o
  | .unop op e =>
    match cEval c e with
    | .value v =>
      match op with
      | .neg => if isInt (-v) then .value (toInt32 (-v)) else .undefined
      | .not => .value (toInt32 (-v - 1))
      | _ => .refused
    | o => o
  | _ => .refused

def compileConsts : List (String × Expr) → Compile Unit
  | [] => pure ()
  | (name, init) :: ds => do
    compileConst name init
    compileConsts ds

/-- No initializer meets an undefined operation. -/
def DeclsDefined (c : Compiler) : List (String × Expr) → Prop
  | [] => True
  | (name, init) :: ds =>
    cEval c init ≠ .undefined ∧ DeclsDefined (compileConst name init c).state ds

/-! ## The same over the integers -/

/-- The value of the operator, without a bound. The bits of an `int` are those of its 32-bit
pattern. -/
def exactBinop (op : OpKind) (l r : Int) : Option Int :=
  match op with
  | .add => some (l + r)
  | .sub => some (l - r)
  | .mul => some (l * r)
  | .div => if r = 0 then none else some (l.tdiv r)
  | .mod => if r = 0 then none else some (l.tmod r)
  | .and => some (bitsInt32 (· &&& ·) l r)
  | .or => some (bitsInt32 (· ||| ·) l r)
  | .xor => some (bitsInt32 (· ^^^ ·) l r)
  | .shl => some (l * 2 ^ r.toNat)
  | .shr => some (bitsInt32 (fun a b => a >>> shiftCount b) l r)
  | _ => none

def exactUnop (op : UnopKind) (v : Int) : Option Int :=
  match op with
  | .neg => some (-v)
  | .not => some (-v - 1)
  | _ => none

/-- A table of constants. The first one of a name counts. -/
def constantIn (t : List (String × Int)) (name : String) : Option Int :=
  (t.find? fun k => k.1 == name).map (·.2)

def exact (t : List (String × Int)) : Expr → Option Int
  | .litInt value => some value
  | .ident name => constantIn t name
  | .binop op l r => (exact t l).bind fun l => (exact t r).bind fun r => exactBinop op l r
  | .unop op e => (exact t e).bind (exactUnop op)
  | _ => none

def exactDecls (t : List (String × Int)) : List (String × Expr) → List (String × Int)
  | [] => t
  | (name, init) :: ds => exactDecls (t ++ [(symName name, (exact t init).getD 0)]) ds

/-- Operands that an operator does not take whatever its value is: a count that is no count of a
32-bit shift, a negative number shifted to the left, and a division whose quotient is no `int`. -/
def takes (op : OpKind) (l r : Int) : Prop :=
  match op with
  | .shl => (0 ≤ r ∧ r < 32) ∧ 0 ≤ l
  | .shr => 0 ≤ r ∧ r < 32
  | .mod => ¬(l = -2147483648 ∧ r = -1)
  | _ => True

/-- Every value on the way to that of the expression is an `int`. -/
def Fits (t : List (String × Int)) : Expr → Prop
  | .binop op l r => Fits t l ∧ ∀ m ∈ exact t l, Fits t r ∧ ∀ n ∈ exact t r,
      takes op m n ∧ ∀ k ∈ exactBinop op m n, isInt k = true
  | .unop op e => Fits t e ∧ ∀ m ∈ exact t e, ∀ k ∈ exactUnop op m, isInt k = true
  | _ => True

def FitsDecls (t : List (String × Int)) : List (String × Expr) → Prop
  | [] => True
  | (name, init) :: ds =>
    Fits t init ∧ FitsDecls (t ++ [(symName name, (exact t init).getD 0)]) ds

/-! ## Literals -/

/-- The literals of an expression are of type `int`. -/
def LitsInt : Expr → Prop
  | .litInt value => isInt value = true
  | .binop _ l r => LitsInt l ∧ LitsInt r
  | .unop _ e => LitsInt e
  | _ => True

/-- The values of constants are of type `int`. -/
def TableInt (t : List (String × Int)) : Prop := ∀ k ∈ t, isInt k.2 = true

end Nib.Compile
