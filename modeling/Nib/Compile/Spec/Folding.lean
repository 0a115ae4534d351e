import Nib.Compile.Constants
import Nib.Compile.Spec.Machine
import Mathlib.Data.Int.ModEq

/-!
# Constant expressions at run time

The value that the emitted instructions compute for a constant expression, beside the value that
the compiler computes.

* `regRun` — arithmetic on vregs that are words or bytes
* `Agrees` — the two values are the same for the target type
* `FoldClear` — what that takes of an operator
-/

namespace Nib.Compile

open Nib.Infra

/-! ## Arithmetic of the processor -/

/-- What a register of this width holds of a word. -/
def cut (byte : Bool) (x : BitVec 16) : BitVec 16 := if byte then (low x).setWidth 16 else x

/-- The processor's operations are unsigned. A division by zero interrupts; how far a count from
`CL` shifts is `count`. -/
def arith (count : BitVec 8 → Nat) (byte : Bool) (op : OpKind) (a b : BitVec 16) :
    Option (BitVec 16) :=
  match op with
  | .add => some (cut byte (a + b))
  | .sub => some (cut byte (a - b))
  | .mul => some (cut byte (a * b))
  | .div => if cut byte b = 0 then none else some (cut byte a / cut byte b)
  | .mod => if cut byte b = 0 then none else some (cut byte a % cut byte b)
  | .and => some (cut byte (a &&& b))
  | .or => some (cut byte (a ||| b))
  | .xor => some (cut byte (a ^^^ b))
  | .shl => some (cut byte (a <<< count (low b)))
  | .shr => some (cut byte a >>> count (low b))
  | _ => none

def arithUnary (byte : Bool) (op : UnopKind) (a : BitVec 16) : Option (BitVec 16) :=
  match op with
  | .neg => some (cut byte (-a))
  | .not => some (cut byte (~~~a))
  | _ => none

/-! ## Running instructions on vregs -/

/-- The contents of the vregs. -/
abbrev Vregs : Type := Int → BitVec 16

def Vregs.set (s : Vregs) (d : Int) (x : BitVec 16) : Vregs := fun v => if v = d then x else s v

/-- The value of a right operand. -/
def operandValue (s : Vregs) : Arg → Option (BitVec 16)
  | .vreg v => some (s v)
  | .imm n => some (BitVec.ofInt 16 n)
  | _ => none

variable (count : BitVec 8 → Nat) (isByte : Int → Bool)

def regStep : Instr → Vregs → Option Vregs
  | .op .mov [.vreg d, .imm n], s => some (s.set d (cut (isByte d) (BitVec.ofInt 16 n)))
  | .op (.binop op) [.vreg d, .vreg l, r], s =>
    (operandValue s r).bind fun b => (arith count (isByte d) op (s l) b).map (s.set d)
  | .op (.unop op) [.vreg d, .vreg v], s => (arithUnary (isByte d) op (s v)).map (s.set d)
  | .vreg .., s => some s
  | _, _ => none

def regRun : List Instr → Vregs → Option Vregs
  | [], s => some s
  | i :: is, s => (regStep count isByte i s).bind (regRun is)

/-- A vreg is a byte when a line records it as one. -/
def recorded (lines : List Instr) (v : Int) : Bool := lines.any fun i => byteVreg i == some v

/-- The value of an expression for a target type, as the emitted instructions compute it. -/
def runValue (c : Compiler) (e : Expr) (target : Option Ty) (s : Vregs) : Option (BitVec 16) :=
  let r := emitExprTypedFor (resolveConstantsExpr c e) target c
  (regRun count (recorded r.lines) r.lines s).map fun t => t r.value.vreg

/-- The value operator by operator. -/
def runExpr (c : Compiler) : Bool → Expr → Option (BitVec 16)
  | byte, .litInt n => some (cut byte (BitVec.ofInt 16 n))
  | byte, .ident name => (findConstant c name).map fun n => cut byte (BitVec.ofInt 16 n)
  | byte, .binop op l r =>
    (runExpr c byte l).bind fun a =>
      (runExpr c (byte && !binopIsShift op) r).bind (arith count byte op a)
  | byte, .unop op e => (runExpr c byte e).bind (arithUnary byte op)
  | _, _ => none

/-! ## Agreement -/

/-- The bits of a target type. Without a type a value is a word. -/
def bits : Option Ty → Nat
  | some .u8 => 8
  | some .u32 => 32
  | _ => 16

/-- Whatever the vregs hold, the instructions compute the constant. -/
def Agrees (c : Compiler) (e : Expr) (target : Option Ty) : Prop :=
  ∀ n, evalConstExpr c e = some n → ∀ s, ∃ x, runValue count c e target s = some x ∧
    (x.toNat : Int) ≡ n [ZMOD 2 ^ bits target]

/-- An expression and its operands, each with the target type that it is compiled for. -/
def parts : Expr → Option Ty → List (Expr × Option Ty)
  | .binop op l r, target =>
    (.binop op l r, target) :: parts l target ++ parts r (if binopIsShift op then none else target)
  | .unop op e, target => (.unop op e, target) :: parts e target
  | e, target => [(e, target)]

/-- For these operands the processor's quotient, remainder or shift has the bits of the
compiler's. -/
def OpClear (byte : Bool) (op : OpKind) (l r : Int) : Prop :=
  ∀ n, evalConstBinop op l r = some n →
    arith count byte op (BitVec.ofInt 16 l) (BitVec.ofInt 16 r) =
      some (cut byte (BitVec.ofInt 16 n))

/-- Division does not commute with cutting off bits, and neither do shifts by counts that the
processor takes differently. -/
def mayDiffer : OpKind → Bool
  | .div | .mod | .shl | .shr => true
  | _ => false

/-- A value for a `u32` fits into a register; a division, a remainder and a shift have the same bits
at the width of the target and at 32. -/
def FoldClear (c : Compiler) (e : Expr) (target : Option Ty) : Prop :=
  (target = some .u32 → ∀ n, evalConstExpr c e = some n → n % 2 ^ 32 < 2 ^ 16) ∧
    ∀ op l r, e = .binop op l r → mayDiffer op = true → ∀ m n, evalConstExpr c l = some m →
      evalConstExpr c r = some n → OpClear count (target == some .u8) op m n

end Nib.Compile
