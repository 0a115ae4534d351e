import Nib.Bind.Data
import Nib.Bind.Spec.Globals
import Nib.Bind.Spec.Strings

/-!
# Initialised data

* `InitialisedTo` — the bytes of an object are its values and zeros
* `Faithful` — when that holds for a declaration that is accepted
-/

namespace Nib.Bind

open Nib.Asm Nib.Compile Infra

/-! ## Values -/

/-- The little-endian encoding of a number. -/
def leBytes : Nat → Int → List Nat
  | 0, _ => []
  | n + 1, v => (v % 256).toNat :: leBytes n (v / 256)

/-- A far pointer as a number. -/
def farValue (seg off : Int) : Int := off % 65536 + 65536 * (seg % 65536)

/-- The label of a function, as the assembler reads it. -/
def fnLabel (p : LabelProgram) (fn : Text) : Text := (p.resolveFnName fn).take 126

def elemValue (p : LabelProgram) (env : Env) : InitElem → Int
  | .int val => val
  | .near fn => labelValue env (fnLabel p fn)
  | .far fn => farValue (labelSegment env (fnLabel p fn)) (labelValue env (fnLabel p fn))
  | .farLit seg off => farValue seg off

/-- The size of what a value of an initializer fills. -/
def elemSize (c : Compiler) : Ty → Nat
  | .array e _ => (typeSize c e).toNat
  | t => (typeSize c t).toNat

/-- An initializer as it stands in the source. -/
inductive SourceInit
  | scalar (e : InitElem)
  | array (es : List InitElem)
  | string (lit : List LitChar)

def SourceInit.toExpr : SourceInit → InitExpr
  | .scalar e => .scalar e
  | .array es => .array es
  | .string lit => .string (rawText lit)

/-- The encodings of the values, in order. -/
def initValues (c : Compiler) (p : LabelProgram) (env : Env) (t : Ty) : SourceInit → List Nat
  | .scalar e => leBytes (elemSize c t) (elemValue p env e)
  | .array es => es.flatMap fun e => leBytes (elemSize c t) (elemValue p env e)
  | .string lit => (decoded lit).flatMap fun b => leBytes (elemSize c t) (Int.ofNat b)

/-- **The values and zeros**, as many bytes as the type has. -/
def InitialisedTo (size : Int) (values bytes : List Nat) : Prop :=
  (bytes.length : Int) = size ∧ ∃ k, bytes = values ++ List.replicate k 0

/-- The lines that are assembled for a declaration. -/
def declLines (p : LabelProgram) : GlobalDecl → List Text
  | .global line => emitGlobal (parseGlobal line)
  | .data line entries => emitData p (parseData line entries)

/-! ## The condition -/

/-- The functions an initializer refers to. -/
def SourceInit.fns : SourceInit → List Text
  | .scalar (.near fn) => [fn]
  | .scalar (.far fn) => [fn]
  | .array es => es.filterMap fun
    | .near fn => some fn
    | .far fn => some fn
    | _ => none
  | _ => []

/-- A name that the assembler takes for a directive. -/
def isDataWord (name : Text) : Bool := isWord "equ" name || isWord "db" name || isWord "dw" name

/-- The line of an element has the size of the element. -/
def ElemFits (p : LabelProgram) (elemSz : Int) : InitElem → Prop
  | .int _ => elemSz = 1 ∨ elemSz = 2
  | .near fn => isDataWord (p.resolveFnName fn) = false
  | .far fn => isDataWord (p.resolveFnName fn) = false ∧ (p.resolveFnName fn).length ≤ 126
  | .farLit _ _ => True

/-- So has the line that fills an element. -/
def FillFits (elemType : Ty) (elemSz : Int) : Prop := elemType = .far ∨ elemSz = 1 ∨ elemSz = 2

/-- When the values of an accepted declaration are in the image. -/
def Faithful (c : Compiler) (p : LabelProgram) (env : Env) (name : Text) (t : Ty)
    (init : SourceInit) : Prop :=
  match init, sizedType t init.toExpr with
  | .array es, .array e n =>
    n = 0 ∨ (∀ i ∈ es, ElemFits p (typeSize c e) i) ∧
      (n = es.length ∨ FillFits e (typeSize c e))
  | .string lit, .array e n => n = 0 ∨ typeSize c e = 1 ∧ ∀ ch ∈ lit, ch.isPlain = true
  | init, t =>
    -- the values are dropped
    Reserves c name t ∧ (∀ b ∈ initValues c p env t init, b = 0) ∧
      ((initValues c p env t init).length : Int) ≤ typeSize c t

end Nib.Bind
