import Nib.Bind.Modules

/-!
# Labels

The binder prints a label for every function, label, constant, bounds check, global and data block,
and writes these labels where the program names them. A label is put together in a buffer of a
fixed size.

* `asmName` — `fn_asm_name`
* `scopedLabel`, `constLabel`, `boundLabel` — the labels inside a function
* `resolveConstLabel`, `resolveFnName` — the label that is written for a name
-/

namespace Nib.Bind

/-- A place where a function writes a label. -/
inductive LabelRef
  /-- The target of a call, of a jump to a function, or of a far constant. -/
  | target (name : Text)
  /-- The operand of `mov` after `SEG`. -/
  | segment (name : Text)
  /-- The operand of `mov`. -/
  | operand (name : Text)
  /-- A jump inside the function. -/
  | jump (label : Text)
  deriving DecidableEq, Repr

/-- What the labels of a function are made of. `bounds` are the positions of its bounds checks, and
constants are named by the compiler. -/
structure LabelFn where
  module : Text
  name : Text
  isPub : Bool := false
  labels : List Text := []
  consts : List Text := []
  bounds : List Nat := []
  refs : List LabelRef := []
  named : ∀ c ∈ consts, ['_', 'C'].isPrefixOf c = true := by decide

/-- A global or a data block, with the names that its entries refer to. -/
structure LabelObject where
  module : Text
  name : Text
  refs : List Text := []

/-- What fits into a buffer with its terminating NUL. -/
def printed (size : Nat) (t : Text) : Text := t.take (size - 1)

namespace LabelFn

def asmName (f : LabelFn) : Text :=
  if f.isPub || f.module.isEmpty then f.name else printed 128 (f.module ++ '_' :: f.name)

def scopedLabel (f : LabelFn) (label : Text) : Text := printed 128 (f.asmName ++ '_' :: label)

/-- The label of a `.const` line. -/
def constLabel (f : LabelFn) (rawLabel : Text) : Text :=
  printed 32 (f.asmName ++ '_' :: rawLabel)

def resolveConstLabel (f : LabelFn) (name : Text) : Option Text :=
  if ['_', 'C'].isPrefixOf name then some (printed 64 (f.asmName ++ '_' :: name)) else none

end LabelFn

def boundLabel (i : Nat) : Text :=
  ['.', 'b', 'o', 'u', 'n', 'd', '_', 'o', 'k', '_'] ++ Nat.toDigits 10 i

/-- All modules. -/
structure LabelProgram where
  functions : List LabelFn
  objects : List LabelObject := []

namespace LabelProgram

def resolveFnName (p : LabelProgram) (name : Text) : Text :=
  match p.functions.find? fun f => f.name == name with
  | some f => f.asmName
  | none => name

/-- The label that is written. After `SEG` it shares the buffer with the operator. -/
def refText (p : LabelProgram) (f : LabelFn) : LabelRef → Text
  | .target name => p.resolveFnName name
  | .segment name => (printed 128 (['S', 'E', 'G', ' '] ++ p.resolveFnName name)).drop 4
  | .operand name => (f.resolveConstLabel name).getD (p.resolveFnName name)
  | .jump label => f.scopedLabel label

end LabelProgram

end Nib.Bind
