import Nib.Asm.Text

/-!
# Labels

The symbol table. Names compare without regard to case; the first entry of a name is the entry
of the name.
-/

namespace Nib.Asm

inductive LabelType
  | code | data | equ
  deriving DecidableEq, Repr

/-- An entry. An entry is made when the label is defined, so `defined` is always true. -/
structure Label where
  name : List Char
  value : Int
  ltype : LabelType
  segment : Int
  deriving DecidableEq, Repr

def findLabel (labels : List Label) (name : List Char) : Option Label :=
  labels.find? fun l => sameName l.name name

/-- Overwrite the first entry of a name. -/
def updateLabel (labels : List Label) (name : List Char) (f : Label → Label) : List Label :=
  match labels with
  | [] => []
  | l :: rest => if sameName l.name name then f l :: rest else l :: updateLabel rest name f

/-- Add or overwrite an entry. -/
def setLabel (labels : List Label) (name : List Char) (value : Int) (ltype : LabelType)
    (segment : Int) : List Label :=
  match findLabel labels name with
  | some _ => updateLabel labels name fun l => { l with value, ltype, segment }
  | none => labels ++ [{ name := name.take 63, value, ltype, segment }]

end Nib.Asm
