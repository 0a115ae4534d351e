import Nib.Bind.Labels
import Nib.Asm.Symbols

/-!
# Labels that stand for one object

* `Resolves` — different objects have different labels, and a name is written as the label of the
  object it stands for
* `names`, `nameWords` — what a label is put together of, and what can be read back from it
* `Apart`, `Found` — when names have labels of their own
-/

namespace Nib.Bind

open Nib.Asm

/-- What has a label, by the position of its function and its own. -/
inductive LabelEntity
  | fn (i : Nat)
  | label (i j : Nat)
  | const (i j : Nat)
  | bound (i j : Nat)
  | object (i : Nat)
  deriving DecidableEq, Repr

namespace LabelProgram

variable (p : LabelProgram)

def labelOf : LabelEntity → Option Text
  | .fn i => (p.functions[i]?).map LabelFn.asmName
  | .label i j => (p.functions[i]?).bind fun f => (f.labels[j]?).map f.scopedLabel
  | .const i j => (p.functions[i]?).bind fun f => (f.consts[j]?).map f.constLabel
  | .bound i j => (p.functions[i]?).bind fun f => (f.bounds[j]?).map boundLabel
  | .object i => (p.objects[i]?).map LabelObject.name

/-! ## Scopes -/

/-- What a name stands for in a module: a function or an object of its own, then a public
function, then an object of any module. -/
def denoteName (module name : Text) : Option LabelEntity :=
  ((p.functions.findIdx? fun f => f.name == name && f.module == module).map .fn).or <|
    ((p.objects.findIdx? fun o => o.name == name && o.module == module).map .object).or <|
      ((p.functions.findIdx? fun f => f.name == name && f.isPub).map .fn).or <|
        (p.objects.findIdx? fun o => o.name == name).map .object

/-- What the `i`-th function refers to. -/
def denote (i : Nat) (f : LabelFn) : LabelRef → Option LabelEntity
  | .target name => p.denoteName f.module name
  | .segment name => p.denoteName f.module name
  | .operand name =>
    ((f.consts.findIdx? (· == name)).map (.const i)).or (p.denoteName f.module name)
  | .jump label => (f.labels.findIdx? (· == label)).map (.label i)

/-- Labels are compared as the assembler does. -/
structure Resolves : Prop where
  distinct : ∀ e e' l l', p.labelOf e = some l → p.labelOf e' = some l' →
    sameName l l' = true → e = e'
  refs : ∀ (i : Nat) f r e, p.functions[i]? = some f → r ∈ f.refs → p.denote i f r = some e →
    p.labelOf e = some (p.refText f r)
  objectRefs : ∀ o ∈ p.objects, ∀ name ∈ o.refs, ∀ e, p.denoteName o.module name = some e →
    p.labelOf e = some (p.resolveFnName name)

end LabelProgram

/-! ## Names -/

/-- Names with `_` between them. -/
def joinNames : List Text → Text
  | [] => []
  | [t] => t
  | t :: ts => t ++ '_' :: joinNames ts

/-- The parts of a text between its `_`. -/
def words : Text → List Text
  | [] => [[]]
  | c :: t =>
    if c = '_' then [] :: words t
    else
      match words t with
      | [] => [[c]]
      | w :: ws => (c :: w) :: ws

/-- The words of names, without regard to case. -/
def nameWords (names : List Text) : List Text :=
  names.flatMap fun t => words (t.map Char.toLower)

/-- The names of which `n` characters are left when they are joined. -/
def cutNames : Nat → List Text → List Text
  | _, [] => []
  | n, t :: ts => if n ≤ t.length then [t.take n] else t :: cutNames (n - t.length - 1) ts

/-- The names that the name of a function is put together of. -/
def LabelFn.names (f : LabelFn) : List Text :=
  if f.isPub || f.module.isEmpty then [f.name] else cutNames 127 [f.module, f.name]

def boundNames (i : Nat) : List Text :=
  [['.', 'b', 'o', 'u', 'n', 'd'], ['o', 'k'], Nat.toDigits 10 i]

namespace LabelProgram

variable (p : LabelProgram)

/-- The names of an entity, as far as its buffer holds them. -/
def names : LabelEntity → Option (List Text)
  | .fn i => (p.functions[i]?).map LabelFn.names
  | .label i j =>
    (p.functions[i]?).bind fun f => (f.labels[j]?).map fun l => cutNames 127 (f.names ++ [l])
  | .const i j =>
    (p.functions[i]?).bind fun f => (f.consts[j]?).map fun c => cutNames 31 (f.names ++ [c])
  | .bound i j => (p.functions[i]?).bind fun f => (f.bounds[j]?).map boundNames
  | .object i => (p.objects[i]?).map fun o => [o.name]

/-! ## The condition -/

/-- No two entities have names of the same words. -/
def Apart : Prop :=
  ∀ e e' ns ns', p.names e = some ns → p.names e' = some ns' → nameWords ns = nameWords ns' → e = e'

/-- The first function of the name in any module, then the first object. -/
def found (name : Text) : Option LabelEntity :=
  ((p.functions.findIdx? fun f => f.name == name).map .fn).or <|
    (p.objects.findIdx? fun o => o.name == name).map .object

/-- What a name stands for is found first. -/
def FoundFrom (module name : Text) : Prop :=
  ∀ e, p.denoteName module name = some e → p.found name = some e

/-- What a function names by an operand. A name like that of a constant is looked up in the
constants of the function only, and their labels are cut to 31 characters. -/
def FoundOperand (f : LabelFn) (name : Text) : Prop :=
  if name ∈ f.consts then (joinNames (f.names ++ [name])).length ≤ 31
  else if ['_', 'C'].isPrefixOf name then
    ∀ e ns, p.denoteName f.module name = some e → p.names e = some ns →
      joinNames ns = (joinNames (f.names ++ [name])).take 63
  else p.FoundFrom f.module name

/-- A name that is written finds what it stands for. After `SEG` 123 characters of a label are
left. -/
structure Found : Prop where
  target : ∀ f ∈ p.functions, ∀ name, .target name ∈ f.refs → p.FoundFrom f.module name
  segment : ∀ f ∈ p.functions, ∀ name, .segment name ∈ f.refs →
    ∀ e e' ns ns', p.denoteName f.module name = some e → p.found name = some e' →
      p.names e = some ns → p.names e' = some ns' → joinNames ns = (joinNames ns').take 123
  operand : ∀ f ∈ p.functions, ∀ name, .operand name ∈ f.refs → p.FoundOperand f name
  object : ∀ o ∈ p.objects, ∀ name ∈ o.refs, p.FoundFrom o.module name

end LabelProgram

end Nib.Bind
