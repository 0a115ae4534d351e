import Nib.Bind.Spec.Globals
import Nib.Compile.Nif

/-!
# Interfaces

* `NifModule` — the declarations of a module that the compiler accepts
* `SameInterface` — what an importing module looks up is what the exporting module does
* `Readable` — when the `.nif` file says everything
* `TablesImported` — the types that an import can have
-/

namespace Nib.Compile

open Infra Asm Nib.Bind

/-! ## Modules -/

/-- The attributes of a line follow a comma. -/
def AttrsSound (attrs : Text) : Prop := ∀ c, attrs.head? = some c → c = ','

structure FieldSound (f : Field) : Prop where
  name : ∀ n, f.name = some n → IsName n.toList
  bits : f.isBits = true → f.type = none ∧ f.asType = none ∧ InInt f.bits
  typed : f.isBits = false → f.bits = 0 ∧ (∃ n, f.name = some n) ∧ ∃ t, f.type = some t
  type : ∀ t, f.type = some t → TySound t
  asType : ∀ t, f.asType = some t → TySound t

structure FnSound (f : NifFn) : Prop where
  name : IsName f.name.toList
  attrs : AttrsSound f.attrs
  params : ∀ p ∈ f.params, TySound p.type
  returns : ∀ r ∈ f.returns, TySound r.type ∧ AttrsSound r.attrs

def DeclSound : NifDecl → Prop
  | .fn f _ _ | .externFn f _ _ => FnSound f
  | .struct s _ => IsName s.name.toList ∧ ∀ f ∈ s.fields, FieldSound f
  | .global name t _ => IsName name.toList ∧ TySound t
  | .const name value _ => IsName name.toList ∧ InInt value

structure NifModule where
  decls : List NifDecl
  sound : ∀ d ∈ decls, DeclSound d

/-! ## Tables -/

/-- A structure as it is registered, with 63 characters of its name. -/
def StructSig.kept (s : StructSig) : StructSig := { s with name := symName s.name }

/-- What is written for a declaration, as tables. A function that is written as a descriptor and as
a function is there twice. -/
def writtenTables : NifDecl → NifTables
  | .fn f isApi isPub =>
    { functions := (if isApi then [f.sig] else []) ++ (if isPub then [f.sig] else []) }
  | .externFn f hasBody isPub =>
    { functions := [f.sig] ++ (if hasBody && isPub then [f.sig] else []) }
  | .struct s isPub => { structs := if isPub then [s.kept] else [] }
  | .global name t isPub => { globals := if isPub then [(symName name, t)] else [] }
  | .const name value isPub => { constants := if isPub then [(symName name, value)] else [] }

/-- What the compiler has registered for a declaration when it has compiled the module. The function
of an extern with a body is registered a second time, which no lookup sees. -/
def ownTables : NifDecl → NifTables
  | .fn f _ _ | .externFn f _ _ => { functions := [f.sig] }
  | .struct s _ => { structs := [s.kept] }
  | .global name t _ => { globals := [(symName name, t)] }
  | .const name value _ => { constants := [(symName name, value)] }

namespace NifTables

def append (a b : NifTables) : NifTables where
  functions := a.functions ++ b.functions
  structs := a.structs ++ b.structs
  globals := a.globals ++ b.globals
  constants := a.constants ++ b.constants

/-- Tables one after the other. -/
def concat (tables : List NifTables) : NifTables := tables.foldr append {}

/-- A compiler with these tables. -/
def compiler (t : NifTables) : Compiler where
  functions := t.functions
  structs := t.structs
  constants := t.constants
  scopes := [t.globals.map fun g => { name := g.1, type := some g.2, vreg := 0, isGlobal := true }]

/-- The size of a type, down to a depth of nested structures. -/
def sizeIn (t : NifTables) (depth : Nat) : Ty → Int :=
  typeSizeWith (structSizeIn t.structs depth)

end NifTables

/-! ## The property -/

/-- The types that a declaration mentions. -/
def declTypes : NifDecl → List Ty
  | .fn f _ _ | .externFn f _ _ => f.sig.paramTypes ++ f.sig.returnTypes
  | .struct s _ => .struct s.name :: s.fields.flatMap fun f => f.type.toList ++ f.asType.toList
  | .global _ t _ => [t]
  | .const _ _ _ => []

/-- Something is written for the declaration. -/
def isExported : NifDecl → Bool
  | .fn _ isApi isPub => isApi || isPub
  | .externFn _ _ _ => true
  | .struct _ isPub | .global _ _ isPub | .const _ _ isPub => isPub

/-- An exported declaration is the same in two modules. -/
def SameDecl (own imported : NifTables) : NifDecl → Prop
  | .fn f _ _ | .externFn f _ _ =>
    findFunction imported.compiler f.name = findFunction own.compiler f.name
  | .struct s _ =>
    findStruct imported.compiler s.name = findStruct own.compiler s.name ∧
      ∀ depth fieldName rawAccess,
        findField (imported.sizeIn depth) s.aligned fieldName rawAccess 0 s.fields =
          findField (own.sizeIn depth) s.aligned fieldName rawAccess 0 s.fields
  | .global name _ _ =>
    (symLookup imported.compiler name).map Symbol.type =
      (symLookup own.compiler name).map Symbol.type
  | .const name _ _ => findConstant imported.compiler name = findConstant own.compiler name

/-- **An import gives what the module has**: signatures, layouts, types of globals, constants, and
the sizes of all types. -/
def SameInterface (m : NifModule) : Prop :=
  let own := NifTables.concat (m.decls.map ownTables)
  let imported := importNif (nifLines m.decls)
  ∀ d ∈ m.decls, isExported d = true →
    SameDecl own imported d ∧
      ∀ t ∈ declTypes d, ∀ depth, imported.sizeIn depth t = own.sizeIn depth t

/-! ## The condition -/

/-- The words that are types without a structure. -/
def typeWords : List String := ["u8", "u16", "u32", "seg", "bool", "far", "far32"]

/-- A type is read back through a buffer: a word, an array of bytes, words or far pointers, or a
structure with a short name. -/
def TypeReads (size : Nat) : Ty → Prop
  | .u8 | .u16 | .u32 | .seg | .bool | .far => True
  | .array .u8 _ | .array .u16 _ | .array .far _ => True
  | .struct name => name.toList.length < size ∧ name ∉ typeWords
  | _ => False

/-- A type that an import can have, through a buffer. -/
def TypeImported (size : Nat) (t : Ty) : Prop := TypeReads size t ∨ ∃ n, t = .array (.bcd 0) n

def FieldImported (f : Field) : Prop :=
  (∀ t, f.type = some t → TypeImported 64 t) ∧ ∀ t, f.asType = some t → TypeImported 64 t

def SigImported (f : FunctionSig) : Prop :=
  (∀ t ∈ f.paramTypes, TypeImported 32 t) ∧ ∀ t ∈ f.returnTypes, TypeImported 64 t

/-- Every type that has been imported. -/
structure TablesImported (t : NifTables) : Prop where
  functions : ∀ f ∈ t.functions, SigImported f
  structs : ∀ s ∈ t.structs, ∀ f ∈ s.fields, FieldImported f
  globals : ∀ g ∈ t.globals, TypeImported 64 g.2

/-- What the module has under the name of a declaration can be imported. -/
def DeclImported (own : NifTables) : NifDecl → Prop
  | .fn f _ _ | .externFn f _ _ => ∀ g, findFunction own.compiler f.name = some g → SigImported g
  | .struct s _ => ∀ st, findStruct own.compiler s.name = some st → ∀ f ∈ st.fields, FieldImported f
  | .global name _ _ => ∀ t, (symLookup own.compiler name).map Symbol.type = some (some t) →
    TypeImported 64 t
  | .const _ _ _ => True

def FieldReads (f : Field) : Prop :=
  (∀ n, f.name = some n → n.toList.length < 64 ∧ (f.isBits = true → n ≠ "_")) ∧
    (∀ t, f.type = some t → TypeReads 64 t) ∧ ∀ t, f.asType = some t → TypeReads 64 t

def FnReads (f : NifFn) : Prop :=
  f.name.toList.length < 64 ∧ (∀ p ∈ f.params, TypeReads 32 p.type) ∧
    ∀ r ∈ f.returns, TypeReads 64 r.type

def DeclReads : NifDecl → Prop
  | .fn f _ _ | .externFn f _ _ => FnReads f
  | .struct s _ => s.name.toList.length < 64 ∧ ∀ f ∈ s.fields, FieldReads f
  | .global name t _ => name.toList.length < 64 ∧ TypeReads 64 t
  | .const name _ _ => name.toList.length < 64

/-- What a declaration is registered under. -/
def declKey : NifDecl → Nat × String
  | .fn f _ _ | .externFn f _ _ => (0, symName f.name)
  | .struct s _ => (1, symName s.name)
  | .global name _ _ => (2, symName name)
  | .const name _ _ => (3, symName name)

/-- The structures of a type. -/
def typeStructs : Ty → List String
  | .array e _ => typeStructs e
  | .struct name => [name]
  | _ => []

/-- The structures of the module with this name are exported. -/
def ClosedName (m : NifModule) (name : String) : Prop :=
  ∀ s isPub, .struct s isPub ∈ m.decls → symName s.name = name → .struct s true ∈ m.decls

/-- Nothing else is registered first under the name of an exported declaration, lines fit the
buffer, types are read back, and structures that exported declarations mention are exported, if the
module has them. -/
structure Readable (m : NifModule) : Prop where
  first : ∀ d ∈ m.decls, isExported d = true →
    ∀ d', m.decls.find? (fun e => declKey e == declKey d) = some d' → ownTables d' = ownTables d
  fits : ∀ line ∈ nifLines m.decls, line.length ≤ 510
  reads : ∀ d ∈ m.decls, isExported d = true → DeclReads d
  closed : ∀ d ∈ m.decls, isExported d = true → ∀ t ∈ declTypes d, ∀ name ∈ typeStructs t,
    ClosedName m name

end Nib.Compile
