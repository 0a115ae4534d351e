import Nib.Compile.Types
import Mathlib.Logic.Relation

/-!
# Sizes and layouts of structures

`type_size` calls itself for the structures that a structure contains, and nothing stops it when it
comes back to where it was.

* `structSizeRec`, `layoutRec` — the same computations, without a result when the recursion is
  deeper than a bound
* `Contains` — a structure has a field of another one
* `placeFields` — every field with the bits that it takes
* `Declared` — widths and counts of a declaration are not negative
* `LaidOut` — what a layout has to be
* `InUnit` — a bit field lies in the unit that is read for it
-/

namespace Nib.Compile

/-! ## The recursion -/

/-- The size of a type, given the sizes of structures that are known. -/
def typeSizeRec (structSize : String → Option Int) : Ty → Option Int
  | .u8 => some 1
  | .u16 => some 2
  | .u32 => some 4
  | .seg => some 2
  | .bool => some 0
  | .array e n => (typeSizeRec structSize e).map (· * n)
  | .bcd n => some n
  | .struct name => structSize name
  | .far => some 4
  | .void => some 0

/-- The size of a field that is no bit field. -/
def fieldSizeRec (size : Ty → Option Int) (f : Field) : Option Int :=
  if f.isBits then some 0 else (f.type.map size).getD (some 0)

/-- The bit position after all fields. -/
def fieldsEndRec (size : Ty → Option Int) (aligned : Bool) : Int → List Field → Option Int
  | bitPos, [] => some bitPos
  | bitPos, f :: fs => (fieldSizeRec size f).bind fun n =>
    fieldsEndRec size aligned (fieldPlace (fun _ => n) aligned bitPos f).2 fs

/-- The size of a structure, computed with at most `depth` structures open. -/
def structSizeRec (structs : List StructSig) : Nat → String → Option Int
  | 0, _ => none
  | depth + 1, name =>
    match structs.find? fun s => s.name == name with
    | none => some 0
    | some s =>
      (fieldsEndRec (typeSizeRec (structSizeRec structs depth)) s.aligned 0 s.fields).map
        fun bitPos => alignBits bitPos / 8

def findFieldRec (size : Ty → Option Int) (aligned : Bool) (fieldName : String) (rawAccess : Bool) :
    Int → List Field → Option (Option FieldLayout)
  | _, [] => some none
  | bitPos, f :: rest => (fieldSizeRec size f).bind fun n =>
    let place := fieldPlace (fun _ => n) aligned bitPos f
    if f.name = some fieldName then some (some (fieldLayoutOf f place.1 rawAccess))
    else findFieldRec size aligned fieldName rawAccess place.2 rest

/-- The layout of a field, computed with at most `depth` structures open. -/
def layoutRec (structs : List StructSig) (depth : Nat) (structType : Option Ty)
    (fieldName : String) (rawAccess : Bool) : Option (Option FieldLayout) :=
  match structType with
  | some (.struct name) =>
    match structs.find? fun s => s.name == name with
    | none => some none
    | some s => findFieldRec (typeSizeRec (structSizeRec structs depth)) s.aligned fieldName
        rawAccess 0 s.fields
  | _ => some none

/-- Every size and every layout is computed at some depth. -/
def Terminates (structs : List StructSig) : Prop :=
  (∀ t, ∃ depth, (typeSizeRec (structSizeRec structs depth) t).isSome = true) ∧
    ∀ structType fieldName rawAccess, ∃ depth,
      (layoutRec structs depth structType fieldName rawAccess).isSome = true

/-! ## Containment -/

/-- The structure in a type. -/
def structIn : Ty → Option String
  | .array e _ => structIn e
  | .struct name => some name
  | _ => none

/-- The first structure of the name `a` has a field of the structure `b` or of an array of it. -/
def Contains (structs : List StructSig) (a b : String) : Prop :=
  ∃ s, (structs.find? fun s => s.name == a) = some s ∧
    ∃ f ∈ s.fields, f.isBits = false ∧ f.type.bind structIn = some b

/-- No structure contains itself, directly or through others. -/
def NoCycle (structs : List StructSig) : Prop :=
  ∀ a, ¬Relation.TransGen (Contains structs) a a

/-! ## Fields and their bits -/

/-- A field and its bits, from `start` up to `stop`. `run` is the width of the bit fields since the
last field that is none. -/
structure PlacedField where
  field : Field
  start : Int
  stop : Int
  run : Int

/-- The bits of all fields, one after another. -/
def placeFields (size : Ty → Int) (aligned : Bool) : Int → Int → List Field → List PlacedField
  | _, _, [] => []
  | run, bitPos, f :: fs =>
    let place := fieldPlace size aligned bitPos f
    { field := f, start := place.1, stop := place.2, run } ::
      placeFields size aligned (if f.isBits then run + f.bits else 0) place.2 fs

/-- The fields of a structure as `struct_field_layout` goes through them. -/
def placed (c : Compiler) (s : StructSig) : List PlacedField :=
  placeFields (typeSize c) s.aligned 0 0 s.fields

/-! ## Declarations -/

/-- The counts of a type are not negative. -/
def Counted : Ty → Prop
  | .array e n => 0 ≤ n ∧ Counted e
  | .bcd n => 0 ≤ n
  | _ => True

def Declared (s : StructSig) : Prop :=
  ∀ f ∈ s.fields, (f.isBits = true → 0 ≤ f.bits) ∧ ∀ t ∈ f.type, Counted t

/-! ## Layouts -/

/-- The bits of the unit that is read for a bit field. -/
def unitBits (c : Compiler) (l : FieldLayout) : Int := 8 * typeSizeOpt c l.accessType

/-- A bit field lies in the unit that is read from its byte offset. -/
def InUnit (c : Compiler) (p : PlacedField) : Prop :=
  let l := fieldLayoutOf p.field p.start false
  8 * l.byteOffset ≤ p.start ∧ p.stop ≤ 8 * l.byteOffset + unitBits c l

/-- The fields of a structure are placed in order in ranges that do not meet, within a size that is
the smallest one. -/
structure LaidOut (c : Compiler) (name : String) (s : StructSig) : Prop where
  /-- A field takes its width or its size. -/
  width : ∀ p ∈ placed c s, p.stop - p.start =
    if p.field.isBits then p.field.bits else 8 * typeSizeOpt c p.field.type
  order : (placed c s).map PlacedField.field = s.fields
  disjoint : (placed c s).Pairwise fun p q => p.stop ≤ q.start
  inside : ∀ p ∈ placed c s, 0 ≤ p.start ∧ p.start ≤ p.stop ∧
    p.stop ≤ 8 * typeSize c (.struct name)
  byte : ∀ p ∈ placed c s, p.field.isBits = false → p.start % 8 = 0 ∧
    (s.aligned = true → typeNeedsWordAlignment p.field.type = true → p.start % 16 = 0)
  smallest : ∀ n, 0 ≤ n → (∀ p ∈ placed c s, p.stop ≤ 8 * n) → typeSize c (.struct name) ≤ n
  /-- What `struct_field_layout` finds is the first field of the name, at this place. -/
  found : ∀ fieldName rawAccess,
    (structFieldLayout (some (.struct name)) fieldName rawAccess c).value =
      ((placed c s).find? fun p => p.field.name == some fieldName).map fun p =>
        fieldLayoutOf p.field p.start rawAccess

end Nib.Compile
