import Nib.Compile.State

/-!
# Types

Sizes, layouts and the checks the compiler makes on the types of operands. A missing type is the
type of a literal and fits every other type.
-/

namespace Nib.Compile

open Compile

def typesEqual : Option Ty → Option Ty → Bool
  | some a, some b => a == b
  | none, none => true
  | _, _ => false

def typeIsAggregate : Option Ty → Bool
  | some (.array ..) | some (.bcd _) | some (.struct _) | some .far => true
  | _ => false

def typeIsInteger : Option Ty → Bool
  | some .u8 | some .u16 | some .u32 => true
  | _ => false

def typeIsBcd : Option Ty → Bool
  | some (.bcd _) => true
  | _ => false

/-- The scalar types a global is loaded and stored as a value for. -/
def typeIsScalar : Option Ty → Bool
  | some .u8 | some .u16 | some .u32 | some .seg => true
  | _ => false

def typeOfElement : Option Ty → Option Ty
  | some (.array e _) => some e
  | _ => none

def typeNeedsWordAlignment : Option Ty → Bool
  | some .u16 | some .u32 | some .seg | some .far | some (.struct _) => true
  | _ => false

/-! ## Sizes and layouts -/

/-- The size of a type, given the sizes of structures. -/
def typeSizeWith (structSize : String → Int) : Ty → Int
  | .u8 => 1
  | .u16 => 2
  | .u32 => 4
  | .seg => 2
  | .bool => 0
  | .array e n => typeSizeWith structSize e * n
  | .bcd n => n
  | .struct name => structSize name
  | .far => 4
  | .void => 0

/-- Round up to a whole byte. -/
def alignBits (bitPos : Int) : Int := (bitPos + 7) / 8 * 8

/-- The bit position of a field, and the one after it. -/
def fieldPlace (size : Ty → Int) (aligned : Bool) (bitPos : Int) (f : Field) : Int × Int :=
  if f.isBits then (bitPos, bitPos + f.bits)
  else
    let bytePos := alignBits bitPos / 8
    let bytePos :=
      if aligned && typeNeedsWordAlignment f.type && bytePos % 2 == 1 then bytePos + 1 else bytePos
    (bytePos * 8, (bytePos + (f.type.map size).getD 0) * 8)

/-- The size of a structure whose own structures are nested at most `depth` deep. -/
def structSizeIn (structs : List StructSig) : Nat → String → Int
  | 0, _ => 0
  | depth + 1, name =>
    match structs.find? fun s => s.name == name with
    | none => 0
    | some s =>
      let size := typeSizeWith (structSizeIn structs depth)
      alignBits (s.fields.foldl (fun bitPos f => (fieldPlace size s.aligned bitPos f).2) 0) / 8

/-- The size of a type in bytes. A structure can only contain structures of the table. -/
def typeSize (c : Compiler) (t : Ty) : Int :=
  typeSizeWith (structSizeIn c.structs (c.structs.length + 1)) t

def typeSizeOpt (c : Compiler) : Option Ty → Int
  | none => 0
  | some t => typeSize c t

/-- Where a field lies and how it is read. -/
structure FieldLayout where
  isBits : Bool
  byteOffset : Int
  storageType : Option Ty
  accessType : Option Ty
  deriving DecidableEq, Repr

def fieldLayoutOf (f : Field) (fieldBitPos : Int) (rawAccess : Bool) : FieldLayout :=
  if f.isBits then
    let t := if f.bits ≤ 8 then Ty.u8 else Ty.u16
    { isBits := true, byteOffset := fieldBitPos / 8, storageType := some t, accessType := some t }
  else
    { isBits := false
      byteOffset := fieldBitPos / 8
      storageType := f.type
      accessType := if f.asType.isSome && !rawAccess then f.asType else f.type }

/-- The layout of the first field of a name. -/
def findField (size : Ty → Int) (aligned : Bool) (fieldName : String) (rawAccess : Bool) :
    Int → List Field → Option FieldLayout
  | _, [] => none
  | bitPos, f :: rest =>
    let (fieldBitPos, next) := fieldPlace size aligned bitPos f
    if f.name = some fieldName then some (fieldLayoutOf f fieldBitPos rawAccess)
    else findField size aligned fieldName rawAccess next rest

def structFieldLayout (structType : Option Ty) (fieldName : String) (rawAccess : Bool) :
    Compile (Option FieldLayout) := do
  let c ← getState
  match structType with
  | some (.struct name) =>
    match findStruct c name with
    | none =>
      cerr ("unknown struct type '" ++ name ++ "'")
      pure none
    | some s =>
      match findField (typeSize c) s.aligned fieldName rawAccess 0 s.fields with
      | some layout => pure (some layout)
      | none =>
        cerr ("struct '" ++ name ++ "' has no field '" ++ fieldName ++ "'")
        pure none
  | some t =>
    cerr ("field access on non-struct type '" ++ typeStr t ++ "'")
    pure none
  | none => pure none

/-! ## Declarations -/

/-- Only the first 63 characters of the name are kept. -/
def compileStruct (d : StructSig) : Compile Unit :=
  modifyState fun c => { c with structs := c.structs ++ [{ d with name := symName d.name }] }

def compileStructs : List StructSig → Compile Unit
  | [] => pure ()
  | d :: ds => do
    compileStruct d
    compileStructs ds

/-! ## Checks -/

/-- A value of type `src` may be assigned to `dst`. -/
def typeAssignable (c : Compiler) (dst src : Option Ty) : Bool :=
  match dst, src with
  | some d, some s =>
    d == s || (typeIsInteger dst && typeIsInteger src && decide (typeSize c s ≤ typeSize c d))
  | _, _ => true

/-- The result type of an arithmetic operation. -/
def checkArith (l r : Option Ty) (op : OpKind) : Compile (Option Ty) :=
  match l, r with
  | none, none => pure (some .u16)
  | none, some _ => pure r
  | some _, none => pure l
  | some lt, some rt => do
    if typeIsBcd l && typeIsBcd r then
      if lt ≠ rt then
        cerr ("BCD operands must have same size: " ++ typeStr lt ++ " vs " ++ typeStr rt)
      if op ≠ .add ∧ op ≠ .sub then cerr "BCD only supports + and -"
      pure l
    else if typeIsAggregate l || typeIsAggregate r then
      cerr ("cannot perform arithmetic on aggregate types: " ++ typeStr lt ++ " and " ++ typeStr rt)
      pure (some .u16)
    else if typeIsInteger l && typeIsInteger r then
      if lt ≠ rt then cerr ("operand size mismatch: " ++ typeStr lt ++ " vs " ++ typeStr rt)
      if (op = .mul ∨ op = .smul) ∧ lt = .u16 then pure (some .u32) else pure l
    else pure l

/-- Check the operands of a comparison. -/
def checkCompare (l r : Option Ty) : Compile (Option Ty) :=
  match l, r with
  | some lt, some rt => do
    if typeIsBcd l && typeIsBcd r then
      if lt ≠ rt then
        cerr ("BCD comparison operands must match: " ++ typeStr lt ++ " vs " ++ typeStr rt)
    else if typeIsInteger l && typeIsInteger r then
      if lt ≠ rt then
        cerr ("comparison operand size mismatch: " ++ typeStr lt ++ " vs " ++ typeStr rt)
    else if typeIsAggregate l || typeIsAggregate r then cerr "cannot compare aggregate types"
    pure (some .bool)
  | _, _ => pure (some .bool)

/-! ## Values -/

/-- A virtual register with the type of its value. A far pointer has a second one. -/
structure TypedVreg where
  vreg : Int
  vregSeg : Option Int := none
  type : Option Ty
  deriving DecidableEq, Repr

/-- No value. -/
def noValue : TypedVreg := { vreg := -1, type := none }

/-- A value; the width of a byte or a segment is recorded. -/
def tv (vreg : Int) (type : Option Ty) : Compile TypedVreg := do
  match type with
  | some .u8 => print (.vreg vreg .u8 .plain)
  | some .seg => print (.vreg vreg .seg .plain)
  | _ => pure ()
  pure { vreg, type }

def tvFar (off seg : Int) : Compile TypedVreg :=
  pure { vreg := off, vregSeg := some seg, type := some .far }

def tvPin (vreg : Int) (type : Option Ty) (pin : String) : Compile TypedVreg := do
  let recorded : Ty :=
    match type with
    | some .u8 => .u8
    | some .seg => .seg
    | _ => .u16
  print (.vreg vreg recorded (.pin pin))
  pure { vreg, type }

end Nib.Compile
