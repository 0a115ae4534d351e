import Nib.Compile.Spec.Machine

/-!
# Elements of arrays

* `ElementAccess` — the ways to an element, with the lines of each
* `ElementAccess.Exact` — the bytes of the element are accessed, all of them and no others
* `ElementAccess.Scales` — when they are
-/

namespace Nib.Compile

open Nib.Infra Compile

/-! ## Accesses that are seen -/

/-- Memory, the addresses of the bytes that are read and written, and the objects of which a bit
field is read. -/
structure SeenMemory where
  mem : Memory
  reads : List (BitVec 16) := []
  writes : List (BitVec 16) := []
  bitFields : List (BitVec 16 × String) := []

abbrev SeenState : Type := MachState SeenMemory

/-- The addresses of `n` bytes. -/
def bytesAt (a : BitVec 16) (n : Nat) : List (BitVec 16) :=
  (List.range n).map fun k => a + BitVec.ofNat 16 k

namespace SeenState

def start (s : IrState) : SeenState := { vreg := s.vreg, flag := s.flag, rest := { mem := s.rest } }

variable (s : SeenState)

def loadWord (d : Int) (a : BitVec 16) : SeenState :=
  { s.setVreg d (readWord s.rest.mem a) with
    rest := { s.rest with reads := s.rest.reads ++ bytesAt a 2 } }

def loadByte (d : Int) (a : BitVec 16) : SeenState :=
  { s.setVreg d (zeroExtend (s.rest.mem a)) with
    rest := { s.rest with reads := s.rest.reads ++ bytesAt a 1 } }

def store (byte : Bool) (a x : BitVec 16) : SeenState :=
  { s with
    rest := { s.rest with
      mem := write byte s.rest.mem a x
      writes := s.rest.writes ++ bytesAt a (if byte then 1 else 2) } }

end SeenState

/-- The effect of the lines of an access. How a bit field is taken from its object is a
parameter. -/
def elementExec (bits : String → Memory → BitVec 16 → BitVec 16) : Exec SeenMemory := fun i s =>
  match i with
  | .op .mov [.vreg d, .vreg a] => s.setVreg d (s.vreg a)
  | .op (.binop .shl) [.vreg d, .vreg a, .imm n] => s.setVreg d (s.vreg a <<< n.toNat)
  | .op (.binop .add) [.vreg d, .vreg a, .vreg b] => s.setVreg d (s.vreg a + s.vreg b)
  | .op (.binop .add) [.vreg d, .vreg a, .imm n] => s.setVreg d (s.vreg a + BitVec.ofInt 16 n)
  | .op .load [.vreg d, .elem b i] => SeenState.loadWord s d (s.vreg b + s.vreg i)
  | .op .loadb [.vreg d, .elem b i] => SeenState.loadByte s d (s.vreg b + s.vreg i)
  | .op .load [.vreg d, .vreg a] | .op .farOff [.vreg d, .vreg a] =>
    SeenState.loadWord s d (s.vreg a)
  | .op .loadb [.vreg d, .vreg a] => SeenState.loadByte s d (s.vreg a)
  | .op .farSeg [.vreg d, .vreg a] => SeenState.loadWord s d (s.vreg a + 2)
  | .op .store [.elem b i, .vreg v] => SeenState.store s false (s.vreg b + s.vreg i) (s.vreg v)
  | .op .storeb [.elem b i, .vreg v] => SeenState.store s true (s.vreg b + s.vreg i) (s.vreg v)
  | .op .field [.vreg d, .vreg o, .name f] =>
    { s.setVreg d (bits f s.rest.mem (s.vreg o)) with
      rest := { s.rest with bitFields := s.rest.bitFields ++ [(s.vreg o, f)] } }
  | _ => s

/-! ## Ways to an element -/

/-- An element of an array. The vregs hold where the array starts, and the index. -/
structure Element where
  base : Int
  index : Int
  type : Ty
  length : Int

namespace Element

variable (e : Element)

/-- The part of `emitIndex` after the array and the index. -/
def emitLoad : Compile TypedVreg := do
  let scaledIdx ← emitScaledIndex e.index (elemShift e.type)
  let dst ← allocVreg
  if e.type = .far then
    let addr ← allocVreg
    emitOp (.binop .add) [.vreg addr, .vreg e.base, .vreg scaledIdx]
    let (offV, segV) ← emitFarHalves addr
    tvFar offV segV
  else if typeIsAggregate (some e.type) then
    emitOp (.binop .add) [.vreg dst, .vreg e.base, .vreg scaledIdx]
    tv dst (some e.type)
  else
    emitOp (loadOp (some e.type)) [.vreg dst, .elem e.base scaledIdx]
    tv dst (some e.type)

/-- The part of `emitCheckedIndex` after the array and the index. -/
def emitChecked : Compile TypedVreg := do
  let scaledIdx ← emitScaledIndex e.index (elemShift e.type)
  let dst ← allocVreg
  emitOp .bound [.vreg e.index, .imm (checkedLength (some (.array e.type e.length)))]
  emitOp (loadOp (some e.type)) [.vreg dst, .elem e.base scaledIdx]
  tv dst (some e.type)

/-- The part of `emitIndexStore` after the array and the index. -/
def emitStore (val : TypedVreg) : Compile Unit := do
  let scaledIdx ← emitScaledIndex e.index (elemShift e.type)
  if e.type = .far then
    let (offV, segV) ←
      match val.vregSeg with
      | some segV => pure (val.vreg, segV)
      | none => emitFarHalves val.vreg
    emitOp .store [.elem e.base scaledIdx, .vreg offV]
    let sidx2 ← allocVreg
    emitOp (.binop .add) [.vreg sidx2, .vreg scaledIdx, .imm 2]
    emitOp .store [.elem e.base sidx2, .vreg segV]
  else emitOp (storeOp (some e.type)) [.elem e.base scaledIdx, .vreg val.vreg]

/-- Where the element lies. -/
def addr (c : Compiler) (s : IrState) : BitVec 16 :=
  s.vreg e.base + s.vreg e.index * BitVec.ofInt 16 (typeSize c e.type)

def InBounds (s : IrState) : Prop := ((s.vreg e.index).toNat : Int) < e.length

/-- The vregs have been handed out. -/
structure Ready (c : Compiler) : Prop where
  base : e.base < c.nextVreg
  index : e.index < c.nextVreg

end Element

inductive ElementAccess
  | load
  | checked
  | store (val : TypedVreg)
  | address
  | field (name : String)

namespace ElementAccess

/-- The lines, and the value of what is not a store. -/
def emit (e : Element) : ElementAccess → Compile TypedVreg
  | load => e.emitLoad
  | checked => e.emitChecked
  | store val => do
    e.emitStore val
    pure noValue
  | address => emitUnopValue .addr e.emitLoad
  | field name => emitField (.plain e.emitLoad) name

/-- The operands have been handed out. -/
def Ready (c : Compiler) : ElementAccess → Prop
  | store val => val.vreg < c.nextVreg ∧ ∀ seg, val.vregSeg = some seg → seg < c.nextVreg
  | _ => True

end ElementAccess

/-! ## Exact accesses -/

/-- The value of one of these is where it lies. -/
def byReference : Option Ty → Bool
  | some (.array ..) | some (.bcd _) | some (.struct _) => true
  | _ => false

/-- The bytes in the vregs of a value. -/
def TypedVreg.bytes (v : TypedVreg) (vreg : Int → BitVec 16) : List (BitVec 8) :=
  (v.vreg :: v.vregSeg.toList).flatMap fun r => [low (vreg r), high (vreg r)]

/-- The value of an object of a type that lies at an address. -/
def DeliversObject (c : Compiler) (type : Option Ty) (a : BitVec 16) (m : Memory) (v : TypedVreg)
    (t : SeenState) : Prop :=
  let n := (typeSizeOpt c type).toNat
  if byReference type then t.rest = { mem := m } ∧ t.vreg v.vreg = a
  else t.rest = { mem := m, reads := bytesAt a n } ∧
    (v.bytes t.vreg).take n = (bytesAt a n).map m

/-- The value of a field of the object at an address. -/
def DeliversField (bits : String → Memory → BitVec 16 → BitVec 16) (c : Compiler) (name : String)
    (fl : FieldLayout) (a : BitVec 16) (m : Memory) (v : TypedVreg) (t : SeenState) : Prop :=
  if fl.isBits then
    t.rest = { mem := m, bitFields := [(a, name)] } ∧ t.vreg v.vreg = bits name m a
  else DeliversObject c fl.storageType (a + BitVec.ofInt 16 fl.byteOffset) m v t

/-- Memory after the bytes have been written one after another. -/
def writeBytes (m : Memory) (a : BitVec 16) : List (BitVec 8) → Memory
  | [] => m
  | x :: xs => writeBytes (fun b => if b = a then x else m b) (a + 1) xs

/-- Where the bytes of a value are, if they are in memory. -/
def TypedVreg.source (v : TypedVreg) (type : Ty) (s : IrState) : Option (BitVec 16) :=
  if byReference (some type) = true ∨ (type = .far ∧ v.vregSeg = none) then some (s.vreg v.vreg)
  else none

/-- A value is stored to an object of a type. -/
def StoresObject (c : Compiler) (type : Ty) (a : BitVec 16) (v : TypedVreg) (s : IrState)
    (t : SeenState) : Prop :=
  let n := (typeSize c type).toNat
  match v.source type s with
  | some b => t.rest =
    { mem := writeBytes s.rest a ((bytesAt b n).map s.rest), reads := bytesAt b n,
      writes := bytesAt a n }
  | none => t.rest =
    { mem := writeBytes s.rest a ((v.bytes s.vreg).take n), writes := bytesAt a n }

namespace ElementAccess

variable (bits : String → Memory → BitVec 16 → BitVec 16) (c : Compiler) (e : Element)

/-- The layout of a field of the element. -/
def fieldOf (name : String) : Option FieldLayout :=
  (structFieldLayout (some e.type) name false c).value

/-- The access is one of the element, whatever the array and the index are. -/
def Exact (x : ElementAccess) : Prop :=
  ∀ s : IrState, e.InBounds s →
    let v := (x.emit e c).value
    let t := execAll (elementExec bits) (x.emit e c).lines (SeenState.start s)
    match x with
    | load | checked => DeliversObject c (some e.type) (e.addr c s) s.rest v t
    | store val => StoresObject c e.type (e.addr c s) val s t
    | address => t.rest = { mem := s.rest } ∧ t.vreg v.vreg = e.addr c s
    | field name => ∀ fl, fieldOf c e name = some fl →
      DeliversField bits c name fl (e.addr c s) s.rest v t

end ElementAccess

/-! ## The condition -/

/-- A vreg, or two of them, hold a value of the type, and an index is shifted by its size. -/
def IsShifted : Ty → Prop
  | .u8 | .u16 | .seg | .far => True
  | _ => False

namespace Element

variable (c : Compiler) (e : Element)

/-- An index that is not scaled makes no difference. -/
def Unscaled : Prop := e.length ≤ 1 ∨ typeSize c e.type % 65536 = 1

end Element

/-- A field that can be read. -/
def FieldLayout.IsRead (fl : FieldLayout) : Prop :=
  fl.isBits = true ∨ byReference fl.storageType = true ∨
    ∃ t, fl.storageType = some t ∧ IsShifted t

def ElementAccess.Scales (c : Compiler) (e : Element) (x : ElementAccess) : Prop :=
  e.length ≤ 0 ∨
    match x with
    | load => IsShifted e.type ∨ (byReference (some e.type) = true ∧ e.Unscaled c)
    | checked => IsShifted e.type ∧ e.type ≠ .far
    | store _ => IsShifted e.type
    | address => byReference (some e.type) = true ∧ e.Unscaled c
    | field name => ∀ fl, fieldOf c e name = some fl → e.Unscaled c ∧ fl.IsRead

end Nib.Compile
