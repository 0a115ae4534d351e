import Nib.Compile.Spec.Elements
import Nib.Compile.Spec.FarValues

/-!
# Addresses of operands

* `AddrOperand` — what an address is taken of, with the lines
* `AddrOperand.storage` — where a direct access finds it
* `AddrOperand.TakesAddress` — the value is that address
* `AddrOperand.HasAddress` — when it is
-/

namespace Nib.Compile

open Nib.Infra Compile

/-! ## Segments -/

/-- The segments of labels and of the data. That of the stack is printed like a label. -/
structure Segments where
  segOf : String → BitVec 16
  ds : BitVec 16

/-- A global with `at()` has its label there. -/
def Placement.PutsAt (p : Placement) (c : Compiler) : Prop :=
  ∀ name sym, symLookup c name = some sym → sym.hasAt = true → sym.isInitData = false →
    p.labelAddr sym.name = BitVec.ofInt 16 sym.atOff

/-- The effect of the lines that take an address, and of those that access an element. -/
def addrExec (p : Placement) (g : Segments) (bits : String → Memory → BitVec 16 → BitVec 16) :
    Exec SeenMemory := fun i s =>
  match i with
  | .op .mov [.vreg d, .name l] => s.setVreg d (p.labelAddr l)
  | .op .mov [.vreg d, .segOf l] => s.setVreg d (g.segOf l)
  | .op .mov [.vreg d, .hex n] => s.setVreg d (BitVec.ofInt 16 n)
  | .op .lea [.vreg d, .vreg v] => s.setVreg d (p.slotAddr v)
  | .op .loadmem [.vreg d, .mem (.abs off)] => SeenState.loadWord s d (BitVec.ofInt 16 off)
  | .op .loadmem [.vreg d, .mem (.sym l)] => SeenState.loadWord s d (p.labelAddr l)
  | _ => elementExec bits i s

/-! ## Operands -/

inductive AddrOperand
  | name (n : String)
  | element (e : Element)
  /-- A field of the structure that a vreg points to. -/
  | field (obj : Int) (struct name : String)

/-- A segment and an offset. -/
structure Storage where
  seg : BitVec 16
  off : BitVec 16

/-- A variable in vregs is nowhere in memory. A vreg holds where an aggregate is. -/
def Symbol.storage (p : Placement) (g : Segments) (s : IrState) (sym : Symbol) : Option Storage :=
  if sym.isGlobal then some ⟨g.segOf sym.name, FarPlace.globalAddr p sym⟩
  else if sym.vregSeg.isSome then none
  else if sym.isStackLocal then some ⟨p.labelAddr "SS", p.slotAddr sym.vreg⟩
  else if typeIsAggregate sym.type then some ⟨g.ds, s.vreg sym.vreg⟩
  else none

/-- The layout of a field of a structure. -/
def structField (c : Compiler) (struct name : String) : Option FieldLayout :=
  (structFieldLayout (some (.struct struct)) name false c).value

namespace AddrOperand

/-- `&` or `@`. -/
def addrOp (far : Bool) : UnopKind := if far then .farAddr else .addr

/-- The address of the operand, near or far. -/
def emit (far : Bool) : AddrOperand → Compile TypedVreg
  | name n => emitUnopTyped (addrOp far) (.ident n) (.plain (emitIdent n))
  | element e => emitUnopValue (addrOp far) e.emitLoad
  | field obj struct fieldName =>
    emitUnopValue (addrOp far)
      (emitStructFieldValue { vreg := obj, type := some (.struct struct) } fieldName false)

/-- Where a direct access finds the operand. A bit field has no address. -/
def storage (c : Compiler) (p : Placement) (g : Segments) (s : IrState) :
    AddrOperand → Option Storage
  | name n =>
    if isIsr c n then some ⟨g.segOf n, p.labelAddr n⟩
    else
      match symLookup c n with
      | some sym => sym.storage p g s
      | none => if (findFunction c n).isSome then some ⟨g.segOf n, p.labelAddr n⟩ else none
  | element e => some ⟨g.ds, e.addr c s⟩
  | field obj struct fieldName =>
    match structField c struct fieldName with
    | some fl =>
      if fl.isBits then none else some ⟨g.ds, s.vreg obj + BitVec.ofInt 16 fl.byteOffset⟩
    | none => none

/-- The states in which the operand is there. -/
def Present (s : IrState) : AddrOperand → Prop
  | element e => e.InBounds s
  | _ => True

/-- The operands have been handed out. -/
def Ready (c : Compiler) : AddrOperand → Prop
  | element e => e.Ready c
  | field obj _ _ => obj < c.nextVreg
  | name _ => True

/-- No error is reported. -/
def Accepted (c : Compiler) (far : Bool) (x : AddrOperand) : Prop :=
  (x.emit far c).state.errors = c.errors

/-- Wherever the objects lie, the value is the offset of the operand, and a far one has its segment
as well. -/
def TakesAddress (bits : String → Memory → BitVec 16 → BitVec 16) (c : Compiler) (far : Bool)
    (x : AddrOperand) : Prop :=
  ∀ p g s, Placement.PutsAt p c → x.Present s →
    let v := (x.emit far c).value
    let t := execAll (addrExec p g bits) (x.emit far c).lines (SeenState.start s)
    ∃ a, x.storage c p g s = some a ∧ t.vreg v.vreg = a.off ∧
      (far = true → ∃ seg, v.vregSeg = some seg ∧ t.vreg seg = a.seg)

/-! ## The condition -/

/-- A name that a function has too is the function under `&` and `@`, and the variable elsewhere. -/
def NotShadowed (c : Compiler) (n : String) : Prop :=
  isIsr c n = true ∨ ∀ sym, symLookup c n = some sym → sym.isGlobal = true

/-- A variable in the frame, which is found by its name. -/
def InFrame (c : Compiler) (n : String) (sym : Symbol) : Prop :=
  isIsr c n = false ∧ sym.isGlobal = false ∧ sym.vregSeg = none

def HasAddress (c : Compiler) (far : Bool) : AddrOperand → Prop
  | name n =>
    if (findFunction c n).isSome then NotShadowed c n
    else
      match symLookup c n with
      | none => isIsr c n = true
      | some sym =>
        if sym.isStackLocal then InFrame c n sym
        else
          isIsr c n = true ∨ far = true ∨
            if sym.isGlobal then typeIsScalar sym.type = false
            else sym.vregSeg = none ∧ typeIsAggregate sym.type = true
  | element e =>
    e.length ≤ 0 ∨ (far = false ∧ byReference (some e.type) = true ∧ e.Unscaled c)
  | field _ struct fieldName =>
    far = false ∧ ∃ fl, structField c struct fieldName = some fl ∧ fl.isBits = false ∧
      byReference fl.storageType = true

end AddrOperand

end Nib.Compile
