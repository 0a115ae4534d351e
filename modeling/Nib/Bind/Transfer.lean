import Nib.Bind.Ir
import Nib.Bind.Modules

/-!
# Direct calls and jumps between functions

The form in which `emit_function` prints each of them, by what is known of the target.

* `callForm`, `tailForms`, `gotoForm` — `IR_CALL` and `IR_MCALL`, `IR_TAILCALL`, `IR_GOTO_FN`
* `TransferFn.pops` — the instruction that `emit_epilogue` ends a function with
-/

namespace Nib.Bind

/-- A segment and an offset. -/
structure Place where
  segment : Int
  offset : Int
  segment_range : 0 ≤ segment ∧ segment < 65536
  offset_range : 0 ≤ offset ∧ offset < 65536

/-- The place that a segment and an offset are printed for. -/
def Place.At (p : Place) (a : Int × Int) : Prop :=
  p.segment = a.1 % 65536 ∧ p.offset = a.2 % 65536

/-- A function. `at` is `has_at` with its segment and offset, and `place` is where its label
comes to be. -/
structure TransferFn where
  name : Text
  func : Func
  isFar : Bool := false
  isInterrupt : Bool := false
  isBare : Bool := false
  atPlace : Option (Int × Int) := none
  emitSeg : Int := -1
  place : Place
  placed : ∀ a, atPlace = some a → place.At a

/-- An extern, with its address if it has one. -/
structure TransferExt where
  name : Text
  isFar : Bool := false
  address : Option (Int × Int) := none
  place : Place
  placed : ∀ a, address = some a → place.At a

structure TransferProgram where
  functions : List TransferFn
  externs : List TransferExt := []

/-- How a call or a jump is printed: with a label, as near or far, or with an address. -/
inductive Form
  | near
  | far
  | farAt (seg off : Int)
  deriving DecidableEq, Repr

/-- A return address, or what a return instruction pops. -/
inductive Shape
  | near | far | interrupt
  deriving DecidableEq, Repr

def Form.pushes : Form → Shape
  | .near => .near
  | .far | .farAt .. => .far

def TransferFn.pops (f : TransferFn) : Shape :=
  if f.isInterrupt then .interrupt else if f.isFar then .far else .near

def TransferExt.pops (e : TransferExt) : Shape := if e.isFar then .far else .near

namespace TransferProgram

variable (p : TransferProgram)

def findFn (name : Text) : Option TransferFn := p.functions.find? fun f => f.name == name

def findExtern (name : Text) : Option TransferExt := p.externs.find? fun e => e.name == name

def farFn (name : Text) : Bool := (p.findFn name).any TransferFn.isFar

/-- A call of a function, or of an extern without an address. -/
def callFnForm (name : Text) : Form := if p.farFn name then .far else .near

def callForm (name : Text) : Form :=
  match p.findExtern name with
  | some e =>
    match e.address with
    | some (seg, off) => .farAt seg off
    | none => p.callFnForm name
  | none => p.callFnForm name

/-- The jumps printed for a tail call. Behind a jump to an address stands another one. -/
def tailForms (name : Text) : List Form :=
  if p.farFn name then [.far]
  else
    match p.findExtern name with
    | some e =>
      match e.address with
      | some (seg, off) => [.farAt seg off, .near]
      | none => [if e.isFar then .far else .near]
    | none => [.near]

/-- Both functions have a segment, and not the same one. -/
def crossesSegments (c f : TransferFn) : Bool :=
  decide (c.emitSeg ≥ 0) && decide (f.emitSeg ≥ 0) && decide (c.emitSeg ≠ f.emitSeg)

def gotoForm (c : TransferFn) (name : Text) : Form :=
  match p.findFn name with
  | some f =>
    match f.atPlace with
    | some (seg, off) => .farAt seg off
    | none => if f.isFar || crossesSegments c f then .far else .near
  | none =>
    match p.findExtern name with
    | some e =>
      match e.address with
      | some (seg, off) => .farAt seg off
      | none => if e.isFar then .far else .near
    | none => .near

/-- What is printed for an instruction of `c`. -/
def transferForms (c : TransferFn) (ins : Insn) : List Form :=
  match ins.op with
  | .call | .mcall => [p.callForm ins.name.toList]
  | .tailcall => p.tailForms ins.name.toList
  | .gotoFn => [p.gotoForm c ins.name.toList]
  | _ => []

end TransferProgram

end Nib.Bind
