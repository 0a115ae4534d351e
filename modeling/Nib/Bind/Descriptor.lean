import Mathlib
import Nib.Bind.Interrupt
import Nib.Bind.Modules
import Nib.Bind.Params

/-!
# Descriptors and their functions

One signature is written twice: `emit_extern_descriptor` writes the `.extern` block through which
indirect calls are made, and `compile_fn` the header of the function. The binder reads both, and
`IR_ICALL`, `IR_NCALL` and `IR_NTAILCALL` place their arguments by the first.
-/

namespace Nib.Bind

/-! ## The declaration -/

structure ParamDecl where
  name : Text
  /-- The type as it is written in the descriptor. -/
  typeText : Text
  isFar : Bool := false
  cls : ParamClass := .word
  place : AbiPlace := .default
  pin : Option Preg := none
  segPin : Option Preg := none

structure ReturnDecl where
  isFar : Bool := false
  isByte : Bool := false
  place : AbiPlace := .default
  pin : Option Preg := none

/-- An `api` function, or a `pub extern` function with a body. -/
structure FnDecl where
  isFar : Bool := false
  dsPolicy : DsPolicy := .unspec
  params : List ParamDecl := []
  returns : List ReturnDecl := []
  preserves : List Preg := []

/-- `effective_param_place`. -/
def ParamDecl.effectivePlace (p : ParamDecl) : AbiPlace :=
  if p.pin.isSome ∨ p.segPin.isSome then .register
  else if p.place ≠ .default then p.place
  else if p.isFar then .stack
  else .default

/-- `effective_return_place`. -/
def ReturnDecl.effectivePlace (r : ReturnDecl) : AbiPlace :=
  if r.pin.isSome then .register
  else if r.place ≠ .default then r.place
  else if r.isFar then .stack
  else .default

/-! ## What the binder reads -/

def stackText : Text := ['s', 't', 'a', 'c', 'k']

def registerText : Text := ['r', 'e', 'g', 'i', 's', 't', 'e', 'r']

/-- `emit_abi_place`. -/
def abiPlaceText : AbiPlace → Text
  | .stack => ',' :: ' ' :: stackText
  | .register => ',' :: ' ' :: registerText
  | .default => []

/-- `parse_abi_place` of a text without a pin. -/
def parseAbiPlace (text : Text) : AbiPlace :=
  if stackText <:+: text then .stack
  else if registerText <:+: text then .register
  else .default

/-- A line with a pin is a register, whatever else it says. -/
def readPlace (text : Text) (pin : Option Preg) : AbiPlace :=
  if pin.isSome then .register else parseAbiPlace text

/-- A parameter of the descriptor. -/
structure EParam where
  place : AbiPlace := .default
  pin : Option Preg := none
  deriving DecidableEq, Repr

/-- An `.eparam` line. The whole line is searched for the place, its type and its name too. -/
def eparam (typeText name : Text) (place : AbiPlace) (pin : Option Preg) : EParam where
  place := readPlace (typeText ++ [',', ' ', '"'] ++ name ++ ['"'] ++ abiPlaceText place) pin
  pin

/-- The `.eparam` lines of a parameter. A far one has two. -/
def externParam (p : ParamDecl) : List EParam :=
  if p.isFar then
    [eparam ['u', '1', '6'] (p.name ++ ['_', 'o', 'f', 'f']) p.effectivePlace p.pin,
      eparam ['s', 'e', 'g'] (p.name ++ ['_', 's', 'e', 'g']) p.effectivePlace p.segPin]
  else [eparam p.typeText p.name p.effectivePlace p.pin]

/-- The class, the place and the pin of a `.param` line. What follows the name is searched for the
place. -/
def fnParam (p : ParamDecl) : List (ParamClass × AbiPlace × Option Preg) :=
  if p.isFar then
    [(.word, readPlace (abiPlaceText p.effectivePlace) p.pin, p.pin),
      (.seg, readPlace (abiPlaceText p.effectivePlace) p.segPin, p.segPin)]
  else [(p.cls, readPlace (abiPlaceText p.effectivePlace) p.pin, p.pin)]

/-- A `.returns` line, which is written and read the same way in both. -/
def readReturn (r : ReturnDecl) : FnReturn where
  isByte := r.isByte
  place := readPlace (abiPlaceText r.effectivePlace) r.pin
  pin := r.pin

/-- A descriptor after it has been read. -/
structure Descriptor where
  isFar : Bool
  dsPolicy : DsPolicy
  params : List EParam
  returns : List FnReturn
  preserves : List Preg

/-- `emit_extern_descriptor`. -/
def FnDecl.descriptor (d : FnDecl) : Descriptor where
  isFar := d.isFar
  dsPolicy := d.dsPolicy
  params := d.params.flatMap externParam
  returns := d.returns.map readReturn
  preserves := d.preserves

/-- The header that `compile_fn` writes. -/
def FnDecl.header (d : FnDecl) : List (ParamClass × AbiPlace × Option Preg) :=
  d.params.flatMap fnParam

/-! ## Indirect calls -/

/-- The calls that are made through a descriptor. -/
inductive IndirectCall
  | icall | ncall | ntailcall
  deriving DecidableEq, Repr

/-- The words of the return address that the called function finds. A tail call leaves that of its
own function. -/
def IndirectCall.addressWords (callerFar : Bool) : IndirectCall → Nat
  | .icall => 2
  | .ncall => 1
  | .ntailcall => if callerFar then 2 else 1

/-- The move that `emit_call_arg_register_moves` plans for an argument in a register. -/
def planMove (actual : Option Preg) (p : EParam) : Option Preg :=
  if p.place = .stack then none
  else
    match p.pin with
    | none => none
    | some expected =>
      match actual with
      | some a => if a = expected ∨ pregsAlias a expected = true then none else some expected
      | none => some expected

/-- The register in which the argument is at the call. -/
def argReg (actual : Option Preg) (p : EParam) : Option Preg :=
  match planMove actual p with
  | some r => some r
  | none => if p.place ≠ .stack ∧ p.pin.isSome ∧ actual = p.pin then p.pin else none

/-- The stack words that an indirect call reserves for arguments and returns, and releases. -/
def IndirectCall.stackWords : IndirectCall → Nat
  | _ => 0

/-- The registers that an indirect call does not save. -/
def Descriptor.calleePreserves (x : Descriptor) (r : Preg) : Bool :=
  x.preserves.contains r || (r == .ds && x.dsPolicy != .unspec)

/-- Where the results of an indirect call are taken from. -/
def Descriptor.returnReg (x : Descriptor) (idx : Nat) : Option Preg :=
  x.returns[idx]?.bind fun r => Bind.returnReg r idx

/-! ## The function -/

/-- Where a function finds a parameter, or leaves a result. -/
inductive AbiSlot
  | reg (r : Option Preg)
  | stack (offset : Nat)
  deriving DecidableEq, Repr

/-- The offset of the first stack slot. -/
def stackBase (isFar : Bool) : Nat := if isFar then 6 else 4

/-- The slots of the parameters, in order. `regs` are the registers of the parameters. -/
def paramSlots (isFar : Bool) (params : List FnParam) (regs : Nat → Option Preg) : List AbiSlot :=
  params.zipIdx.map fun (p, i) =>
    if p.place = .stack then
      .stack (stackBase isFar + 2 * ((params.take i).filter fun q => q.place == .stack).length)
    else .reg (regs i)

/-- The slots of the results. `words` is 2 for a far result. -/
def returnSlots (isFar : Bool) (words : Nat → Nat) (returns : List FnReturn) : List AbiSlot :=
  returns.zipIdx.map fun (r, i) =>
    if r.place = .stack then
      .stack (stackBase isFar + 2 * (((returns.zipIdx.take i).filter fun q =>
        q.1.place == .stack).map fun q => words q.2).sum)
    else .reg (returnReg r i)

/-- The registers that the function gives back: those it does not clobber, and those it saves. -/
def fnPreserves (preserves : List Preg) (collected : Preg → Bool) (dsPolicy : DsPolicy) (r : Preg) :
    Bool :=
  let clobbers := fun r => collected r && !(r == .ds && dsPolicy != .unspec)
  !clobbers r || (preserves.filter clobbers).contains r

end Nib.Bind
