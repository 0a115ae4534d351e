import Nib.Bind.Descriptor

/-!
# What parameter registers are for

Every parameter that is passed in a register has one of its class, its pin where it has one, and the
registers of two parameters do not overlap. The preferences fit when each of them that is followed
respects this.

A descriptor agrees with its function when an indirect call finds the parameters where the function
expects them.

* `Implements` — a function that has been compiled from a declaration
* `Agrees` — what an indirect call relies on
* `Reachable` — the declarations and the calls for which it holds
-/

namespace Nib.Bind

def Preg.cls : Preg → Option ParamClass
  | .ax | .cx | .dx | .bx | .sp | .bp | .si | .di => some .word
  | .al | .cl | .dl | .bl | .ah | .ch | .dh | .bh => some .byte
  | .es | .cs | .ss | .ds => some .seg
  | .flags => none

/-- A register of the class of the parameter, and its pin if it has one. -/
structure FnParam.Takes (p : FnParam) (r : Preg) : Prop where
  cls : r.cls = some p.cls
  pin : ∀ pin, p.pin = some pin → r = pin

structure ParamsSound (params : List FnParam) (regs : Nat → Option Preg) : Prop where
  given : ∀ i p, params[i]? = some p → p.place ≠ .stack → ∃ r, regs i = some r ∧ p.Takes r
  apart : ∀ i j, i ≠ j → ∀ r r', regs i = some r → regs j = some r' → pregsAlias r r' = false

/-- The parameter may take the register in this state: neither half of it is in use. -/
structure Fits (s : ParamRegs) (p : FnParam) (r : Preg) : Prop where
  takes : p.Takes r
  halves : ∀ h, r.aliasLo = some h ∨ r.aliasHi = some h → s.used h = false

/-- Wherever a preference is followed it fits, and the parameters that are left have no pin and are
bytes or words, as their vregs are. -/
structure PreferencesFit (vregs : VregTable) (params : List FnParam) (insns : List Insn) :
    Prop where
  honored : ∀ before p after, params.zipIdx = before ++ p :: after → p.1.place ≠ .stack →
    ∀ r, (vregs p.1.vreg).prefer = some r →
      (before.foldl (ParamRegs.honor vregs) {}).used r = false →
        Fits (before.foldl (ParamRegs.honor vregs) {}) p.1 r
  followed : ∀ before w after, ParamRegs.copyWishes vregs params insns = before ++ w :: after →
    let s := before.foldl ParamRegs.follow (params.zipIdx.foldl (ParamRegs.honor vregs) {})
    s.regs w.2 = none → s.used w.1 = false → ∀ p, params[w.2]? = some p → Fits s p w.1
  left : ∀ i p, params[i]? = some p → p.place ≠ .stack →
    (ParamRegs.preferred vregs params insns).regs i = none →
      p.pin = none ∧ p.cls = if (vregs p.vreg).isByte then .byte else .word

/-! ## Functions of a declaration -/

/-- The function has the header of the declaration, and the parser lets the vreg of a pinned
parameter prefer its pin. -/
structure Implements (d : FnDecl) (fn : BindFn) : Prop where
  params : fn.params.map (fun p => (p.cls, p.place, p.pin)) = d.header
  returns : fn.returns = d.returns.map readReturn
  prefer : ∀ p ∈ fn.params, ∀ r, p.pin = some r → (fn.vregs p.vreg).prefer = some r

/-! ## Agreement -/

def AbiSlot.isStack : AbiSlot → Bool
  | .stack _ => true
  | .reg _ => false

def stackSlots (slots : List AbiSlot) : Nat := slots.countP AbiSlot.isStack

/-- An indirect call of a function through the descriptor, from arguments in the given registers. -/
structure Agrees (d : FnDecl) (fn : BindFn) (regs : Nat → Option Preg) (collected : Preg → Bool)
    (words : Nat → Nat) (call : IndirectCall) (callerFar : Bool) (actual : List (Option Preg)) :
    Prop where
  /-- Every argument is where the function finds its parameter. -/
  args : ((actual.zip d.descriptor.params).map fun a => AbiSlot.reg (argReg a.1 a.2)) =
    paramSlots d.isFar fn.params regs ∧ actual.length = d.descriptor.params.length
  given : ∀ a ∈ actual.zip d.descriptor.params, (argReg a.1 a.2).isSome
  /-- No argument overwrites another one. -/
  apart : ∀ i j : Nat, i ≠ j → ∀ x y, d.descriptor.params[i]? = some x →
    d.descriptor.params[j]? = some y → ∀ r r', x.pin = some r → y.pin = some r' →
    pregsAlias r r' = false
  /-- Every result is where the function leaves it. -/
  returns : ∀ i : Nat, i < fn.returns.length → ∃ r, d.descriptor.returnReg i = some r ∧
    (returnSlots d.isFar words fn.returns)[i]? = some (.reg (some r))
  /-- The call reserves the stack words of the function, and its return address. -/
  stack : call.stackWords = stackSlots (paramSlots d.isFar fn.params regs) +
    stackSlots (returnSlots d.isFar words fn.returns)
  address : call.addressWords callerFar = if d.isFar then 2 else 1
  preserves : ∀ r, d.descriptor.calleePreserves r = true →
    fnPreserves d.preserves collected d.dsPolicy r = true

/-! ## The condition -/

/-- The parameters as the lines of the header have them. -/
def FnDecl.pins (d : FnDecl) : List (Option Preg) := d.header.map fun p => p.2.2

/-- All parameters have pins that do not overlap, all results are in registers, the call is of the
kind of the function, and the arguments are either in their pins or in registers that do not
overlap them. -/
structure Reachable (d : FnDecl) (call : IndirectCall) (callerFar : Bool)
    (actual : List (Option Preg)) : Prop where
  pinned : ∀ p ∈ d.pins, p.isSome
  apart : ∀ i j : Nat, i ≠ j → ∀ r r', d.pins[i]? = some (some r) → d.pins[j]? = some (some r') →
    pregsAlias r r' = false
  returns : ∀ (i : Nat) r, d.returns[i]? = some r →
    r.effectivePlace ≠ .stack ∧ (r.pin.isSome ∨ i < 4)
  address : call.addressWords callerFar = if d.isFar then 2 else 1
  length : actual.length = d.pins.length
  actual : ∀ (i : Nat) a r, actual[i]? = some (some a) → d.pins[i]? = some (some r) →
    a = r ∨ pregsAlias a r = false

end Nib.Bind
