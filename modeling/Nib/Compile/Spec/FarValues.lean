import Nib.Compile.Spec.Machine

/-!
# Far values

A far value has an offset and a segment. They are in two vregs, or in memory where one vreg
points; the readers of a value tell these apart by its second vreg.

* `FarPlace` — where a far value is, and what is read there
* `FarTransfer` — the ways a far value takes, with the lines of each
* `Sound` — both halves arrive
* `KeepsHalves` — when they do
-/

namespace Nib.Compile

open Nib.Infra Compile

/-! ## Places -/

inductive FarPlace
  | pair (off seg : Int)
  /-- Where the vreg points. -/
  | memory (addr : Int)
  /-- An element of an array. -/
  | element (base index : Int)
  /-- The memory of a global. -/
  | global (sym : Symbol)
  /-- The frame slot of a variable whose address is taken. -/
  | slot (vreg : Int)
  deriving DecidableEq, Repr

/-- The offset, and the segment behind it. -/
def readFar (m : Memory) (a : BitVec 16) : BitVec 16 × BitVec 16 :=
  (readWord m a, readWord m (a + 2))

namespace FarPlace

def globalAddr (p : Placement) (sym : Symbol) : BitVec 16 :=
  if sym.hasAt && !sym.isInitData then BitVec.ofInt 16 sym.atOff else p.labelAddr sym.name

/-- What `off` and `seg` of the value are. -/
def read (p : Placement) (s : IrState) : FarPlace → BitVec 16 × BitVec 16
  | pair off seg => (s.vreg off, s.vreg seg)
  | memory addr => readFar s.rest (s.vreg addr)
  | element base index => readFar s.rest (s.vreg base + s.vreg index)
  | global sym => readFar s.rest (globalAddr p sym)
  | slot vreg => readFar s.rest (p.slotAddr vreg)

end FarPlace

def TypedVreg.farPlace (v : TypedVreg) : FarPlace :=
  match v.vregSeg with
  | some seg => .pair v.vreg seg
  | none => .memory v.vreg

/-- Where a far variable is looked for when its name is read. -/
def Symbol.farPlace (sym : Symbol) : FarPlace :=
  if sym.isGlobal then .global sym
  else
    match sym.vregSeg with
    | some seg => .pair sym.vreg seg
    | none => if sym.isStackLocal then .slot sym.vreg else .memory sym.vreg

/-! ## Lines -/

/-- The effect of the lines that move far values. -/
def farExec (p : Placement) : Exec Memory := fun i s =>
  match i with
  | .op .mov [.vreg d, .vreg v] => s.setVreg d (s.vreg v)
  | .op .lea [.vreg d, .vreg v] => s.setVreg d (p.slotAddr v)
  | .op .farOff [.vreg d, .vreg a] => s.setVreg d (readWord s.rest (s.vreg a))
  | .op .farSeg [.vreg d, .vreg a] => s.setVreg d (readWord s.rest (s.vreg a + 2))
  | .op (.binop .add) [.vreg d, .vreg a, .imm n] => s.setVreg d (s.vreg a + BitVec.ofInt 16 n)
  | .op .store [.elem b i, .vreg v] =>
    { s with rest := write false s.rest (s.vreg b + s.vreg i) (s.vreg v) }
  | .op .store [.vreg a, .vreg v] => { s with rest := write false s.rest (s.vreg a) (s.vreg v) }
  | _ => s

/-! ## Transfers -/

/-- The halves of a value in two vregs. -/
def emitHalves (v : TypedVreg) : Compile (Int × Int) :=
  match v.vregSeg with
  | some seg => pure (v.vreg, seg)
  | none => emitFarHalves v.vreg

/-- The part of `emitIndexStore` that stores a far element. -/
def emitFarElement (base index : Int) (v : TypedVreg) : Compile Unit := do
  let (off, seg) ← emitHalves v
  emitOp .store [.elem base index, .vreg off]
  let index2 ← allocVreg
  emitOp (.binop .add) [.vreg index2, .vreg index, .imm 2]
  emitOp .store [.elem base index2, .vreg seg]

/-- The part of `emitStructFieldStore` that stores a far field. -/
def emitFarField (addr : Int) (v : TypedVreg) : Compile Unit := do
  let (off, seg) ← emitHalves v
  emitOp .store [.vreg addr, .vreg off]
  let segAddr ← emitAddrPlusConst addr 2
  emitOp .store [.vreg segAddr, .vreg seg]

inductive FarTransfer
  /-- The initializer of a declared variable. -/
  | init (sym : Symbol)
  /-- The assignment of a variable. -/
  | assign (sym : Symbol)
  | element (base index : Int)
  | field (addr : Int)
  /-- An argument for a far parameter. The call splits it by the type it knows of the
  parameter, if it knows the callee. -/
  | arg (e : Expr) (known : Option Ty)
  /-- An argument of a direct tail call. -/
  | tailArg
  | ret

/-- The symbol of a vreg in the innermost scope. -/
def declared (c : Compiler) (vreg : Int) : Option Symbol :=
  c.scopes.head?.bind fun scope => scope.find? fun s => s.vreg == vreg

/-- A far parameter takes two words. -/
def paramPlace : List Int → Option FarPlace
  | [off, seg] => some (.pair off seg)
  | _ => none

namespace FarTransfer

/-- The lines of a transfer, and where the destination is read. -/
def emit (v : TypedVreg) : FarTransfer → Compile (Option FarPlace)
  | init sym => do
    emitInitStore sym .far v
    let c ← getState
    pure ((declared c sym.vreg).map Symbol.farPlace)
  | assign sym => do
    emitValueStore sym v
    pure (some sym.farPlace)
  | element base index => do
    emitFarElement base index v
    pure (some (.element base index))
  | field addr => do
    emitFarField addr v
    pure (some (.memory addr))
  | arg e known => do
    let words ← splitFarArgs known.toList [(e, v)]
    pure (paramPlace words)
  | tailArg => pure (paramPlace [v.vreg])
  | ret => do
    -- The caller has one vreg for the result.
    emitOp .retval [.vreg v.vreg]
    pure (some (.memory v.vreg))

/-- What is read at the destination is the value. -/
def Keeps (p : Placement) (c : Compiler) (v : TypedVreg) (t : FarTransfer) : Prop :=
  ∃ d, (t.emit v c).value = some d ∧
    ∀ s, d.read p (execAll (farExec p) (t.emit v c).lines s) = v.farPlace.read p s

/-- A transfer that is accepted keeps both halves. -/
def Sound (p : Placement) (c : Compiler) (v : TypedVreg) (t : FarTransfer) : Prop :=
  (t.emit v c).state.errors = c.errors → t.Keeps p c v

end FarTransfer

/-! ## What the compiler keeps -/

/-- A value whose vregs have been handed out. -/
structure TypedVreg.Ready (c : Compiler) (v : TypedVreg) : Prop where
  vreg : v.vreg < c.nextVreg
  vregSeg : ∀ seg, v.vregSeg = some seg → seg < c.nextVreg

/-- A far variable. The second vreg is one of its own, and only variables in vregs have it. -/
structure Symbol.IsFar (c : Compiler) (sym : Symbol) : Prop where
  type : sym.type = some .far
  vreg : sym.vreg < c.nextVreg
  vregSeg : ∀ seg, sym.vregSeg = some seg → seg ≠ sym.vreg
  inMemory : sym.isGlobal = true ∨ sym.isStackLocal = true → sym.vregSeg = none
  isGlobal : sym.isGlobal = true → sym.isStackLocal = false

/-- The operands of a transfer are there. -/
def FarTransfer.Ready (c : Compiler) (v : TypedVreg) : FarTransfer → Prop
  | init sym => declared c sym.vreg = some sym ∧ sym.IsFar c ∧ sym.isGlobal = false ∧
    sym.vregSeg = none ∧ v.vregSeg ≠ some sym.vreg
  | assign sym => sym.IsFar c
  | element base index => base < c.nextVreg ∧ index < c.nextVreg
  | field addr => addr < c.nextVreg
  -- A variable in two vregs is read as these two.
  | arg e _ => v.vregSeg = none → farSymbol c e = none
  | tailArg | ret => True

/-! ## The condition -/

def FarTransfer.KeepsHalves (v : TypedVreg) : FarTransfer → Prop
  | init _ | element _ _ | field _ => True
  | assign sym => sym.isGlobal = false ∧ sym.isStackLocal = false ∧ v.vregSeg = sym.vregSeg
  | arg _ known => known = some .far
  | tailArg => False
  | ret => v.vregSeg = none

end Nib.Compile
