import Nib.Compile.Types

/-!
# Memory operands

Direct addresses, loads and stores through pointers, stack locals and structure fields.
-/

namespace Nib.Compile

open Compile

/-! ## Direct addresses -/

/-- The registers and the displacement of an address. -/
structure AddrParts where
  base : Option Nat := none
  index : Option Nat := none
  disp : Int := 0
  hasDisp : Bool := false

def addrAddReg (p : AddrParts) (reg : Nat) : Option AddrParts :=
  if reg = wregBx ∨ reg = wregBp then
    if p.base.isSome then none else some { p with base := some reg }
  else if reg = wregSi ∨ reg = wregDi then
    if p.index.isSome then none else some { p with index := some reg }
  else none

def addrAddDisp (p : AddrParts) (n : Int) : AddrParts :=
  { p with disp := toInt32 (p.disp + n), hasDisp := true }

/-- Split an address into registers and a displacement. -/
def addrCollect (c : Compiler) (e : Expr) (p : AddrParts) : Option AddrParts :=
  match evalConstExpr c e with
  | some cv => some (addrAddDisp p cv)
  | none =>
    match e with
    | .reg id isByte => if isByte then none else addrAddReg p id
    | .cast operand _ => addrCollect c operand p
    | .binop .add l r => (addrCollect c l p).bind fun p' => addrCollect c r p'
    | .binop .sub l r =>
      match evalConstExpr c r with
      | none => none
      | some rv => (addrCollect c l p).map fun p' => addrAddDisp p' (-rv)
    | _ => none

/-- The lower 16 bits of a number. -/
def mask16 (n : Int) : Int := n % 65536

/-- An address that can be written in brackets without loading a pointer first. -/
def formatDirectAddr (c : Compiler) (e : Expr) (seg : Option Nat) : Option MemRef :=
  let collected := (addrCollect c e {}).map fun p =>
    MemRef.regs seg p.base p.index
      (if p.hasDisp || (p.base.isNone && p.index.isNone) then some (mask16 p.disp) else none)
  match e, seg with
  | .farLit s o, none => some (.far (mask16 s) (mask16 o))
  | _, _ => collected

/-! ## Loads and stores through pointers -/

def isContextualMemLoadType : Option Ty → Bool
  | some .u8 | some .u16 | some .seg => true
  | _ => false

/-- The type a memory load takes from its context. -/
def loadTypeFor (target : Option Ty) : Option Ty :=
  if isContextualMemLoadType target then target else some .u8

def derefTypeError (type : Option Ty) : Compile Unit :=
  cerr ("pointer dereference requires u16 or far32, got " ++ typeStrOpt type)

/-- The offset and segment vregs of a far pointer that lies in memory. -/
def emitFarHalves (vreg : Int) : Compile (Int × Int) := do
  let off ← allocVreg
  let seg ← allocVreg
  emitOp .farOff [.vreg off, .vreg vreg]
  emitOp .farSeg [.vreg seg, .vreg vreg]
  pure (off, seg)

/-- Access memory through a pointer: `operands` puts the address operands around the value. -/
def emitDerefAccess (op : Op) (operands : List Arg → List Arg) (seg : Option Nat)
    (ptr : TypedVreg) : Compile Unit := do
  if ptr.type = some .far then
    match seg with
    | some segId => emitOp op (operands [.vreg ptr.vreg, .name (sregName segId)])
    | none =>
      match ptr.vregSeg with
      | some vregSeg => emitOp op (operands [.vreg ptr.vreg, .vreg vregSeg])
      | none =>
        let (offV, segV) ← emitFarHalves ptr.vreg
        emitOp op (operands [.vreg offV, .vreg segV])
  else if ptr.type.isNone || typeIsInteger ptr.type then
    if ptr.type.isSome && ptr.type ≠ some .u16 then derefTypeError ptr.type
    if seg = none ∨ seg = some sregDs then emitOp op (operands [.vreg ptr.vreg])
    else if seg = some sregCs then
      print (.vreg ptr.vreg .u16 .csref)
      emitOp op (operands [.vreg ptr.vreg])
    else emitOp op (operands [.vreg ptr.vreg, .name (sregName (seg.getD 0))])
  else derefTypeError ptr.type

def emitDerefLoad (ptrExpr : Expr) (seg : Option Nat) (emitPtr : Compile TypedVreg)
    (target : Option Ty) : Compile TypedVreg := do
  let loadType := loadTypeFor target
  let dst ← allocVreg
  let c ← getState
  match formatDirectAddr c ptrExpr seg with
  | some addr =>
    emitOp .loadmem [.vreg dst, .mem addr]
    tv dst loadType
  | none =>
    let ptr ← emitPtr
    emitDerefAccess .loadmem (fun addr => .vreg dst :: addr) seg ptr
    tv dst loadType

def emitDerefStore (ptrExpr : Expr) (seg : Option Nat) (emitPtr : Compile TypedVreg)
    (val : TypedVreg) : Compile Unit := do
  let c ← getState
  match formatDirectAddr c ptrExpr seg with
  | some addr => emitOp .storemem [.mem addr, .vreg val.vreg]
  | none =>
    let ptr ← emitPtr
    emitDerefAccess .storemem (fun addr => addr ++ [.vreg val.vreg]) seg ptr

/-! ## Stack locals -/

/-- Byte or word load. -/
def loadOp (type : Option Ty) : Op := if type = some .u8 then .loadb else .load

/-- Byte or word store. -/
def storeOp (type : Option Ty) : Op := if type = some .u8 then .storeb else .store

def emitStackAddr (sym : Symbol) : Compile Int := do
  let dst ← allocVreg
  emitOp .lea [.vreg dst, .vreg sym.vreg]
  pure dst

def emitStackLocalValue (sym : Symbol) : Compile TypedVreg := do
  let addr ← emitStackAddr sym
  if typeIsAggregate sym.type then tv addr sym.type
  else if !typeIsInteger sym.type then
    cerr ("cannot load stack local '" ++ sym.name ++ "' of type " ++ typeStrOpt sym.type)
    tv addr sym.type
  else
    let dst ← allocVreg
    emitOp (loadOp sym.type) [.vreg dst, .vreg addr]
    tv dst sym.type

/-- Move a word into a fresh segment vreg. -/
def emitSegMove (seg : Int) (segTmp : Int) : Compile Unit := do
  print (.vreg seg .seg .plain)
  emitOp .mov [.vreg seg, .vreg segTmp]

def emitStackFarAddr (sym : Symbol) : Compile TypedVreg := do
  let off ← emitStackAddr sym
  let segTmp ← allocVreg
  let seg ← allocVreg
  emitOp .mov [.vreg segTmp, .name "SS"]
  emitSegMove seg segTmp
  tvFar off seg

/-- The far address of a label. -/
def emitFarLabel (name : String) : Compile TypedVreg := do
  let segTmp ← allocVreg
  let seg ← allocVreg
  let off ← allocVreg
  emitOp .mov [.vreg segTmp, .segOf name]
  emitSegMove seg segTmp
  emitOp .mov [.vreg off, .name name]
  tvFar off seg

/-! ## Structure fields -/

def emitAddrPlusConst (base : Int) (offset : Int) : Compile Int := do
  if offset = 0 then pure base
  else
    let addr ← allocVreg
    emitOp (.binop .add) [.vreg addr, .vreg base, .imm offset]
    pure addr

def emitStructFieldValue (obj : TypedVreg) (fieldName : String) (rawAccess : Bool) :
    Compile TypedVreg := do
  if obj.type = some .far then
    cerr "use backtick for far components: ptr`seg, ptr`off"
    let v ← allocVreg
    tv v (some .u16)
  else
    let layout ← structFieldLayout obj.type fieldName rawAccess
    match layout with
    | none =>
      let v ← allocVreg
      tv v (some .u16)
    | some fl =>
      if fl.isBits then
        let dst ← allocVreg
        emitOp .field [.vreg dst, .vreg obj.vreg, .name fieldName]
        tv dst fl.accessType
      else
        let addr ← emitAddrPlusConst obj.vreg fl.byteOffset
        if fl.storageType = some .far then
          let offV ← allocVreg
          let segTmp ← allocVreg
          let segV ← allocVreg
          emitOp .load [.vreg offV, .vreg addr]
          let segAddr ← emitAddrPlusConst addr 2
          emitOp .load [.vreg segTmp, .vreg segAddr]
          emitSegMove segV segTmp
          tvFar offV segV
        else if typeIsAggregate fl.storageType then tv addr fl.accessType
        else
          let dst ← allocVreg
          emitOp (loadOp fl.storageType) [.vreg dst, .vreg addr]
          tv dst fl.accessType

def emitStructFieldStore (emitObject : Compile TypedVreg) (fieldName : String)
    (val : TypedVreg) : Compile Unit := do
  let obj ← emitObject
  let layout ← structFieldLayout obj.type fieldName false
  match layout with
  | none => pure ()
  | some fl =>
    if fl.isBits then
      emitOp .storefield [.vreg obj.vreg, .name fieldName, .vreg val.vreg]
    else
      let addr ← emitAddrPlusConst obj.vreg fl.byteOffset
      if fl.storageType = some .far then
        let (offV, segV) ←
          match val.vregSeg with
          | some segV => pure (val.vreg, segV)
          | none => emitFarHalves val.vreg
        emitOp .store [.vreg addr, .vreg offV]
        let segAddr ← emitAddrPlusConst addr 2
        emitOp .store [.vreg segAddr, .vreg segV]
      else if typeIsAggregate fl.storageType then
        cerr "aggregate field assignment is not supported"
      else emitOp (storeOp fl.storageType) [.vreg addr, .vreg val.vreg]

end Nib.Compile
