import Nib.Compile.Memory

/-!
# Expressions

Every expression has two emissions: one without a context and one for a target type, which gives
literals, memory loads and arithmetic their width. The emissions of an operator are built from
those of its operands, so both are defined by one recursion over the tree.
-/

namespace Nib.Compile

open Compile

/-- The two emissions of an expression. -/
structure ExprEmit where
  typed : Compile TypedVreg
  typedFor : Option Ty → Compile TypedVreg

/-- A literal result takes the integer type of its context. -/
def adoptTarget (emit : Compile TypedVreg) (target : Option Ty) : Compile TypedVreg := do
  let val ← emit
  if typeIsInteger target && val.type.isNone then
    let _ ← tv val.vreg target
    pure { val with type := target }
  else pure val

/-- An expression that ignores its context. -/
def ExprEmit.plain (emit : Compile TypedVreg) : ExprEmit := ⟨emit, adoptTarget emit⟩

/-! ## Leaves -/

def emitLitInt (value : Int) : ExprEmit where
  typed := do
    let r ← allocVreg
    emitOp .mov [.vreg r, .imm value]
    tv r none
  typedFor target := do
    let r ← allocVreg
    emitOp .mov [.vreg r, .imm value]
    if typeIsInteger target then tv r target else tv r none

def emitLitStr (bytes : List Nat) : Compile TypedVreg := do
  let r ← allocVreg
  match bytes with
  | [b] =>
    emitOp .mov [.vreg r, .imm b]
    tv r none
  | _ =>
    let c ← getState
    modifyState fun c => { c with nextConst := c.nextConst + 1 }
    print (.const c.nextConst bytes)
    emitOp .mov [.vreg r, .const c.nextConst]
    tv r (some (.array .u8 bytes.length))

/-- The value of a scalar global, or the address of another one. -/
def emitGlobalValue (sym : Symbol) : Compile TypedVreg := do
  let r ← allocVreg
  let direct := sym.hasAt && !sym.isInitData
  if typeIsScalar sym.type then
    emitOp .loadmem [.vreg r, .mem (if direct then .abs sym.atOff else .sym sym.name)]
  else emitOp .mov [.vreg r, if direct then .hex sym.atOff else .name sym.name]
  tv r sym.type

def emitIdent (name : String) : Compile TypedVreg := do
  let c ← getState
  if isIsr c name then emitFarLabel name
  else
    match symLookup c name with
    | none =>
      cerr ("undefined variable '" ++ name ++ "'")
      let v ← allocVreg
      tv v (some .u16)
    | some sym =>
      if sym.isGlobal then emitGlobalValue sym
      else
        match sym.vregSeg with
        | some vregSeg => tvFar sym.vreg vregSeg
        | none =>
          if sym.isStackLocal then emitStackLocalValue sym
          else tv sym.vreg sym.type

/-- The type of a register variable. -/
def regType (rclass : RegClass) : Ty :=
  match rclass with
  | .byte => .u8
  | .word => .u16
  | .seg => .seg

/-- The symbol of a register. It is declared at its first use. -/
def regSymbol (id : Nat) (rclass : RegClass) : Compile (Symbol × Bool) := do
  let name := regNameStr id rclass
  let c ← getState
  match symLookup c name with
  | some sym => pure (sym, false)
  | none =>
    let sym ← symAddPinned (regType rclass) id rclass
    print (.note (.pin sym.vreg name))
    pure (sym, true)

def emitReg (id : Nat) (rclass : RegClass) : Compile TypedVreg := do
  let (sym, _) ← regSymbol id rclass
  tvPin sym.vreg sym.type (regNameStr id rclass)

def emitFlag (id : Flag) : Compile TypedVreg := do
  let r ← allocVreg
  emitOp .getflag [.vreg r, .name (flagName id)]
  tv r (some .bool)

def emitFarLit (seg off : Int) : Compile TypedVreg := do
  let segTmp ← allocVreg
  let segV ← allocVreg
  let offV ← allocVreg
  emitOp .mov [.vreg segTmp, .hex (mask16 seg)]
  emitSegMove segV segTmp
  emitOp .mov [.vreg offV, .hex (mask16 off)]
  tvFar offV segV

/-! ## Operators -/

/-- The value of an integer literal. -/
def litIntValue : Expr → Option Int
  | .litInt value => some value
  | _ => none

/-- The right operand: a literal is an immediate and gets no vreg. -/
def emitRight (right : Expr) (emit : Compile TypedVreg) : Compile (TypedVreg × Arg) :=
  match litIntValue right with
  | some imm => pure (noValue, .imm imm)
  | none => do
    let r ← emit
    pure (r, .vreg r.vreg)

def shiftTypeError (type : Option Ty) : Compile Unit :=
  if type.isSome && !typeIsInteger type then
    cerr ("shift/rotate operand must be integer, got " ++ typeStrOpt type)
  else pure ()

/-- The type of the result of a binary operation. -/
def binopType (op : OpKind) (l r : Option Ty) : Compile (Option Ty) := do
  if binopIsCompare op then checkCompare l r
  else if op = .xchg then
    if !typesEqual l r then
      cerr ("exchange operands must be same type: " ++ typeStrOpt l ++ " vs " ++ typeStrOpt r)
    pure l
  else if binopIsShift op then
    shiftTypeError l
    pure l
  else checkArith l r op

/-- A byte multiplication: zero-extend both operands, multiply words, keep the low byte. -/
def emitByteMul (op : OpKind) (dst : Int) (l : TypedVreg) (r : Arg) (resultType : Option Ty) :
    Compile TypedVreg := do
  let wd ← allocVreg
  emitOp .zext [.vreg wd, .vreg l.vreg]
  match r with
  | .vreg rv =>
    let wd2 ← allocVreg
    emitOp .zext [.vreg wd2, .vreg rv]
    emitOp (.binop op) [.vreg wd, .vreg wd, .vreg wd2]
  | imm => emitOp (.binop op) [.vreg wd, .vreg wd, imm]
  print (.vreg dst .u8 .plain)
  emitOp .mov [.vreg dst, .vreg wd]
  tv dst resultType

def emitBinopTyped (op : OpKind) (right : Expr) (l r : ExprEmit) : Compile TypedVreg := do
  let lv ← l.typed
  let (rv, rArg) ← emitRight right r.typed
  let dst ← allocVreg
  let resultType ← binopType op lv.type rv.type
  if (op = .mul ∨ op = .smul) ∧ lv.type = some .u8 then emitByteMul op dst lv rArg resultType
  else
    emitOp (.binop op) [.vreg dst, .vreg lv.vreg, rArg]
    tv dst resultType

/-- The type of the result for a target type. A shift keeps the type of its left operand. -/
def binopTypeFor (op : OpKind) (l r target : Option Ty) : Compile (Option Ty) := do
  if binopIsShift op then
    shiftTypeError l
    pure (if l.isSome then l else target)
  else
    let t ← checkArith l r op
    pure (if t.isSome then t else target)

def emitBinopFor (op : OpKind) (right : Expr) (l r : ExprEmit) (target : Option Ty) :
    Compile TypedVreg := do
  let lv ← l.typedFor target
  let (rv, rArg) ← emitRight right (r.typedFor (if binopIsShift op then none else target))
  let resultType ← binopTypeFor op lv.type rv.type target
  let dst ← allocVreg
  emitOp (.binop op) [.vreg dst, .vreg lv.vreg, rArg]
  tv dst resultType

def emitBinop (op : OpKind) (right : Expr) (l r : ExprEmit) : ExprEmit where
  typed := emitBinopTyped op right l r
  typedFor target :=
    if typeIsInteger target && !binopIsCompare op && op != .xchg then
      emitBinopFor op right l r target
    else adoptTarget (emitBinopTyped op right l r) target

def negTypeError (type : Option Ty) : Compile Unit :=
  if type.isSome && !typeIsInteger type then
    cerr ("neg requires integer operand, got " ++ typeStrOpt type)
  else pure ()

def notTypeError (type : Option Ty) : Compile Unit :=
  if type.isSome && !typeIsInteger type && type ≠ some .bool then
    cerr ("not requires integer or bool operand, got " ++ typeStrOpt type)
  else pure ()

/-- The address of a name that needs no evaluation: a function, a global, a stack local. -/
def emitNameAddr (op : UnopKind) (name : String) : Compile (Option TypedVreg) := do
  let c ← getState
  match op with
  | .addr =>
    if (findFunction c name).isSome then
      let dst ← allocVreg
      emitOp .mov [.vreg dst, .name name]
      let v ← tv dst (some .u16)
      pure (some v)
    else
      match symLookup c name with
      | some sym =>
        if sym.isStackLocal then
          let dst ← emitStackAddr sym
          let v ← tv dst (some .u16)
          pure (some v)
        else pure none
      | none => pure none
  | .farAddr =>
    if (findFunction c name).isSome then
      let v ← emitFarLabel name
      pure (some v)
    else
      match symLookup c name with
      | some sym =>
        if sym.isStackLocal then
          let v ← emitStackFarAddr sym
          pure (some v)
        else if sym.isGlobal then
          let v ← emitFarLabel sym.name
          pure (some v)
        else
          cerr "@ requires a function, global, or stack local name"
          let off ← allocVreg
          let seg ← allocVreg
          let v ← tvFar off seg
          pure (some v)
      | none =>
        cerr "@ requires a function, global, or stack local name"
        let off ← allocVreg
        let seg ← allocVreg
        let v ← tvFar off seg
        pure (some v)
  | _ => pure none

def emitUnopValue (op : UnopKind) (emit : Compile TypedVreg) : Compile TypedVreg := do
  let operand ← emit
  let dst ← allocVreg
  match op with
  | .addr =>
    emitOp .mov [.vreg dst, .vreg operand.vreg]
    tv dst (some .u16)
  | .neg =>
    negTypeError operand.type
    emitOp (.unop .neg) [.vreg dst, .vreg operand.vreg]
    tv dst operand.type
  | .not =>
    notTypeError operand.type
    emitOp (.unop .not) [.vreg dst, .vreg operand.vreg]
    tv dst operand.type
  | .lnot =>
    if operand.type.isSome && operand.type ≠ some .bool then
      cerr ("logical NOT requires bool operand, got " ++ typeStrOpt operand.type)
    emitOp (.unop .lnot) [.vreg dst, .vreg operand.vreg]
    tv dst (some .bool)
  | .farAddr =>
    emitOp (.unop .farAddr) [.vreg dst, .vreg operand.vreg]
    tv dst operand.type

def emitUnopTyped (op : UnopKind) (operand : Expr) (emit : ExprEmit) : Compile TypedVreg := do
  match operand with
  | .ident name =>
    let addr ← emitNameAddr op name
    match addr with
    | some v => pure v
    | none => emitUnopValue op emit.typed
  | _ => emitUnopValue op emit.typed

def emitUnopFor (op : UnopKind) (emit : ExprEmit) (target : Option Ty) : Compile TypedVreg := do
  let operand ← emit.typedFor target
  if op = .neg then negTypeError operand.type else notTypeError operand.type
  let dst ← allocVreg
  emitOp (.unop op) [.vreg dst, .vreg operand.vreg]
  tv dst (if operand.type.isSome then operand.type else target)

def emitUnop (op : UnopKind) (operand : Expr) (emit : ExprEmit) : ExprEmit where
  typed := emitUnopTyped op operand emit
  typedFor target :=
    if typeIsInteger target && (op == .neg || op == .not) then emitUnopFor op emit target
    else adoptTarget (emitUnopTyped op operand emit) target

/-! ## Indexing and fields -/

/-- The shift that scales an index by the size of an element. -/
def elemShift : Ty → Int
  | .u16 | .seg => 1
  | .far | .u32 => 2
  | _ => 0

def emitScaledIndex (idx : Int) (shift : Int) : Compile Int := do
  if shift > 0 then
    let scaled ← allocVreg
    emitOp (.binop .shl) [.vreg scaled, .vreg idx, .imm shift]
    pure scaled
  else pure idx

def indexTypeErrors (arr idx : Option Ty) : Compile Unit := do
  if arr.isSome && !typeIsAggregate arr then
    cerr ("indexing requires array type, got " ++ typeStrOpt arr)
  if idx.isSome && !typeIsInteger idx then
    cerr ("array index must be integer, got " ++ typeStrOpt idx)

def emitIndex (array index : ExprEmit) : Compile TypedVreg := do
  let arr ← array.typed
  let idx ← index.typed
  indexTypeErrors arr.type idx.type
  let elem := (typeOfElement arr.type).getD .u8
  let scaledIdx ← emitScaledIndex idx.vreg (elemShift elem)
  let dst ← allocVreg
  if elem = .far then
    let addr ← allocVreg
    emitOp (.binop .add) [.vreg addr, .vreg arr.vreg, .vreg scaledIdx]
    let (offV, segV) ← emitFarHalves addr
    tvFar offV segV
  else if typeIsAggregate (some elem) then
    emitOp (.binop .add) [.vreg dst, .vreg arr.vreg, .vreg scaledIdx]
    tv dst (some elem)
  else
    emitOp (loadOp (some elem)) [.vreg dst, .elem arr.vreg scaledIdx]
    tv dst (some elem)

/-- The length a checked index is compared with. -/
def checkedLength : Option Ty → Int
  | some (.array _ n) => if n > 0 then n else 0
  | some (.bcd n) => if n > 0 then n else 0
  | _ => 0

def emitCheckedIndex (array index : ExprEmit) : Compile TypedVreg := do
  let arr ← array.typed
  let idx ← index.typed
  indexTypeErrors arr.type idx.type
  let elem := (typeOfElement arr.type).getD .u8
  let scaledIdx ← emitScaledIndex idx.vreg (elemShift elem)
  let dst ← allocVreg
  emitOp .bound [.vreg idx.vreg, .imm (checkedLength arr.type)]
  emitOp (loadOp (some elem)) [.vreg dst, .elem arr.vreg scaledIdx]
  tv dst (some elem)

def emitField (object : ExprEmit) (fieldName : String) : Compile TypedVreg := do
  let obj ← object.typed
  emitStructFieldValue obj fieldName false

/-- The size of an element as `` `sz `` counts it. -/
def elemBytes : Ty → Int
  | .u16 | .seg => 2
  | .far | .u32 => 4
  | _ => 1

/-- One half of a far pointer in a register pair. -/
def farHalf (off seg : Int) (fieldName : String) : Compile TypedVreg := do
  if fieldName = "off" then tv off (some .u16)
  else if fieldName = "seg" then tv seg (some .seg)
  else
    cerr "far type only has `seg and `off"
    tv off (some .u16)

/-- One half of a far pointer in memory. -/
def emitFarComponent (obj : TypedVreg) (fieldName : String) : Compile TypedVreg := do
  let dst ← allocVreg
  if fieldName = "off" then
    emitOp .farOff [.vreg dst, .vreg obj.vreg]
    tv dst (some .u16)
  else if fieldName = "seg" then
    emitOp .farSeg [.vreg dst, .vreg obj.vreg]
    tv dst (some .seg)
  else
    cerr "far type only has `seg and `off"
    tv dst (some .u16)

/-- The split vregs of a far variable. -/
def farSymbol (c : Compiler) : Expr → Option (Int × Int)
  | .ident name => do
    let sym ← symLookup c name
    let vregSeg ← sym.vregSeg
    pure (sym.vreg, vregSeg)
  | _ => none

def emitRawField (objectExpr : Expr) (object : ExprEmit) (fieldName : String) :
    Compile TypedVreg := do
  let obj ← object.typed
  let c ← getState
  match obj.type with
  | some (.array elem n) =>
    if fieldName = "len" then
      let dst ← allocVreg
      emitOp .mov [.vreg dst, .imm n]
      tv dst (some .u16)
    else if fieldName = "sz" then
      let dst ← allocVreg
      emitOp .mov [.vreg dst, .imm (n * elemBytes elem)]
      tv dst (some .u16)
    else
      cerr ("array type only has `len and `sz, not `" ++ fieldName)
      emitStructFieldValue obj fieldName true
  | some .far =>
    match farSymbol c objectExpr with
    | some (off, seg) => farHalf off seg fieldName
    | none =>
      match obj.vregSeg with
      | some seg => farHalf obj.vreg seg fieldName
      | none => emitFarComponent obj fieldName
  | _ => emitStructFieldValue obj fieldName true

/-! ## Calls -/

/-- The arguments in order, each for the type of its parameter. -/
def emitArgs : List Ty → List ExprEmit → Compile (List TypedVreg)
  | _, [] => pure []
  | params, a :: rest => do
    let v ← a.typedFor params.head?
    let vs ← emitArgs params.tail rest
    pure (v :: vs)

/-- The vregs of the arguments. An argument for a far parameter becomes two. -/
def splitFarArgs (params : List Ty) : List (Expr × TypedVreg) → Compile (List Int)
  | [] => pure []
  | (argExpr, v) :: rest => do
    let c ← getState
    let vregs ←
      if params.head? = some .far then
        match v.vregSeg with
        | some seg => pure [v.vreg, seg]
        | none =>
          match farSymbol c argExpr with
          | some (off, seg) => pure [off, seg]
          | none => do
            let (off, seg) ← emitFarHalves v.vreg
            pure [off, seg]
      else pure [v.vreg]
    let more ← splitFarArgs params.tail rest
    pure (vregs ++ more)

/-- The operand of a port: a constant, or a vreg. -/
def emitPort (port : Expr) (emit : ExprEmit) : Compile Arg := do
  let c ← getState
  match evalConstExpr c port with
  | some n => pure (.imm n)
  | none =>
    let v ← emit.typed
    pure (.vreg v.vreg)

def emitPortIn (op : Op) (type : Ty) (args : List (Expr × ExprEmit)) : Compile TypedVreg := do
  let dst ← allocVreg
  match args with
  | (port, emit) :: _ =>
    let p ← emitPort port emit
    emitOp op [.vreg dst, p]
  | [] => pure ()
  tv dst (some type)

/-- `checkWord` is set for the word form, which only takes a word. -/
def emitPortOut (checkWord : Bool) (args : List (Expr × ExprEmit)) : Compile TypedVreg := do
  let dst ← allocVreg
  match args with
  | (port, emit) :: (_, emitVal) :: _ =>
    let p ← emitPort port emit
    let value ← emitVal.typed
    let c ← getState
    if checkWord then
      if value.type.isSome && typeSizeOpt c value.type ≠ 2 then
        cerr ("port_out16 value must be u16, got " ++ typeStrOpt value.type)
      emitOp .outw [p, .vreg value.vreg]
    else
      let byteIo := value.type.isNone || typeSizeOpt c value.type == 1
      emitOp (if byteIo then .outb else .outw) [p, .vreg value.vreg]
  | _ => pure ()
  tv dst (some .void)

def emitAssume (args : List (Expr × ExprEmit)) : Compile TypedVreg := do
  match args with
  | [(_, emit)] =>
    let cond ← emit.typed
    if cond.type.isSome && cond.type ≠ some .bool then
      cerr ("assume() requires bool, got " ++ typeStrOpt cond.type)
    emitOp .assume [.vreg cond.vreg]
    tv (-1) (some .void)
  | _ =>
    cerr "assume() takes exactly one argument"
    tv (-1) (some .void)

/-- Calls that are expanded before their arguments are evaluated for parameter types. -/
def emitEarlyBuiltin (name : String) (args : List (Expr × ExprEmit)) :
    Option (Compile TypedVreg) :=
  if name = "assume" then some (emitAssume args)
  else if name = "port_in" then some (emitPortIn .inb .u8 args)
  else if name = "port_in16" then some (emitPortIn .inw .u16 args)
  else if name = "port_out" then some (emitPortOut false args)
  else if name = "port_out16" then some (emitPortOut true args)
  else none

/-- The word a string instruction counts with, and its set-up of `ES` and the direction. -/
def emitStringOp (op : Op) : Compile Unit := do
  emitOp .push [.name "DS"]
  emitOp .pop [.name "ES"]
  emitOp .setflag [.name "DF", .imm 0]
  emitOp op []

/-- `memcopy`, `memset` and `memcmp`: load the index registers and the count, then repeat. -/
def emitBlockOp (op : Op) (second : String) (secondIsByte : Bool) (size : Int) (a b : Int) :
    Compile Unit := do
  let di ← allocVreg
  let si ← allocVreg
  let cx ← allocVreg
  print (.prefer di "DI")
  print (.prefer si second)
  if secondIsByte then print (.vreg si .u8 .plain)
  print (.prefer cx "CX")
  emitOp .mov [.vreg di, .vreg a]
  emitOp .mov [.vreg si, .vreg b]
  emitOp .mov [.vreg cx, .imm size]
  emitStringOp op

/-- Built-in functions without operands. -/
def simpleBuiltins : List (String × Op) :=
  [ ("halt", .hlt), ("nop", .nop), ("pushf", .pushf), ("popf", .popf), ("cli", .cli),
    ("sti", .sti) ]

def adjustBuiltins : List String := ["daa", "das", "aaa", "aas", "aam", "aad"]

def frameBuiltin (name : String) (op : Op) (dst : Int) : Compile TypedVreg := do
  let c ← getState
  if !c.curFnIsBare then cerr (name ++ "() is only valid in bare functions")
  emitOp op []
  tv dst (some .void)

/-- Expand a built-in function: `none` for an ordinary one. -/
def emitBuiltin (c : Compiler) (name : String) (dst : Int) (args : List TypedVreg) :
    Option (Compile TypedVreg) :=
  let size := typeSizeOpt c ((args.head?).bind TypedVreg.type)
  let result (type : Ty) (m : Compile Unit) : Option (Compile TypedVreg) :=
    some do
      m
      tv dst (some type)
  match simpleBuiltins.lookup name with
  | some op => result .void (emitOp op [])
  | none =>
    if name = "frame_enter" then some (frameBuiltin name .frameEnter dst)
    else if name = "frame_leave" then some (frameBuiltin name .frameLeave dst)
    else if name = "salc" then result .u8 (emitOp .salc [.vreg dst])
    else if name = "memcopy" then
      result .void <| match args with
        | a :: b :: _ => emitBlockOp .repMovsb "SI" false size a.vreg b.vreg
        | _ => pure ()
    else if name = "memset" then
      result .void <| match args with
        | a :: b :: _ => emitBlockOp .repStosb "AL" true size a.vreg b.vreg
        | _ => pure ()
    else if name = "memcmp" then
      result .bool <| match args with
        | a :: b :: _ => emitBlockOp .repeCmpsb "SI" false size a.vreg b.vreg
        | _ => pure ()
    else if name = "memscan" then
      result .u16 <| match args with
        | a :: b :: _ => do
          print (.note (.memscan a.vreg b.vreg))
          emitStringOp .repneScasb
        | _ => pure ()
    else if name = "sign_extend" then
      result .u16 <| match args with
        | a :: _ => emitOp .cbw [.vreg dst, .vreg a.vreg]
        | _ => pure ()
    else if name = "zero_extend" then
      result .u16 <| match args with
        | a :: _ => emitOp .zext [.vreg dst, .vreg a.vreg]
        | _ => pure ()
    else if name = "xlat" then
      result .u8 <| match args with
        | a :: b :: _ => do
          print (.note (.xlat a.vreg b.vreg))
          emitOp .xlat [.vreg dst, .vreg a.vreg, .vreg b.vreg]
        | _ => pure ()
    else if name = "bound" then
      result .void <| match args with
        | a :: b :: d :: _ => emitOp .bound [.vreg a.vreg, .vreg b.vreg, .vreg d.vreg]
        | _ => pure ()
    else if adjustBuiltins.contains name then
      result .u8 <| match args with
        | a :: _ => emitOp (.adjust name) [.vreg a.vreg]
        | _ => pure ()
    else if name = "emulate" then
      result .void <| match args with
        | a :: b :: _ => emitOp .brkem [.vreg a.vreg, .vreg b.vreg]
        | _ => pure ()
    else if name = "divmod" ∨ name = "sdivmod" then
      result .void <| match args with
        | a :: b :: d :: e :: _ =>
          emitOp (.binop (if name = "sdivmod" then .sdiv else .div))
            [.vreg a.vreg, .vreg b.vreg, .vreg d.vreg, .vreg e.vreg]
        | _ => pure ()
    else if name = "load" then
      let elem : Ty :=
        match args with
        | a :: _ =>
          match a.type with
          | some t => (typeOfElement (some t)).getD .u8
          | none => .u8
        | [] => .u8
      result elem <| match args with
        | a :: _ => do
          emitOp .setflag [.name "DF", .imm 0]
          emitOp .lods [.vreg dst, .vreg a.vreg]
        | _ => pure ()
    else if name = "store" then
      result .void <| match args with
        | a :: b :: _ => do
          emitOp .setflag [.name "DF", .imm 0]
          emitOp .stos [.vreg a.vreg, .vreg b.vreg]
        | _ => pure ()
    else if name = "extract" then
      result .u16 <| match args with
        | a :: b :: d :: _ => emitOp .bext [.vreg dst, .vreg a.vreg, .vreg b.vreg, .vreg d.vreg]
        | _ => pure ()
    else if name = "insert" then
      result .void <| match args with
        | a :: b :: d :: e :: _ =>
          emitOp .bins [.vreg a.vreg, .vreg b.vreg, .vreg d.vreg, .vreg e.vreg]
        | _ => pure ()
    else if name = "nibble_rol" then
      result .u8 <| match args with
        | a :: _ => emitOp .rol4 [.vreg dst, .vreg a.vreg]
        | _ => pure ()
    else if name = "nibble_ror" then
      result .u8 <| match args with
        | a :: _ => emitOp .ror4 [.vreg dst, .vreg a.vreg]
        | _ => pure ()
    else if name = "swap_flags" then
      result .u8 <| match args with
        | a :: _ => emitOp .swapFlags [.vreg dst, .vreg a.vreg]
        | _ => pure ()
    else none

def calleeName : Expr → String
  | .ident name => name
  | _ => "?"

/-- The errors of an ordinary call. -/
def callErrors (fn : FunctionSig) (argc : Nat) : Compile Unit := do
  if fn.paramTypes.length ≠ argc then
    cerr ("'" ++ fn.name ++ "' expects " ++ toString fn.paramTypes.length ++ " arguments, got " ++
      toString argc)
  if fn.returnTypes.length > 1 then
    cerr ("'" ++ fn.name ++ "' returns multiple values; use destructuring assignment")

/-- The parameter types of a callee, none when it is not known. -/
def calleeParams (fi : Option FunctionSig) : List Ty := (fi.map (·.paramTypes)).getD []

/-- The type of a call: void for an unknown function, none for one without a result. -/
def calleeReturn (fi : Option FunctionSig) : Option Ty :=
  match fi with
  | some fn => fn.returnTypes.head?
  | none => some .void

def vregArgs (vs : List Int) : List Arg := vs.map .vreg

def emitCall (func : Expr) (args : List Expr) (emits : List ExprEmit) : Compile TypedVreg := do
  let name := calleeName func
  match emitEarlyBuiltin name (args.zip emits) with
  | some m => m
  | none =>
    let c ← getState
    let fi := findFunction c name
    let vals ← emitArgs (calleeParams fi) emits
    let dst ← allocVreg
    match emitBuiltin c name dst vals with
    | some m => m
    | none =>
      match func, fi with
      | .ident _, some fn => callErrors fn args.length
      | _, _ => pure ()
      let irArgs ← splitFarArgs (calleeParams fi) (args.zip vals)
      emitOp .call ([.vreg dst, .name name] ++ vregArgs irArgs)
      match func with
      | .ident _ => tv dst (calleeReturn fi)
      | _ => tv dst (some .void)

def emitIndirectCall (addr : ExprEmit) (externName moduleName : String) (args : List Expr)
    (emits : List ExprEmit) : Compile TypedVreg := do
  let addrVal ← addr.typed
  let c ← getState
  let (fi, descriptorName) := findIndirectDescriptor c externName moduleName
  let vals ← emitArgs (calleeParams fi) emits
  let dst ← allocVreg
  let irArgs ← splitFarArgs (calleeParams fi) (args.zip vals)
  let target :=
    match addrVal.vregSeg with
    | some seg => [Arg.vreg addrVal.vreg, .vreg seg]
    | none => [.vreg addrVal.vreg]
  emitOp .icall (.vreg dst :: target ++ .name descriptorName :: vregArgs irArgs)
  tv dst (calleeReturn fi)

def emitNearIndirectCall (addr : ExprEmit) (externName : String) (args : List Expr)
    (emits : List ExprEmit) : Compile TypedVreg := do
  let addrVal ← addr.typed
  let c ← getState
  let (fi, descriptorName) := findIndirectDescriptor c externName ""
  if addrVal.type = some .far then
    cerr ("near indirect call target must be u16, got " ++ typeStrOpt addrVal.type)
  let vals ← emitArgs (calleeParams fi) emits
  let dst ← allocVreg
  let irArgs ← splitFarArgs (calleeParams fi) (args.zip vals)
  emitOp .ncall ([.vreg dst, .vreg addrVal.vreg, .name descriptorName] ++ vregArgs irArgs)
  tv dst (calleeReturn fi)

/-! ## All expressions -/

def emitCast (targetType : Ty) (operand : ExprEmit) : ExprEmit where
  typed := do
    let val ← operand.typedFor (some targetType)
    tv val.vreg (some targetType)
  typedFor target :=
    if isContextualMemLoadType (some targetType) then do
      let val ← operand.typedFor (some targetType)
      pure { val with type := some targetType }
    else
      adoptTarget (do
        let val ← operand.typedFor (some targetType)
        tv val.vreg (some targetType)) target

mutual

/-- The emissions of an expression. -/
def emitExpr : Expr → ExprEmit
  | .litInt value => emitLitInt value
  | .litStr bytes => .plain (emitLitStr bytes)
  | .ident name => .plain (emitIdent name)
  | .reg id isByte => .plain (emitReg id (if isByte then .byte else .word))
  | .sreg id => .plain (emitReg id .seg)
  | .flag id => .plain (emitFlag id)
  | .binop op left right => emitBinop op right (emitExpr left) (emitExpr right)
  | .unop op operand => emitUnop op operand (emitExpr operand)
  | .call func args => .plain (emitCall func args (emitExprs args))
  | .index array index => .plain (emitIndex (emitExpr array) (emitExpr index))
  | .checkedIndex array index => .plain (emitCheckedIndex (emitExpr array) (emitExpr index))
  | .field object fieldName => .plain (emitField (emitExpr object) fieldName)
  | .rawField object fieldName => .plain (emitRawField object (emitExpr object) fieldName)
  | .farLit seg off => .plain (emitFarLit seg off)
  | .cast operand targetType => emitCast targetType (emitExpr operand)
  | .indirectCall addr externName moduleName args =>
    .plain (emitIndirectCall (emitExpr addr) externName moduleName args (emitExprs args))
  | .nearIndirectCall addr externName args =>
    .plain (emitNearIndirectCall (emitExpr addr) externName args (emitExprs args))
  | .deref ptr seg =>
    ⟨emitDerefLoad ptr seg (emitExpr ptr).typed none,
      fun target => emitDerefLoad ptr seg (emitExpr ptr).typed target⟩

def emitExprs : List Expr → List ExprEmit
  | [] => []
  | e :: es => emitExpr e :: emitExprs es

end

def emitExprTyped (e : Expr) : Compile TypedVreg := (emitExpr e).typed

def emitExprTypedFor (e : Expr) (target : Option Ty) : Compile TypedVreg :=
  (emitExpr e).typedFor target

/-- The initializer of a declaration. A constant becomes one move. -/
def emitInitializerExprTyped (e : Expr) (target : Option Ty) : Compile TypedVreg := do
  let c ← getState
  match evalConstExpr c e with
  | some value =>
    if typeIsInteger target then
      let r ← allocVreg
      emitOp .mov [.vreg r, .imm value]
      tv r target
    else emitExprTypedFor e target
  | none => emitExprTypedFor e target

end Nib.Compile
