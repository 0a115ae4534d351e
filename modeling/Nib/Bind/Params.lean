import Nib.Bind.Alloc

/-!
# Parameter registers

`propagate_preferences`: every function gives registers to its parameters, from the preferences of
their vregs, from the preferences of the vregs they are copied to, and from the free registers; then
the vregs that callers pass take these registers as preferences. Stack slots of parameters and
returns are left out.
-/

namespace Nib.Bind

/-! ## Functions and calls -/

/-- The registers a parameter can be passed in, by its type. -/
inductive ParamClass
  | byte | word | seg
  deriving DecidableEq, Repr

structure FnParam where
  vreg : Nat
  cls : ParamClass := .word
  place : AbiPlace := .default
  pin : Option Preg := none
  deriving DecidableEq, Repr

structure FnReturn where
  isByte : Bool := false
  place : AbiPlace := .default
  pin : Option Preg := none
  deriving DecidableEq, Repr

/-- A function as it is parsed. -/
structure BindFn where
  name : String
  params : List FnParam
  returns : List FnReturn := []
  insns : List Insn := []
  vregs : VregTable

structure ExternFn where
  name : String
  paramPins : List (Option Preg)
  returns : List FnReturn := []

structure CallEdge where
  caller : Nat
  callee : Option Nat
  calleeName : String
  args : List Nat
  rets : List (Option Nat)

def findFn (fns : List BindFn) (name : String) : Option Nat :=
  fns.findIdx? fun f => f.name == name

/-- Calls through a register. -/
def IrOp.isIndirect : IrOp → Bool
  | .icall | .ncall | .ntailcall => true
  | _ => false

def IrOp.isCall : IrOp → Bool
  | .call | .mcall | .tailcall | .icall | .ncall | .ntailcall => true
  | _ => false

def callEdge (fns : List BindFn) (caller : Nat) (ins : Insn) : CallEdge where
  caller
  callee := if ins.op.isIndirect then none else findFn fns ins.name
  calleeName := ins.name
  args :=
    if ins.op.isIndirect then ins.extraArgs
    else ins.src1.toList ++ ins.src2.toList ++ ins.extraArgs
  rets := ins.dst :: (if ins.op = .mcall then ins.retVregs.map some else [])

def buildCallGraph (fns : List BindFn) : List CallEdge :=
  fns.zipIdx.flatMap fun (fn, fi) =>
    (fn.insns.filter fun ins => ins.op.isCall).map (callEdge fns fi)

/-! ## The order of functions -/

/-- The functions that are called from a function. -/
def calleesOf (edges : List CallEdge) (fi : Nat) : List Nat :=
  (edges.filter fun e => e.caller == fi).filterMap CallEdge.callee

/-- One round over all functions: those are added whose callees have all been visited. -/
def topoRound (edges : List CallEdge) (n : Nat) (order : List Nat) : List Nat :=
  (List.range n).foldl (fun order i =>
    if order.contains i then order
    else if (calleesOf edges i).all order.contains then order ++ [i]
    else order) order

/-- Rounds until nothing changes. Every round but the last adds a function. -/
def topoRounds (edges : List CallEdge) (n : Nat) : Nat → List Nat → List Nat
  | 0, order => order
  | k + 1, order =>
    let order' := topoRound edges n order
    if order'.length = order.length then order' else topoRounds edges n k order'

/-- Leaves first, then functions after their callees, and recursive ones at the end. -/
def topoSort (edges : List CallEdge) (n : Nat) : List Nat :=
  let leaves := (List.range n).filter fun i => (calleesOf edges i).isEmpty
  let order := topoRounds edges n (n + 1) leaves
  order ++ (List.range n).filter fun i => !order.contains i

/-! ## One function -/

def Preg.parent : Preg → Option Preg
  | .al | .ah => some .ax
  | .cl | .ch => some .cx
  | .dl | .dh => some .dx
  | .bl | .bh => some .bx
  | _ => none

/-- The registers of the parameters, by index, and the registers in use. -/
structure ParamRegs where
  regs : Nat → Option Preg := fun _ => none
  used : Preg → Bool := fun _ => false

namespace ParamRegs

/-- Give a parameter a register. Its halves are in use too, but not the word it is a half of. -/
def give (s : ParamRegs) (p : Nat) (r : Preg) : ParamRegs where
  regs := Function.update s.regs p (some r)
  used := fun x => s.used x || x == r || r.aliasLo == some x || r.aliasHi == some x

/-- The first pass: a parameter takes the register its vreg prefers. -/
def honor (vregs : VregTable) (s : ParamRegs) (p : FnParam × Nat) : ParamRegs :=
  if p.1.place = .stack then s
  else
    match (vregs p.1.vreg).prefer with
    | none => s
    | some r => if s.used r then s else s.give p.2 r

/-- A parameter that is copied takes the register of the copy. -/
def follow (s : ParamRegs) (w : Preg × Nat) : ParamRegs :=
  if (s.regs w.2).isNone && !s.used w.1 then s.give w.2 w.1 else s

/-- The registers of the vregs that parameters are copied to, in the order of the code. -/
def copyWishes (vregs : VregTable) (params : List FnParam) (insns : List Insn) :
    List (Preg × Nat) :=
  insns.flatMap fun ins =>
    if ins.op = .mov ∧ ins.imm = none then
      match ins.dst, ins.src1 with
      | some dst, some src =>
        match (vregs dst).prefer with
        | some r =>
          (params.zipIdx.filter fun p => p.1.place != .stack && p.1.vreg == src).map fun p =>
            (r, p.2)
        | none => []
      | _, _ => []
    else []

def wordOrder : List Preg := [.ax, .bx, .cx, .dx, .si, .di, .bp]

def byteOrder : List Preg := [.al, .bl, .cl, .dl, .ah, .bh, .ch, .dh]

/-- Neither the register nor one that overlaps it is in use. -/
def isFree (s : ParamRegs) (r : Preg) : Bool :=
  !s.used r && r.aliasLo.all (!s.used ·) && r.aliasHi.all (!s.used ·) && r.parent.all (!s.used ·)

/-- The second pass: a parameter without a register takes the first free one. -/
def fill (vregs : VregTable) (s : ParamRegs) (p : FnParam × Nat) : ParamRegs :=
  if p.1.place = .stack ∨ (s.regs p.2).isSome then s
  else
    match (if (vregs p.1.vreg).isByte then byteOrder else wordOrder).find? s.isFree with
    | some r => s.give p.2 r
    | none => s

/-- The passes that follow preferences. -/
def preferred (vregs : VregTable) (params : List FnParam) (insns : List Insn) : ParamRegs :=
  (copyWishes vregs params insns).foldl follow (params.zipIdx.foldl (honor vregs) {})

def assignAll (vregs : VregTable) (params : List FnParam) (insns : List Insn) : ParamRegs :=
  params.zipIdx.foldl (fill vregs) (preferred vregs params insns)

end ParamRegs

/-- The parameters for which there was no register. -/
def missingRegs (params : List FnParam) (regs : Nat → Option Preg) : Nat :=
  (params.zipIdx.filter fun p => p.1.place != .stack && (regs p.2).isNone).length

/-! ## Returns -/

def defaultReturnReg (isByte : Bool) (idx : Nat) : Option Preg :=
  if isByte then [Preg.al, .dl, .cl, .bl][idx]? else [Preg.ax, .dx, .cx, .bx][idx]?

def returnReg (r : FnReturn) (idx : Nat) : Option Preg :=
  if r.place = .stack then none
  else
    match r.pin with
    | some p => some p
    | none => defaultReturnReg r.isByte idx

/-! ## All functions -/

structure PropState where
  vregs : Nat → VregTable
  regs : Nat → Nat → Option Preg := fun _ _ => none
  errors : Nat := 0

namespace PropState

/-- A vreg without a preference gets one. The stack pointer is none. -/
def prefer (s : PropState) (fi v : Nat) (r : Option Preg) : PropState :=
  match r with
  | none => s
  | some r =>
    if r = .sp ∨ (s.vregs fi v).prefer.isSome then s
    else
      { s with
        vregs := Function.update s.vregs fi
          (Function.update (s.vregs fi) v { s.vregs fi v with prefer := some r }) }

def markSeg (s : PropState) (fi v : Nat) : PropState :=
  { s with
    vregs := Function.update s.vregs fi
      (Function.update (s.vregs fi) v { s.vregs fi v with isSeg := true }) }

/-- The results of a call prefer the return registers. -/
def preferReturns (s : PropState) (caller : Nat) (rets : List (Option Nat))
    (returns : List FnReturn) : PropState :=
  (rets.zip returns.zipIdx).foldl (fun s (rv, r, idx) =>
    match rv with
    | some v => s.prefer caller v (returnReg r idx)
    | none => s) s

/-- The arguments of a call of an external function prefer its pins. -/
def externEdge (externs : List ExternFn) (s : PropState) (e : CallEdge) : PropState :=
  if e.callee.isSome then s
  else
    match externs.find? fun x => x.name == e.calleeName with
    | none => s
    | some x =>
      ((e.args.zip x.paramPins).foldl (fun s (v, pin) => s.prefer e.caller v pin) s).preferReturns
        e.caller e.rets x.returns

/-- Set up one argument of a call of a function. -/
def callerArg (fi : Nat) (caller : Nat) (s : PropState) (a : Nat × FnParam × Nat) : PropState :=
  match s.regs fi a.2.2 with
  | none => s
  | some r =>
    let s := s.prefer caller a.1 (some r)
    if (s.vregs fi a.2.1.vreg).isSeg then s.markSeg caller a.1 else s

/-- The arguments of a call prefer the registers of the parameters. -/
def callerEdge (fi : Nat) (fn : BindFn) (s : PropState) (e : CallEdge) : PropState :=
  if e.callee ≠ some fi then s
  else
    ((e.args.zip fn.params.zipIdx).foldl (callerArg fi e.caller) s).preferReturns e.caller e.rets
      fn.returns

/-- Give the parameters of a function their registers. -/
def assignFn (fn : BindFn) (fi : Nat) (s : PropState) : PropState :=
  let regs := (ParamRegs.assignAll (s.vregs fi) fn.params fn.insns).regs
  { s with
    regs := Function.update s.regs fi regs
    errors := s.errors + missingRegs fn.params regs }

/-- One function, then the calls of it. -/
def resolve (fns : List BindFn) (edges : List CallEdge) (s : PropState) (fi : Nat) : PropState :=
  match fns[fi]? with
  | none => s
  | some fn => edges.foldl (callerEdge fi fn) (s.assignFn fn fi)

/-- In the end the parameters prefer their registers. -/
def preferParams (s : PropState) (f : BindFn × Nat) : PropState :=
  f.1.params.zipIdx.foldl (fun s (p, i) =>
    match s.regs f.2 i with
    | some r =>
      if p.place = .stack ∨ r = .sp then s
      else
        { s with
          vregs := Function.update s.vregs f.2
            (Function.update (s.vregs f.2) p.vreg
              { s.vregs f.2 p.vreg with prefer := some r }) }
    | none => s) s

def initial (fns : List BindFn) : PropState where
  vregs := fun fi => (fns[fi]?.map BindFn.vregs).getD fun _ => {}

/-- The state before the functions are processed. -/
def afterExterns (fns : List BindFn) (externs : List ExternFn) : PropState :=
  (buildCallGraph fns).foldl (externEdge externs) (initial fns)

end PropState

open PropState in
def propagatePreferences (fns : List BindFn) (externs : List ExternFn) : PropState :=
  let edges := buildCallGraph fns
  let s := (topoSort edges fns.length).foldl (resolve fns edges) (afterExterns fns externs)
  fns.zipIdx.foldl preferParams s

/-! ## Calls -/

/-- The register in which a call passes an argument: of the function of that name, else of the
external one. -/
def callArgReg (fns : List BindFn) (externs : List ExternFn) (s : PropState) (name : String)
    (a : Nat) : Option Preg :=
  match findFn fns name with
  | some fi => s.regs fi a
  | none => (externs.find? fun x => x.name == name).bind fun x => (x.paramPins[a]?).join

/-- The register in which a function finds its parameter. -/
def entryReg (s : PropState) (fi p : Nat) : Option Preg := s.regs fi p

end Nib.Bind
