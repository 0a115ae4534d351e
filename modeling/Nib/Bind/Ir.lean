import Nib.Bind.Preg

/-!
# The binder's IR

Instructions and functions as the binder holds them after parsing. A vreg field that is `-1`
in the source is `none` here. The growth capacities of the arrays have no counterpart.

* `Insn.uses`, `Insn.defs` — the vregs an instruction reads and writes, in the order in which
  the liveness passes visit them
-/

namespace Nib.Bind

/-- IR instruction opcodes. -/
inductive IrOp
  | mov | alu | unary | cmp | jz | jmp
  | call | mcall | icall | ncall | tailcall | ntailcall | gotoFn
  | cjmp | ret | retval
  | load | store | loadmem | storemem | field | storefield
  | bound | setflag | getflag | toggleflag | assume
  | loop | break_ | continue_
  | farLit | lea | frameEnter | frameLeave
  | asm | prefer | label | nop
  deriving DecidableEq, Repr

/-- One IR instruction. -/
structure Insn where
  op : IrOp
  dst : Option Nat := none
  src1 : Option Nat := none
  src2 : Option Nat := none
  extraArgs : List Nat := []
  retVregs : List Nat := []
  imm : Option Int := none
  name : String := ""
  memSeg : Option Preg := none
  memDisp : Option Int := none
  deriving DecidableEq, Repr

namespace Insn

def definesDst (ins : Insn) : Bool :=
  if ins.dst.isNone then false
  else if ins.op == .store || ins.op == .storemem || ins.op == .storefield then false
  else if ins.op == .alu &&
      (ins.name == "out" || ins.name == "outb" || ins.name == "bins" || ins.name == "stos") then
    false
  else true

def readsDst (ins : Insn) : Bool := ins.dst.isSome && !ins.definesDst

/-- A register-to-register move: `op == IR_MOV && !has_imm`. -/
def isCopy (ins : Insn) : Bool := ins.op == .mov && ins.imm.isNone

/-- The vregs read, as `compute_block_def_use` collects them. -/
def uses (ins : Insn) : List Nat :=
  (if ins.op != .lea then ins.src1.toList else []) ++ ins.src2.toList ++ ins.extraArgs ++
    (if ins.op == .retval then ins.retVregs else []) ++
    (if ins.readsDst then ins.dst.toList else [])

/-- The vregs written: the destination, then the extra returns of an `mcall`. -/
def defs (ins : Insn) : List Nat :=
  (if ins.definesDst then ins.dst.toList else []) ++
    (if ins.op == .mcall then ins.retVregs else [])

end Insn

/-- Where a parameter or a return value is passed. -/
inductive AbiPlace
  | default | register | stack
  deriving DecidableEq, Repr

structure Param where
  vreg : Nat
  place : AbiPlace := .default
  deriving DecidableEq, Repr

/-- What the allocation passes read of a function. -/
structure Func where
  insns : List Insn
  nvregs : Nat
  params : List Param := []
  deriving DecidableEq, Repr

namespace Func

/-- The vregs of all parameters, in order. -/
def paramVregs (fn : Func) : List Nat := fn.params.map Param.vreg

/-- The vregs of the parameters that arrive in a register. -/
def regParamVregs (fn : Func) : List Nat :=
  (fn.params.filter fun p => p.place != .stack).map Param.vreg

end Func

end Nib.Bind
