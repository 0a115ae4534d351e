import Nib.Bind.Ir

/-!
# Control-flow graph

`build_cfg` splits the instruction list at its leaders and connects the blocks.
-/

namespace Nib.Bind

/-- A basic block: the instructions `start .. stop - 1` and the successor block indices. -/
structure Block where
  start : Nat
  stop : Nat
  succs : List Nat := []
  deriving DecidableEq, Repr

/-- The instruction after one of these starts a new block. -/
def IrOp.endsBlock : IrOp → Bool
  | .jmp | .jz | .cjmp | .ret | .tailcall | .ntailcall | .gotoFn | .loop => true
  | _ => false

namespace Func

variable (fn : Func)

/-- Instruction 0, every label, and the instruction after a branch. -/
def isLeader (i : Nat) : Bool :=
  i == 0 || (fn.insns[i]?).any (·.op == .label) ||
    (fn.insns[i - 1]?).any (·.op.endsBlock)

/-- A block extends until the next leader. -/
def blockStop (i : Nat) : Nat :=
  ((List.range' (i + 1) (fn.insns.length - (i + 1))).find? fn.isLeader).getD fn.insns.length

def leaders : List Nat := (List.range fn.insns.length).filter fn.isLeader

/-- The index of the first block that starts with the label `target`. -/
def labelBlock (target : String) : Option Nat :=
  fn.leaders.findIdx? fun i =>
    (fn.insns[i]?).any fun ins => ins.op == .label && ins.name == target

/-- The successors of block `b`, whose last instruction is `term`. -/
def blockSuccs (b : Nat) (term : Insn) : List Nat :=
  let fallThrough := if b + 1 < fn.leaders.length then [b + 1] else []
  if term.op == .jz || term.op == .cjmp || term.op == .loop then
    fallThrough ++ (fn.labelBlock term.name).toList
  else if term.op == .jmp then
    (fn.labelBlock term.name).toList
  else if term.op == .ret || term.op == .tailcall || term.op == .ntailcall ||
      term.op == .gotoFn then
    []
  else fallThrough

def mkBlock (b start : Nat) : Block :=
  let stop := fn.blockStop start
  { start, stop, succs := ((fn.insns[stop - 1]?).map (fn.blockSuccs b)).getD [] }

/-- The blocks, in instruction order. -/
def buildCfg : List Block := fn.leaders.mapIdx fn.mkBlock

end Func

end Nib.Bind
