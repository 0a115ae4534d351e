import Nib.Bind.Extend

/-!
# Port input and output

* `PortIo.emitIn`, `PortIo.emitOut` — the port goes to `DX` unless it is a constant, the data
  through `AL` or `AX`
-/

namespace Nib.Bind

/-- Moves, and the port accesses. -/
inductive PortInsn
  | base (i : ShiftInsn)
  /-- `in acc, 0xNN`. The assembler takes the low byte. -/
  | inImm (byte : Bool) (k : Int)
  /-- `in acc, DX` -/
  | inDx (byte : Bool)
  | outImm (byte : Bool) (k : Int)
  | outDx (byte : Bool)
  deriving DecidableEq, Repr

inductive Port
  | imm (k : Int)
  | vreg (v : Operand)

/-- A port access: `in`, `inb`, `out` and `outb`. -/
structure PortIo where
  byte : Bool
  port : Port
  /-- The destination of an input, the value of an output. -/
  data : Operand
  /-- The registers of all vregs that are live after the instruction. -/
  liveAfter : List Preg := []

/-- `scratch_word_not_aliasing`. -/
def scratchWordNotAliasing (avoid : Preg) : Preg :=
  (([.bx, .cx, .dx, .si, .di] : List Preg).find? fun r => !pregsAlias r avoid).getD .bx

/-- `scratch_byte_for_parent`. -/
def scratchByteForParent : Preg → Preg
  | .bx => .bl
  | .cx => .cl
  | .dx => .dl
  | _ => .bl

namespace PortIo

variable (i : PortIo)

def acc : Preg := if i.byte then .al else .ax

/-- `preg_live_after_insn`. -/
def pregLiveAfter (written : Preg) : Bool :=
  i.liveAfter.any fun r => pregWriteClobbers (some written) (some r)

def portPreg : Option Preg :=
  match i.port with
  | .imm _ => none
  | .vreg v => v.assigned

/-- A port that has to be brought to `DX`. -/
def portElsewhere : Bool :=
  match i.port with
  | .imm _ => false
  | .vreg v => v.assigned != some .dx

def loadPort : List PortInsn :=
  match i.port with
  | .imm _ => []
  | .vreg v => [.base (.move (v.movTo .dx))]

def push (r : Preg) : PortInsn := .base (.move (.push r))

def pop (r : Preg) : PortInsn := .base (.move (.pop r))

/-! ## Input -/

def dstAccAlias : Bool :=
  i.data.assigned.any fun q => pregWriteClobbers (some .ax) (some q)

def dstDxAlias : Bool := i.data.assigned.any fun q => pregsAlias q .dx

def preserveAcc : Bool := i.pregLiveAfter i.acc

def preserveDx : Bool := i.portElsewhere && !i.dstDxAlias && i.pregLiveAfter .dx

/-- The destination needs a register of its own while `AX` comes back. -/
def scratchParent : Preg := scratchWordNotAliasing (i.data.assigned.getD .ax)

def scratch : Preg := if i.byte then scratchByteForParent i.scratchParent else i.scratchParent

def inInsn : PortInsn :=
  match i.port with
  | .imm k => .inImm i.byte k
  | .vreg _ => .inDx i.byte

def emitIn : List PortInsn :=
  (if i.preserveAcc && i.dstAccAlias then [push i.scratchParent] else []) ++
    (if i.preserveDx then [push .dx] else []) ++
    (if i.preserveAcc then [push .ax] else []) ++
    (if i.portElsewhere then i.loadPort else []) ++ [i.inInsn] ++
    if i.preserveAcc && i.dstAccAlias then
      [.base (.move (.mov i.scratch i.acc)), pop .ax, .base (i.data.movFrom i.scratch)] ++
        (if i.preserveDx then [pop .dx] else []) ++ [pop i.scratchParent]
    else
      (if i.data.assigned = some i.acc then [] else [.base (i.data.movFrom i.acc)]) ++
        (if i.preserveAcc then [pop .ax] else []) ++ (if i.preserveDx then [pop .dx] else [])

/-! ## Output -/

/-- The value is where it is wanted. -/
def valIsAcc : Bool := i.data.assigned == some i.acc

def portAliasesAx : Bool := i.portPreg.any fun r => pregsAlias r .ax

def valAliasesDx : Bool := i.data.assigned.any fun r => pregsAlias r .dx

def saveAcc : Bool := !i.valIsAcc && i.pregLiveAfter i.acc

def saveDx : Bool := i.portElsewhere && i.pregLiveAfter .dx

/-- The port and the value are in each other's place. -/
def saveAxPort : Bool := i.portElsewhere && i.portAliasesAx && i.valAliasesDx

/-- The port leaves `AX` before the value comes. -/
def portFirst : Bool := i.portElsewhere && i.portAliasesAx && !i.saveAxPort

def outInsn : PortInsn :=
  match i.port with
  | .imm k => .outImm i.byte k
  | .vreg _ => .outDx i.byte

def emitOut : List PortInsn :=
  (if i.saveDx then [push .dx] else []) ++ (if i.saveAcc then [push .ax] else []) ++
    (if i.saveAxPort then [push .ax] else []) ++ (if i.portFirst then i.loadPort else []) ++
    (if i.valIsAcc then [] else [.base (.move (i.data.movTo i.acc))]) ++
    (if i.portElsewhere && !i.portFirst then
      if i.saveAxPort then [pop .dx] else i.loadPort
    else []) ++ [i.outInsn] ++
    (if i.saveAcc then [pop .ax] else []) ++ (if i.saveDx then [pop .dx] else [])

end PortIo

end Nib.Bind
