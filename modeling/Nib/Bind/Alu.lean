import Nib.Bind.Extend

/-!
# Three-address arithmetic

* `Alu.emit` — `dst = op src1, src2`: the first operand is moved to the destination, and the second
  is applied to it
-/

namespace Nib.Bind

/-- The operations that have no instructions of their own. -/
inductive AluOp
  | add | adc | sub | sbb | and | or | xor
  | shift (op : String)
  deriving DecidableEq, Repr

/-- `is_shift_op`. -/
def AluOp.isShiftOp : AluOp → Bool
  | .shift _ => true
  | _ => false

inductive AluSrc
  | reg (r : Preg)
  | slot (off : Int)
  | const (c : Recipe)
  deriving DecidableEq, Repr

/-- Moves, and `op dst, src`. -/
inductive AluInsn
  | base (i : ShiftInsn)
  | op (o : AluOp) (q : Preg) (src : AluSrc)
  /-- The destination is in memory. Unless a register or `word` says otherwise it is a byte. -/
  | opSlot (o : AluOp) (word : Bool) (off : Int) (src : AluSrc)
  deriving DecidableEq, Repr

/-- The second operand. -/
inductive Rhs
  | vreg (v : Operand)
  | imm (k : Int)

/-- `dst = op src1, src2`, and what is still needed after it. Only a constant has no storage. -/
structure Alu where
  op : AluOp
  dst : Operand
  src1 : Operand
  src2 : Rhs
  stored : ∀ c, dst.home ≠ .remat c
  /-- The slot of the destination is its stack home. -/
  stackHome : Bool := false
  /-- The registers of the vregs that are live after the instruction. -/
  liveAfter : List Preg := []
  /-- The bytes of live vregs in the frame, by their offset from `BP`. -/
  liveBytes : List Int := []

/-- `vreg_asm`. -/
def Source.asSrc (v : Source) : AluSrc :=
  match v.home with
  | .reg r => .reg r
  | .slot off => .slot off
  | .remat c => .const c

namespace Alu

variable (i : Alu)

/-- `op dst, src` -/
def apply (word : Bool) (src : AluSrc) : AluInsn :=
  match i.dst.home with
  | .reg q => .op i.op q src
  | .slot off => .opSlot i.op word off src
  | .remat _ => .base .bad

/-- `vreg_asm_sized` gives a stack home no size. -/
def sizedWord : Bool := !i.dst.isByte && !i.stackHome

def acc : Preg := if i.dst.isByte then .al else .ax

def dstIsSrc2 : Bool :=
  match i.src2 with
  | .imm _ => false
  | .vreg v => !i.dst.isSpilled && !v.isSpilled && i.dst.assigned == v.assigned

def emit : List AluInsn :=
  if i.dstIsSrc2 && !i.op.isShiftOp then
    -- the second operand is in place
    if i.src1.isSpilled then
      [.base (.move (i.src1.movTo i.acc)), i.apply false (.reg i.acc)]
    else [i.apply false i.src1.asSrc]
  else
    (i.dst.emitMov i.src1).map .base ++
      match i.src2 with
      | .imm k => [i.apply i.sizedWord (.const (.imm k))]
      | .vreg v =>
        if i.op.isShiftOp then [i.apply i.sizedWord (.reg .cl)]
        else if i.dst.isSpilled && v.isSpilled then
          [.base (.move (v.movTo i.acc)), i.apply false (.reg i.acc)]
        else [i.apply false v.asSrc]

end Alu

end Nib.Bind
