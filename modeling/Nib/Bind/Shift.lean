import Nib.Bind.Moves

/-!
# Variable shifts

* `emitMov`, `emitShift` — the instructions of `dst = src1 op src2` with the count in `CL`
* `routeShift` — what is put around them to get the count there

Vregs of segments are not shifted: the move between two of them is left out.
-/

namespace Nib.Bind

/-- Moves, and what a shift needs besides. -/
inductive ShiftInsn
  | move (i : MoveInsn)
  /-- `xchg AX, r` -/
  | xchg (r : Preg)
  /-- `mov [BP+off], imm` without a size: the assembler stores a byte. -/
  | storeConst (off : Int) (c : Recipe)
  /-- `op r, CL` -/
  | shift (op : String) (r : Preg)
  /-- `op [BP+off], CL` -/
  | shiftSlot (op : String) (word : Bool) (off : Int)
  /-- A constant as destination, or an operand without a name: it is not assembled. -/
  | bad
  deriving DecidableEq, Repr

/-- `mov d, r` with the operand of a vreg. -/
def Source.movFrom (d : Source) (r : Preg) : ShiftInsn :=
  match d.home with
  | .reg q => .move (.mov q r)
  | .slot off => .move (.store off r)
  | .remat _ => .bad

/-- `pop d` with the operand of a vreg. -/
def Source.popTo (d : Source) : ShiftInsn :=
  match d.home with
  | .reg q => .move (.pop q)
  | .slot off => .move (.popSlot off)
  | .remat _ => .bad

/-- `mov d, v`, both operands as they are. -/
def Source.movPlain (d v : Source) : ShiftInsn :=
  match d.home, v.home with
  | .reg q, _ => .move (v.movTo q)
  | .slot off, .reg r => .move (.store off r)
  | .slot off, .remat c => .storeConst off c
  | _, _ => .bad

def Source.isByteOperand (v : Source) : Bool := v.isByte || v.assigned.any Preg.isByte

def emitMov (d v : Source) : List ShiftInsn :=
  match d.home with
  | .remat _ => []
  | _ =>
    if d.home = v.home then []
    else if d.isSpilled && v.isSpilled then
      if d.isByteOperand || v.isByteOperand then
        [.move (.push .ax), .move (v.movTo .al), d.movFrom .al, .move (.pop .ax)]
      else [.move v.pushed, d.popTo]
    else
      match v.assigned.filter fun r => d.isByteOperand && r.isWord with
      | some r =>
        match r.aliasLo with
        | some lo => if d.assigned = some lo then [] else [d.movFrom lo]
        | none =>
          if d.assigned = some .al then [.move (.mov .ax r)]
          else [.xchg r, d.movFrom .al, .xchg r]
      | none =>
        match d.assigned.filter fun _ => !d.isByteOperand && v.isByteOperand with
        | some q =>
          match q.aliasLo with
          | some lo => [.move (v.movTo lo)]
          | none =>
            match v.assigned.bind Preg.aliasParent with
            | some parent =>
              [.move (.mov q parent),
                .move (if v.assigned = parent.aliasLo then .andByte q else .shrByte q)]
            | none =>
              [.move (.push .ax), .move .xorAx, .move (v.movTo .al), .move (.mov q .ax),
                .move (.pop .ax)]
        | none => [d.movPlain v]

/-- A shift `dst = src1 op src2` with a variable count. -/
structure VarShift where
  op : String
  dst : Source
  src1 : Source
  src2 : Source
  /-- The destination lives in a stack parameter: it is addressed without a size. -/
  stackHome : Bool := false
  /-- The registers of the other vregs that are live after the instruction. -/
  liveAfter : List Preg := []
  /-- The registers that the stack cache pops before the instruction and pushes after it. -/
  cachePops : List Preg := []
  cachePushes : List Preg := []
  deriving DecidableEq, Repr

namespace VarShift

variable (i : VarShift)

/-- `op dst, CL` -/
def shiftDst : ShiftInsn :=
  match i.dst.home with
  | .reg r => .shift i.op r
  | .slot off => .shiftSlot i.op (!i.dst.isByte && !i.stackHome) off
  | .remat _ => .bad

/-- The instruction itself: the count is taken to be in `CL`. -/
def emitShift : List ShiftInsn := emitMov i.dst i.src1 ++ [i.shiftDst]

/-- `rins_ir_stack_cached`. -/
def rinsIrStackCached : List ShiftInsn :=
  i.cachePops.map (fun r => .move (.pop r)) ++ i.emitShift ++
    i.cachePushes.map (fun r => .move (.push r))

/-- `free_regs_at`: no vreg that is live at the instruction is in the register or a half of it. -/
def isFree (r : Preg) : Bool :=
  !((i.liveAfter ++ i.src1.assigned.toList ++ i.src2.assigned.toList).any (pregsAlias r))

def dstIsCx : Bool := i.dst.assigned.any fun r => r == .cx || r == .cl || r == .ch

/-- The planned move of the count. -/
def moveCount : List ShiftInsn := (emitPlannedRegisterMoves [⟨.cl, i.src2⟩]).map .move

/-- `mov CL, ` with the count of a shift that goes through `AX`. Constants have no register. -/
def loadCount : ShiftInsn :=
  match i.src2.home with
  | .remat _ => .bad
  | _ => .move (i.src2.movTo .cl)

/-- `CL` routing. -/
def routeShift : List ShiftInsn :=
  if i.src2.assigned = some .cl then i.rinsIrStackCached
  else if i.isFree .cx && !i.dstIsCx then i.moveCount ++ i.rinsIrStackCached
  else if !i.dstIsCx then
    [.move (.push .cx)] ++ i.moveCount ++ i.rinsIrStackCached ++ [.move (.pop .cx)]
  else
    let acc : Preg := if i.dst.isByte then .al else .ax
    (if i.isFree .ax then [] else [.move (.push .ax)]) ++
      [.move (i.dst.movTo acc), .move (.push .cx), i.loadCount, .shift i.op acc,
        .move (.pop .cx), i.dst.movFrom acc] ++
      (if i.isFree .ax then [] else [.move (.pop .ax)])

end VarShift

end Nib.Bind
