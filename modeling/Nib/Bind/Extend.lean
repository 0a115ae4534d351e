import Nib.Bind.Shift

/-!
# Moves and extensions

* `Operand.emitMov` — a move between two vregs, segments among them
* `emitZext`, `emitCbw` — a byte into a word
-/

namespace Nib.Bind

/-- Moves, and what widening a byte needs besides. -/
inductive ExtInsn
  | base (i : ShiftInsn)
  /-- `xor r, r` -/
  | xor (r : Preg)
  /-- `and r, 0x00FF` -/
  | andByte (r : Preg)
  /-- `and [BP+off], 0x00FF` and `shr [BP+off], 8`, without a size: the assembler takes a byte. -/
  | andSlot (off : Int)
  | shrSlot (off : Int)
  | shrByte (r : Preg)
  | cbw
  deriving DecidableEq, Repr

/-- A vreg with its storage. Segments are words and live in segment registers, other vregs do not.
Nothing is assigned to `SP`, and segments are not rematerialised. -/
structure Operand extends Source where
  isSeg : Bool := false
  seg_word : isSeg = true → isByte = false
  reg : ∀ r, home = .reg r → r ≠ .sp ∧ r ≠ .flags ∧ r.isSegment = isSeg
  remat : ∀ c, home = .remat c → isSeg = false

namespace Operand

/-- `emit_mov`. -/
def emitMov (d v : Operand) : List ShiftInsn :=
  match d.home with
  | .remat _ => []
  | _ =>
    if d.home = v.home then []
    else if d.isSpilled && v.isSpilled then Bind.emitMov d.toSource v.toSource
    else if d.isSeg && v.isSeg then
      -- from segment to segment through `AX`
      [.move (.push .ax), .move (v.movTo .ax), d.movFrom .ax, .move (.pop .ax)]
    else Bind.emitMov d.toSource v.toSource

def maskLow (d : Operand) : ExtInsn :=
  match d.home with
  | .reg q => .andByte q
  | .slot off => .andSlot off
  | .remat _ => .base .bad

def shiftHigh (d : Operand) : ExtInsn :=
  match d.home with
  | .reg q => .shrByte q
  | .slot off => .shrSlot off
  | .remat _ => .base .bad

def emitZext (d v : Operand) : List ExtInsn :=
  match d.assigned.filter Preg.hasHalves with
  | some q =>
    if v.assigned = q.aliasLo then q.aliasHi.toList.map .xor
    else .xor q :: q.aliasLo.toList.map fun lo => .base (.move (v.movTo lo))
  | none =>
    match v.assigned.bind Preg.aliasParent with
    | some parent =>
      [.base (d.movFrom parent),
        if v.assigned = parent.aliasLo then d.maskLow else d.shiftHigh]
    | none =>
      if d.isSpilled && v.isSpilled then
        [.base (.move (.push .ax)), .base (.move (v.movTo .ax)), .andByte .ax,
          .base (d.movFrom .ax), .base (.move (.pop .ax))]
      else [.base (d.movPlain v.toSource), d.maskLow]

def emitCbw (d v : Operand) : List ExtInsn := (d.emitMov v).map .base ++ [.cbw]

end Operand

inductive ExtOp
  | mov | zext | cbw
  deriving DecidableEq, Repr

/-- `dst = op src`, and what is still needed after it. Only a constant has no storage. -/
structure Extension where
  op : ExtOp
  dst : Operand
  src : Operand
  stored : ∀ c, dst.home ≠ .remat c
  /-- The registers of the vregs that are live after the instruction. -/
  liveAfter : List Preg := []
  /-- The bytes of live vregs in the frame, by their offset from `BP`. -/
  liveBytes : List Int := []

def Extension.emit (i : Extension) : List ExtInsn :=
  match i.op with
  | .mov => (i.dst.emitMov i.src).map .base
  | .zext => i.dst.emitZext i.src
  | .cbw => i.dst.emitCbw i.src

end Nib.Bind
