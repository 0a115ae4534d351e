import Nib.Infra.MoveSchedule
import Nib.Bind.Remat

/-!
# Moves into registers

* `rinsMovPregFromVreg`, `rinsPushVregTemp` — one vreg into a register, or onto the stack
* `emitPlannedRegisterMoves` — several at once, with the stack for sources that would be lost

The instructions are those of the resolved stream, before they are printed.
-/

namespace Nib.Bind

open Nib.Infra

namespace Preg

/-- `preg_is_byte`. -/
def isByte : Preg → Bool
  | al | cl | dl | bl | ah | ch | dh | bh => true
  | _ => false

/-- `preg_is_word`. -/
def isWord : Preg → Bool
  | ax | cx | dx | bx | sp | bp | si | di => true
  | _ => false

/-- The word register that a byte register is a half of. -/
def aliasParent : Preg → Option Preg
  | al | ah => some ax
  | cl | ch => some cx
  | dl | dh => some dx
  | bl | bh => some bx
  | _ => none

end Preg

/-- Does a write to `written` change `live`? -/
def pregWriteClobbers (written live : Option Preg) : Bool :=
  match written, live with
  | some written, some live =>
    written == live ||
      if written.hasHalves then written.aliasLo == some live || written.aliasHi == some live
      else written.isByte && written.aliasParent == some live
  | _, _ => false

/-! ## Instructions -/

/-- The instructions that carry out moves. Slots are addressed from `BP`. -/
inductive MoveInsn
  | mov (dst src : Preg)
  | movConst (dst : Preg) (c : Recipe)
  | load (dst : Preg) (off : Int)
  | store (off : Int) (src : Preg)
  | push (r : Preg)
  | pushSlot (off : Int)
  | pushConst (c : Recipe)
  | pop (r : Preg)
  | popSlot (off : Int)
  | movBpSp
  /-- `xchg AX, [BP+2]` -/
  | xchgAx
  | xorAx
  /-- `and r, 0x00FF` -/
  | andByte (r : Preg)
  /-- `shr r, 8` -/
  | shrByte (r : Preg)
  deriving DecidableEq, Repr

/-- Where a vreg lives: `assigned`, the slot of a spill or of a stack home, or its recipe. -/
inductive Home
  | reg (r : Preg)
  | slot (off : Int)
  | remat (c : Recipe)
  deriving DecidableEq, Repr

/-- A vreg that is moved. -/
structure Source where
  isByte : Bool := false
  home : Home
  deriving DecidableEq, Repr

namespace Source

def assigned (v : Source) : Option Preg :=
  match v.home with
  | .reg r => some r
  | _ => none

def isSpilled (v : Source) : Bool :=
  match v.home with
  | .slot _ => true
  | _ => false

/-- `mov dst, ` with the operand of `vreg_asm`. -/
def movTo (v : Source) (dst : Preg) : MoveInsn :=
  match v.home with
  | .reg r => .mov dst r
  | .slot off => .load dst off
  | .remat c => .movConst dst c

/-- `push ` with the operand of `vreg_asm`. -/
def pushed (v : Source) : MoveInsn :=
  match v.home with
  | .reg r => .push r
  | .slot off => .pushSlot off
  | .remat c => .pushConst c

end Source

/-- Leave a word under the stack pointer's old value whose low byte is the vreg. -/
def rinsPushByteVreg (v : Source) : List MoveInsn :=
  [.push .ax, v.movTo .al, .push .bp, .movBpSp, .xchgAx, .pop .bp]

def rinsPushVregTemp (v : Source) : List MoveInsn :=
  if v.isByte then rinsPushByteVreg v else [v.pushed]

def rinsMovPregFromVreg (expected : Preg) (v : Source) : List MoveInsn :=
  match v.home with
  | .remat c => [.movConst expected c]
  | _ =>
    if expected.isSegment then
      if v.assigned = some expected then []
      else [.push .ax, v.movTo .ax, .mov expected .ax, .pop .ax]
    else
      match v.assigned.filter fun actual => expected.isByte && actual.isWord with
      | some actual =>
        match actual.aliasLo with
        | some lo => if expected = lo then [] else [.mov expected lo]
        | none =>
          if expected = .al then [.mov .ax actual]
          else [.push .ax, .mov .ax actual, .mov expected .al, .pop .ax]
      | none =>
        if !expected.isByte && (v.isByte || v.assigned.any Preg.isByte) && expected.isWord then
          match expected.aliasLo with
          | some lo => [v.movTo lo]
          | none =>
            match v.assigned.bind Preg.aliasParent with
            | some parent =>
              [.mov expected parent,
                if v.assigned = parent.aliasLo then .andByte expected else .shrByte expected]
            | none => [.push .ax, .xorAx, v.movTo .al, .mov expected .ax, .pop .ax]
        else [v.movTo expected]

/-! ## Planned moves -/

/-- A destination and the vreg it is to hold. -/
structure PlannedMove where
  dst : Preg
  src : Source
  deriving DecidableEq, Repr

namespace PlannedMove

/-- `planned_move_source_dep_reg`. -/
def srcDepReg (m : PlannedMove) : Option Preg :=
  match m.src.home with
  | .reg r => some r
  | .slot _ => some .bp
  | .remat _ => none

/-- `planned_move_clobber_reg`. -/
def clobberReg (m : PlannedMove) : Preg :=
  if m.dst.isSegment then m.dst
  else
    match m.src.assigned.filter fun actual => m.dst.isByte && actual.isWord with
    | some actual => if !actual.hasHalves && m.dst == .al then .ax else m.dst
    | none =>
      if !m.dst.isByte && (m.src.isByte || m.src.assigned.any Preg.isByte) && m.dst.isWord then
        m.dst.aliasLo.getD m.dst
      else m.dst

/-- A half of `AX`. -/
def isAxByte (m : PlannedMove) : Bool := m.dst.isByte && m.dst.aliasParent == some .ax

end PlannedMove

/-- A move and its number. -/
abbrev Numbered := PlannedMove × Nat

def clobbersPendingSrc (i j : Numbered) : Bool :=
  pregWriteClobbers (some i.1.clobberReg) j.1.srcDepReg

/-- The move whose source is put aside: the first one, but rather not a half of `AX`. -/
def saveVictim (us : List Numbered) : Option Numbered :=
  (us.find? fun m => !m.1.isAxByte).or us.head?

/-- The turns of the moves. The counter of the loop ends it. -/
def planTurns (moves : List PlannedMove) : List (Turn Numbered) :=
  schedule clobbersPendingSrc saveVictim moves.length moves.zipIdx

def emitTurn : Turn Numbered → List MoveInsn
  | .perform m => rinsMovPregFromVreg m.1.dst m.1.src
  | .save m => rinsPushVregTemp m.1.src

/-- Take the word of a source that has been put aside. -/
def popSaved (m : PlannedMove) : List MoveInsn :=
  if m.dst.isByte then
    if m.dst.aliasParent = some .ax then [.pop .ax]
    else [.push .bp, .movBpSp, .xchgAx, .mov m.dst .al, .pop .bp, .pop .ax]
  else [.pop m.dst]

def emitPlannedRegisterMoves (moves : List PlannedMove) : List MoveInsn :=
  (planTurns moves).flatMap emitTurn ++
    (moves.zipIdx.reverse.filter (· ∈ Turn.saves (planTurns moves))).flatMap fun m => popSaved m.1

end Nib.Bind
