import Nib.Bind.Moves
import Nib.Bind.Interrupt

/-!
# Parameters at the entry of a function

The prologue of a function that is no interrupt handler, and `emit_param_entry_moves`, which takes
each parameter from the register it arrives in to the place its vreg has been given.
-/

namespace Nib.Bind

/-- Where the vreg of a parameter lives. One that is never used has no register. -/
inductive EntryHome
  | reg (r : Preg)
  | slot (off : Int)
  | nowhere
  deriving DecidableEq, Repr

structure EntryParam where
  /-- `param_regs[p]`. A parameter on the stack has no register. -/
  expected : Option Preg
  isByte : Bool := false
  isSeg : Bool := false
  isLocalSlot : Bool := false
  home : EntryHome
  deriving DecidableEq, Repr

/-- A function with its parameters. Of the record of its prologue `isr_save` is not used. -/
structure EntryFn where
  frame : Handler
  params : List EntryParam

/-- `[BP]`, where the prologue with a frame has put `BP`. -/
def savedBp : Source := { home := .slot 0 }

/-- Through `AX`, which is saved. -/
def viaAx (v : Source) (last : MoveInsn) : List MoveInsn := [.push .ax, v.movTo .ax, last, .pop .ax]

/-- The register of a parameter, or the word that the prologue has saved `BP` in. -/
def entrySource (needsFrame : Bool) (expected : Preg) : Source :=
  if expected = .bp ∧ needsFrame then savedBp else { home := .reg expected }

namespace EntryParam

variable (needsFrame : Bool) (p : EntryParam)

/-- One round of the loop. -/
def entryMove : List MoveInsn :=
  match p.expected with
  | none => []
  | some expected =>
    if p.isLocalSlot then []
    else
      match p.home with
      | .slot off =>
        if expected = .bp ∧ needsFrame then viaAx savedBp (.store off .ax)
        else [.store off expected]
      | .nowhere => []
      | .reg assigned =>
        if assigned = expected ∨ pregsAlias assigned expected then []
        else if p.isSeg ∧ assigned.isSegment then
          if expected.isSegment then viaAx { home := .reg expected } (.mov assigned .ax)
          else if expected = .bp ∧ needsFrame then viaAx savedBp (.mov assigned .ax)
          else if expected = .ax then [.mov assigned .ax]
          else viaAx { home := .reg expected } (.mov assigned .ax)
        else if assigned.isWord ∧ expected.isWord then
          if expected = .bp ∧ needsFrame then
            if assigned = .ax then [savedBp.movTo .ax] else viaAx savedBp (.mov assigned .ax)
          else [.mov assigned expected]
        else []

end EntryParam

namespace EntryFn

variable (f : EntryFn)

/-- The prologue up to the moves. -/
def prologue : List WrapInsn :=
  if f.frame.isBare then []
  else f.frame.emitFrame ++ emitSaveSet f.frame.saveRegs false ++ f.frame.emitDsSetup

/-- `emit_param_entry_moves`. -/
def emitParamEntryMoves : List MoveInsn :=
  if f.frame.isBare then [] else f.params.flatMap (EntryParam.entryMove f.frame.needsFrame)

end EntryFn

end Nib.Bind
