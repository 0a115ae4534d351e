import Nib.Bind.Preg

/-!
# The interrupt wrapper

What `emit_function` writes around the body of an interrupt handler: the saved registers, the frame
and the setup of `DS` before it, and `emit_epilogue` at every return. Handlers have no parameters,
so no entry moves are written.
-/

namespace Nib.Bind

/-! ## Instructions -/

/-- The source of `mov AX, ...` in the setup of `DS`. -/
inductive DsSource
  | segOf (symbol : String)
  | literal (value : Int)
  deriving DecidableEq, Repr

/-- The instructions of prologues and epilogues. -/
inductive WrapInsn
  | push (r : Preg)
  | pop (r : Preg)
  | pushf
  | popf
  | pusha
  | popa
  | movBpSp
  | movSpBp
  | subSp (n : Nat)
  | movAx (src : DsSource)
  | movDsAx
  | iret
  deriving DecidableEq, Repr

/-! ## Sets of saved registers -/

def coveredByPusha : Preg → Bool
  | .ax | .cx | .dx | .bx | .bp | .si | .di => true
  | _ => false

def saveSetUsesPusha (regs : List Preg) : Bool :=
  decide (6 ≤ (regs.filter coveredByPusha).length)

def emitSavedPush : Preg → WrapInsn
  | .flags => .pushf
  | r => .push r

def emitSavedPop : Preg → WrapInsn
  | .flags => .popf
  | r => .pop r

def emitSaveSet (regs : List Preg) (usePusha : Bool) : List WrapInsn :=
  if usePusha then (regs.filter fun r => !coveredByPusha r).map emitSavedPush ++ [.pusha]
  else regs.map emitSavedPush

/-- The registers that were saved last are restored first. -/
def emitRestoreSet (regs : List Preg) (usedPusha : Bool) : List WrapInsn :=
  if usedPusha then .popa :: ((regs.filter fun r => !coveredByPusha r).reverse.map emitSavedPop)
  else regs.reverse.map emitSavedPop

/-! ## Handlers -/

/-- The `ds()` policy of a function. -/
inductive DsPolicy
  | unspec | caller | none
  | symbol (name : String)
  | literal (value : Int)
  deriving DecidableEq, Repr

def DsPolicy.source? : DsPolicy → Option DsSource
  | symbol name => some (.segOf name)
  | literal value => some (.literal value)
  | _ => Option.none

/-- An interrupt handler after registers have been allocated. -/
structure Handler where
  /-- The registers assigned to the vregs that are defined. -/
  assigned : List Preg := []
  needsFrame : Bool := false
  frameSize : Nat := 0
  preserves : List Preg := []
  /-- The parser keeps at most `NUM_PREGS` registers. -/
  preserves_length : preserves.length ≤ 21 := by decide
  /-- What the instructions of the function and its callees clobber. -/
  collected : Preg → Bool := fun _ => false
  dsPolicy : DsPolicy := .unspec
  isBare : Bool := false

namespace Handler

/-- A function with a `ds()` policy does not clobber `DS`. -/
def clobbers (h : Handler) (r : Preg) : Bool :=
  h.collected r && !(r == .ds && h.dsPolicy != .unspec)

/-- The word register that a vreg in a register makes the handler save. -/
def wordOf : Preg → Option Preg
  | .al | .ah => some .ax
  | .cl | .ch => some .cx
  | .dl | .dh => some .dx
  | .bl | .bh => some .bx
  | .ax => some .ax
  | .cx => some .cx
  | .dx => some .dx
  | .bx => some .bx
  | .bp => some .bp
  | .si => some .si
  | .di => some .di
  | _ => none

/-- The registers `word_used` can name, in the order of their numbers. `SP` is skipped. -/
def wordRegs : List Preg := [.ax, .cx, .dx, .bx, .bp, .si, .di]

def wordUsed (h : Handler) (r : Preg) : Bool :=
  h.assigned.any (fun a => wordOf a == some r) || (h.needsFrame && r == .bp) || h.clobbers r

/-- `isr_save`. -/
def isrSave (h : Handler) : List Preg := wordRegs.filter h.wordUsed

/-- `collect_function_save_regs`. -/
def saveRegs (h : Handler) : List Preg := h.preserves.filter h.clobbers

def dsExplicitSave (h : Handler) : Bool :=
  h.dsPolicy.source?.isSome && !h.saveRegs.contains .ds

def emitDsSetup (h : Handler) : List WrapInsn :=
  match h.dsPolicy.source? with
  | none => []
  | some src =>
    (if h.dsExplicitSave then [.push .ds] else []) ++
      [.push .ax, .movAx src, .movDsAx, .pop .ax]

def emitFrame (h : Handler) : List WrapInsn :=
  if h.needsFrame then
    [.push .bp, .movBpSp] ++ (if 0 < h.frameSize then [.subSp h.frameSize] else [])
  else []

/-- What is written before the body. A `bare` handler manages its own stack. -/
def emitPrologue (h : Handler) : List WrapInsn :=
  if h.isBare then [] else
  emitSaveSet h.isrSave (saveSetUsesPusha h.isrSave) ++ h.emitFrame ++
    emitSaveSet h.saveRegs false ++ h.emitDsSetup

/-- What is written for a return. A `bare` handler returns by itself. -/
def emitEpilogue (h : Handler) : List WrapInsn :=
  if h.isBare then [] else
  (if h.dsExplicitSave then [.pop .ds] else []) ++ emitRestoreSet h.saveRegs false ++
    (if h.needsFrame then [.movSpBp, .pop .bp] else []) ++
    emitRestoreSet h.isrSave (saveSetUsesPusha h.isrSave) ++ [.iret]

end Handler

end Nib.Bind
