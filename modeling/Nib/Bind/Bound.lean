import Nib.Bind.Widths
import Nib.Bind.Moves

/-!
# Checked indexes

`bound` compares an index with the length of an array, which is an immediate of the line. The
index is printed wherever its vreg has been placed.
-/

namespace Nib.Bind

open Nib.Asm (Instr)

/-- The number of a register in an instruction. -/
def Preg.code : Preg → Nat
  | .ax | .al | .es => 0
  | .cx | .cl | .cs => 1
  | .dx | .dl | .ss => 2
  | .bx | .bl | .ds => 3
  | .sp | .ah => 4
  | .bp | .ch => 5
  | .si | .dh => 6
  | .di | .bh => 7
  | .flags => 0

/-- The name of a register as the assembler reads it. -/
def Preg.operand (r : Preg) : Asm.Operand :=
  if r.isWord then { type := .reg, reg := r.code, size := 2 }
  else if r.isByte then { type := .reg, reg := r.code, size := 1 }
  else if r.isSegment then { type := .sreg, reg := r.code, size := 2 }
  else {}

/-- Where the vreg of an index has been placed. A label is that of a constant or of a function. -/
inductive IndexHome
  | reg (r : Preg)
  | mem (home : MemHome)
  | rematImm (n : Int)
  | rematLabel (name : List Char) (value : Int)
  deriving DecidableEq, Repr

structure IndexVreg where
  isByte : Bool
  home : IndexHome
  deriving DecidableEq, Repr

namespace IndexVreg

variable (v : IndexVreg)

/-- `vreg_asm`. -/
def vregAsm : Asm.Operand :=
  match v.home with
  | .reg r => r.operand
  | .mem home => { isByte := v.isByte, home : MemVreg }.vregAsm
  | .rematImm n => immOperand n
  | .rematLabel name value => { immOperand value with label := name, size := 2 }

end IndexVreg

/-- The lines of a check. `jb` goes to the end of them. -/
inductive BoundInsn
  | cmp (i : Instr)
  | jb
  | int5
  deriving DecidableEq, Repr

/-- `IR_BOUND`. -/
def emitBound (v : IndexVreg) (limit : Int) : List BoundInsn :=
  if limit > 0 then [.cmp (.alu 7 v.vregAsm (immOperand limit)), .jb, .int5] else []

end Nib.Bind
