import Nib.Bind.Bound
import Nib.Asm.Spec.Operation
import Nib.Compile.Expr

/-!
# Checked indexes

* `runBound` — the lines of a check, as they are assembled and carried out
* `IndexVreg.value` — the value of the index
* `Checked` — the interrupt comes exactly for an index outside the array
* `IndexVreg.Checkable` — when it does
-/

namespace Nib.Bind

open Nib.Asm (Arg MemRef Instr R_BP)

/-! ## The processor -/

/-- The word registers, and the bytes in memory. -/
structure IndexCpu where
  reg : Nat → BitVec 16
  mem : MemRef → BitVec 8

namespace IndexCpu

variable (cpu : IndexCpu)

/-- The first four bytes are the low halves of the word registers, and the others the high ones. -/
def byteReg (n : Nat) : Nat :=
  if n < 4 then (cpu.reg n).toNat % 256 else (cpu.reg (n - 4)).toNat / 256

def word (ref : MemRef) : Nat :=
  (cpu.mem ref).toNat + 256 * (cpu.mem { ref with disp := (ref.disp + 1) % 65536 }).toNat

/-- An operand of one or two bytes. -/
def read (width : Nat) : Arg → Nat
  | .reg n => if width = 2 then (cpu.reg n).toNat else cpu.byteReg n
  | .mem ref => if width = 2 then cpu.word ref else (cpu.mem ref).toNat
  | .imm n => n
  | .sreg _ => 0

/-- The carry after a comparison: the first operand is below the second. -/
def below (i : Instr) : Option Bool :=
  let e := Asm.encode { pos := 0, relaxed := false, labels := [] } i
  if e.errors ≠ 0 then none
  else
    match Asm.decode e.bytes with
    | some ({ op := .cmp, width, args := [a, b] }, []) =>
      some (decide (cpu.read width a < cpu.read width b))
    | _ => none

end IndexCpu

inductive BoundOutcome
  | continues | interrupts
  deriving DecidableEq, Repr

/-- The lines from here, with the carry. There is no outcome when a line is not assembled. -/
def runBound (cpu : IndexCpu) : Bool → List BoundInsn → Option BoundOutcome
  | _, [] => some .continues
  | _, .cmp i :: rest => (cpu.below i).bind fun carry => runBound cpu carry rest
  | carry, .jb :: rest => if carry then some .continues else runBound cpu carry rest
  | _, .int5 :: _ => some .interrupts

/-! ## The index -/

namespace IndexVreg

variable (v : IndexVreg)

/-- A byte is in a byte register, and a word in a word register. -/
def Placed : Prop := ∀ r, v.home = .reg r → if v.isByte then r.isByte = true else r.isWord = true

/-- The value of the vreg where it is. -/
def value (cpu : IndexCpu) : Int :=
  match v.home with
  | .reg r => if v.isByte then cpu.byteReg r.code else (cpu.reg r.code).toNat
  | .mem home =>
    let m : MemVreg := { isByte := v.isByte, home }
    let ref : MemRef := { regs := [R_BP], disp := (m.offset % 65536).toNat }
    if v.isByte then (cpu.mem ref).toNat else cpu.word ref
  | .rematImm n => n % if v.isByte then 256 else 65536
  | .rematLabel _ value => value % 65536

/-- The check of an array of `n` elements, whatever the index is: the length goes from the type to
the line and from the line to the comparison. -/
def Checked (elem : Compile.Ty) (n : Int) : Prop :=
  ∀ cpu carry, runBound cpu carry (emitBound v (Compile.checkedLength (some (.array elem n)))) =
    some (if v.value cpu < n then .continues else .interrupts)

/-- The length is an immediate of the width in which the index is compared: a word register is
compared as a word, and everything else as a byte. A constant is not compared at all. -/
def Checkable (n : Int) : Prop :=
  1 ≤ n ∧ match v.home with
    | .reg _ => n < if v.isByte then 256 else 65536
    | .mem _ => v.isByte = true ∧ n < 256
    | .rematImm _ | .rematLabel .. => False

end IndexVreg

end Nib.Bind
