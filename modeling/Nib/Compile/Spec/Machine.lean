import Nib.Compile.Spec.Lines
import Nib.Infra.Bytes

/-!
# Moves, loads and stores

The meaning of the lines that move values between vregs and memory. A vreg is a word or a byte.
Its width holds for the whole function, wherever the line that records it stands. Where the
objects lie is a parameter, and so are the other lines.
-/

namespace Nib.Compile

open Nib.Infra

/-- What the binder decides about a function. -/
structure Placement where
  /-- The width that is recorded for a vreg. -/
  isByte : Int → Bool
  labelAddr : String → BitVec 16
  slotAddr : Int → BitVec 16
  /-- A byte that is moved to the vreg leaves the high half of its register as it is. -/
  keepsHigh : Int → Bool

/-- Registers, flags and the memory. -/
abbrev IrState : Type := MachState Memory

/-- The vreg whose width a line records as a byte. -/
def byteVreg : Instr → Option Int
  | .vreg v .u8 _ => some v
  | .op .loadb (.vreg d :: _) | .op .inb (.vreg d :: _) => some d
  | .op .storeb [_, .vreg v] | .op .outb [_, .vreg v] => some v
  | _ => none

namespace Placement

variable (p : Placement)

/-- The widths of these lines are recorded. -/
def Records (lines : List Instr) : Prop := ∀ i ∈ lines, ∀ v, byteVreg i = some v → p.isByte v = true

/-- The value of a vreg. -/
def value (s : IrState) (v : Int) : BitVec 16 :=
  if p.isByte v then zeroExtend (low (s.vreg v)) else s.vreg v

def setValue (s : IrState) (d : Int) (x : BitVec 16) : IrState :=
  s.setVreg d (update (p.isByte d) (s.vreg d) x)

/-- A byte that is moved to a word may leave its high half. -/
def moveKeepsHigh (d v : Int) : Bool := p.isByte d || p.isByte v && p.keepsHigh d

def move (s : IrState) (d v : Int) : IrState :=
  s.setVreg d (update (p.moveKeepsHigh d v) (s.vreg d) (p.value s v))

def load (s : IrState) (d : Int) (a : BitVec 16) : IrState :=
  p.setValue s d (readWord s.rest a)

def store (s : IrState) (a : BitVec 16) (v : Int) : IrState :=
  { s with rest := write (p.isByte v) s.rest a (s.vreg v) }

/-- The address of a memory operand, if it is fixed. -/
def memAddr : MemRef → Option (BitVec 16)
  | .abs off => some (BitVec.ofInt 16 off)
  | .sym name => some (p.labelAddr name)
  | _ => none

/-- The effect of a line. -/
def exec (other : Exec Memory) : Exec Memory := fun i s =>
  match i with
  | .op .mov [.vreg d, .imm n] => p.setValue s d (BitVec.ofInt 16 n)
  | .op .mov [.vreg d, .vreg v] => p.move s d v
  | .op .mov [.vreg d, .name l] => p.setValue s d (p.labelAddr l)
  | .op .lea [.vreg d, .vreg v] => s.setVreg d (p.slotAddr v)
  | .op .loadmem [.vreg d, .mem m] =>
    match p.memAddr m with
    | some a => p.load s d a
    | none => other i s
  | .op .storemem [.mem m, .vreg v] =>
    match p.memAddr m with
    | some a => p.store s a v
    | none => other i s
  | .op .load [.vreg d, .vreg a] | .op .loadb [.vreg d, .vreg a] => p.load s d (s.vreg a)
  | .op .store [.vreg a, .vreg v] | .op .storeb [.vreg a, .vreg v] => p.store s (s.vreg a) v
  | .vreg .. | .prefer .. | .stackLocal .. | .const .. | .note _ => s
  | _ => other i s

end Placement

end Nib.Compile
