import Nib.Compile.Stmt
import Nib.Infra.Simulation

/-!
# Running the lines of a function

What a line other than a label or a jump does to the state is a parameter. `jz`, `jmp`, `loop` and
the jumps on flags have their meaning here.
-/

namespace Nib.Compile

open Nib.Infra

/-- Virtual registers, flags, and everything else. -/
structure MachState (ρ : Type) where
  vreg : Int → BitVec 16
  flag : Flag → Bool
  rest : ρ

/-- The effect of a line that does not transfer control. -/
abbrev Exec (ρ : Type) : Type := Instr → MachState ρ → MachState ρ

variable {ρ : Type}

def execAll (exec : Exec ρ) (is : List Instr) (s : MachState ρ) : MachState ρ :=
  is.foldl (fun s i => exec i s) s

def MachState.setVreg (s : MachState ρ) (v : Int) (x : BitVec 16) : MachState ρ :=
  { s with vreg := fun u => if u = v then x else s.vreg u }

/-- Count a vreg down. -/
def MachState.decr (s : MachState ρ) (v : Int) : MachState ρ := s.setVreg v (s.vreg v - 1)

/-- The flags the processor can jump on. -/
def hasJump : Flag → Bool
  | .cf | .pf | .zf | .sf | .of => true
  | .af | .tf | .df | .ie => false

/-- Whether a jump is taken, and the state after it. A line without a mnemonic has no meaning. -/
def takeJump (j : Jump) (s : MachState ρ) : Option (Bool × MachState ρ) :=
  match j with
  | .always => some (true, s)
  | .ifZero v => some (s.vreg v == 0, s)
  | .loop v => some ((s.decr v).vreg v != 0, s.decr v)
  | .onFlag f set => if hasJump f then some (s.flag f == set, s) else none

/-- Where a label stands. -/
def labelIndex (lines : List Line) (l : Lbl) : Option Nat :=
  lines.findIdx? fun line => line == .label l

structure Config (ρ : Type) where
  pc : Nat
  state : MachState ρ

/-- One line. A line that leaves the function ends the run; so does a jump to no label. -/
def lineStep (exec : Exec ρ) (lines : List Line) : System (Config ρ) Line := fun c =>
  match lines[c.pc]? with
  | none => none
  | some (.instr i) => some (⟨c.pc + 1, exec i c.state⟩, [.instr i])
  | some (.exit e args) => some (⟨lines.length, c.state⟩, [.exit e args])
  | some (.label _) => some (⟨c.pc + 1, c.state⟩, [])
  | some (.jump j l) =>
    match takeJump j c.state with
    | none => none
    | some (true, s) => (labelIndex lines l).map fun i => (⟨i, s⟩, [])
    | some (false, s) => some (⟨c.pc + 1, s⟩, [])

end Nib.Compile
