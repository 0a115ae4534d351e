import Nib.Compile.Spec.Source

/-!
# Flag checks of an assignment

A case is decided by the jumps that are printed before its handler. What it is to be decided by are
the flags that the operation has left.

* `ChecksDone` — every case that control gets to is decided so
* `ChecksMet` — where the jumps do it
-/

namespace Nib.Compile

open Nib.Infra

variable {ρ : Type}

/-! ## Assignments -/

/-- The operation of an assignment, which tells whether checks are compiled after it, and its
cases. -/
def Stmt.operation : Stmt → Option (EmitStmt Bool × List (FlagCase Stmt))
  | .assign line targets value flagChecks =>
    some (do
      EmitStmt.lift (emitLineNote line)
      EmitStmt.lift (emitAssign targets value), flagChecks)
  | .toggleAssign line target value flagChecks =>
    some (do
      EmitStmt.lift (emitLineNote line)
      EmitStmt.lift (emitToggleAssign target value)
      pure true, flagChecks)
  | _ => none

/-- Where the test of a case stands, its handler, and what follows it. -/
structure CasePlace where
  condition : FlagExpr
  test : Nat
  handler : Nat
  next : Nat
  deriving DecidableEq, Repr

/-- The cases from `pc` on. -/
def casePlaces (pc : Nat) : List (FlagCase Stmt) → FnState → List CasePlace
  | [], _ => []
  | c :: rest, s =>
    let r := emitFlagCase c s
    let test := emitFlagTest c.condition s.nextLabel { s with nextLabel := s.nextLabel + 1 }
    { condition := c.condition, test := pc, handler := pc + test.lines.length,
      next := pc + r.lines.length } :: casePlaces (pc + r.lines.length) rest r.state

/-! ## The property -/

/-- Control does not leave the lines from `lo` to `hi`. -/
inductive StaysIn (step : System (Config ρ) Line) (lo hi : Nat) : Config ρ → Config ρ → Prop
  | refl (c : Config ρ) : StaysIn step lo hi c c
  | tail {c d e : Config ρ} {ev : List Line} : StaysIn step lo hi c d → step d = some (e, ev) →
      lo ≤ e.pc → e.pc < hi → StaysIn step lo hi c e

/-- From the test of a case control gets to the handler if the condition is true of `flag`, and
past the handler if it is not. -/
def Decides (exec : Exec ρ) (prog : List Line) (flag : Flag → Bool) (p : CasePlace)
    (u : MachState ρ) : Prop :=
  ∃ n, Steps (lineStep exec prog) n ⟨p.test, u⟩ []
    ⟨if p.condition.eval flag then p.handler else p.next, u⟩

/-- A test that control gets to, after `st` was left by the operation, without leaving the
block. -/
def Tested (exec : Exec ρ) (prog : List Line) (cases : List (FlagCase Stmt)) (s : FnState)
    (pc : Nat) (st : MachState ρ) (p : CasePlace) (u : MachState ρ) : Prop :=
  p ∈ casePlaces pc cases s ∧
    StaysIn (lineStep exec prog) pc (pc + (emitFlagChecks cases s).lines.length) ⟨pc, st⟩
      ⟨p.test, u⟩

/-- **The cases are decided by the flags that the operation has left.** Without checks no handler
is executed, so none may be due. -/
def ChecksDone (exec : Exec ρ) (prog : List Line) (op : Printed Bool)
    (cases : List (FlagCase Stmt)) (pc : Nat) (st : MachState ρ) : Prop :=
  if op.value then
    ∀ p u, Tested exec prog cases op.state (pc + op.lines.length) st p u →
      Decides exec prog st.flag p u
  else ∀ c ∈ cases, c.condition.eval st.flag = false

/-! ## The condition -/

/-- The flags that a condition reads. -/
def FlagExpr.flags : FlagExpr → List Flag
  | .flag id => [id]
  | .not e => e.flags
  | .or l r | .and l r | .xor l r => l.flags ++ r.flags

/-- A flag, its negation, or two flags, all of them with a jump; and not an exclusive or with only
the second flag set. -/
def Lowered (flag : Flag → Bool) : FlagExpr → Prop
  | .flag a | .not (.flag a) => hasJump a = true
  | .or (.flag a) (.flag b) | .and (.flag a) (.flag b) => hasJump a = true ∧ hasJump b = true
  | .xor (.flag a) (.flag b) =>
    hasJump a = true ∧ hasJump b = true ∧ ¬(flag a = false ∧ flag b = true)
  | _ => False

/-- At every test the condition is one that is lowered, and its flags are as the operation has left
them. -/
def ChecksMet (exec : Exec ρ) (prog : List Line) (op : Printed Bool)
    (cases : List (FlagCase Stmt)) (pc : Nat) (st : MachState ρ) : Prop :=
  if op.value then
    ∀ p u, Tested exec prog cases op.state (pc + op.lines.length) st p u →
      Lowered u.flag p.condition ∧ ∀ g ∈ p.condition.flags, u.flag g = st.flag g
  else ∀ c ∈ cases, c.condition.eval st.flag = false

end Nib.Compile
