import Nib.Bind.Remat
import Nib.Bind.Spec.Live

/-!
# Executions with and without the storage of a vreg

An execution follows the paths of the control-flow graph. It starts with any values in the vregs,
a move writes what it loads or copies, and every other instruction writes any values.

* `RematSound` — every read sees the constant, and a recipe instead of the storage is not noticed
* `Func.ReturnedInto` — an extra result of a call reaches a read
-/

namespace Nib.Bind

abbrev Word := BitVec 16

/-- Where the assembler places labels. -/
structure Addresses where
  offset : Text → Word
  segment : Text → Word

def Recipe.value (pl : Addresses) : Recipe → Word
  | .imm k => BitVec.ofInt 16 k
  | .label name => pl.offset name
  | .segLabel name => pl.segment name

abbrev VregValues := Nat → Word

/-- What an instruction writes to `w`. -/
def Insn.result (pl : Addresses) (ins : Insn) (env out : VregValues) (w : Nat) : Word :=
  if ins.op = .mov then
    match ins.constant with
    | some r => r.value pl
    | none =>
      match ins.src1 with
      | some s => env s
      | none => out w
  else out w

/-- The vregs after an instruction. `out` is what it computes, reads or is returned. -/
def Insn.write (pl : Addresses) (ins : Insn) (env out : VregValues) : VregValues := fun w =>
  if w ∈ ins.defs then ins.result pl env out w else env w

namespace Func

variable (fn : Func)

/-- An execution reaches instruction `i` with the values `env`. -/
inductive Exec (pl : Addresses) : Nat → VregValues → Prop
  | start (env : VregValues) : Exec pl 0 env
  | step {i j : Nat} {env : VregValues} {ins : Insn} (out : VregValues) : Exec pl i env →
      fn.insns[i]? = some ins → fn.Next i j → Exec pl j (ins.write pl env out)

/-- The same execution with storage for all vregs and with `v` rematerialised from `r`. -/
inductive Twin (pl : Addresses) (v : Nat) (r : Recipe) : Nat → VregValues → VregValues → Prop
  | start (env : VregValues) : Twin pl v r 0 env (Function.update env v (r.value pl))
  | step {i j : Nat} {env env' : VregValues} {ins : Insn} (out : VregValues) :
      Twin pl v r i env env' → fn.insns[i]? = some ins → fn.Next i j →
      Twin pl v r j (ins.write pl env out)
        (Function.update (ins.write pl env' out) v (r.value pl))

/-- Every read of `v` sees the constant. -/
def ReadsConstant (pl : Addresses) (v : Nat) (r : Recipe) : Prop :=
  ∀ i env, fn.Exec pl i env → fn.Reads i v → env v = r.value pl

/-- Without the storage of `v` every instruction still reads the same values. -/
def SameReads (pl : Addresses) (v : Nat) (r : Recipe) : Prop :=
  ∀ i env env', fn.Twin pl v r i env env' → ∀ w, fn.Reads i w → env w = env' w

/-- A call that can be reached returns a value to `v`, and some path reads it. -/
def ReturnedInto (v : Nat) : Prop :=
  ∃ i ins, fn.Reachable i ∧ fn.insns[i]? = some ins ∧ ins.op = .mcall ∧ v ∈ ins.retVregs ∧
    fn.LiveAfter i v

end Func

/-- The recipe stands for the vreg. -/
def RematSound (fn : Func) (pl : Addresses) (v : Nat) (r : Recipe) : Prop :=
  fn.ReadsConstant pl v r ∧ fn.SameReads pl v r

end Nib.Bind
