import Nib.Bind.FlagInsns
import Nib.Bind.Spec.Flow
import Nib.Asm.Spec.Branch
import Nib.Compile.Ast
import Nib.Infra.Flags

/-!
# Conditional jumps

* `Func.Ran` — a run of the instructions between the last label or jump and a `jz`
* `Func.Follows` — a run of the function
* `Func.TestClear` — nothing has changed what the jump is about
* `JzCode.exit` — where control is after the code of the `jz`
-/

namespace Nib.Bind

open Nib.Infra
open Nib.Compile (OpKind opStr binopIsCompare)

/-- What an operator says about two operands of the same width. -/
def holdsFor {w : Nat} (a b : BitVec w) : OpKind → Bool
  | .eq => a == b
  | .neq => a != b
  | .lt => a.ult b
  | .gt => b.ult a
  | .lte => a.ule b
  | .gte => b.ule a
  | .slt => a.slt b
  | .sgt => b.slt a
  | .slte => a.sle b
  | .sgte => b.sle a
  | _ => false

/-- The flags that there are jumps for. -/
def flagNamed (f : Flags) (flag : String) : Option Bool :=
  if flag = "CF" then some f.carry
  else if flag = "PF" then some f.parity
  else if flag = "ZF" then some f.zero
  else if flag = "SF" then some f.sign
  else if flag = "OF" then some f.overflow
  else none

/-- The values of the vregs of a function, what is in their places, and the flags. -/
structure BranchState (width : Nat → Nat) where
  value : (v : Nat) → BitVec (width v)
  held : (v : Nat) → BitVec (width v)
  flags : Flags

variable {width : Nat → Nat}

namespace BranchState

variable (s : BranchState width)

def truth (cond : Nat) : Bool := s.value cond != 0#_

end BranchState

/-- The operands of a comparison, in the width of the first. -/
def Insn.operands (val : (v : Nat) → BitVec (width v)) (cmp : Insn) :
    BitVec (width (cmp.src1.getD 0)) × BitVec (width (cmp.src1.getD 0)) :=
  (val (cmp.src1.getD 0),
    match cmp.imm with
    | some n => BitVec.ofInt _ n
    | none => (val (cmp.src2.getD 0)).setWidth _)

namespace Func

variable (fn : Func)

/-- Code is printed wherever the vreg is written. Nothing is printed for a comparison or for a flag
that is read. -/
def Stored (v : Nat) : Prop :=
  ∀ k ins, fn.insns[k]? = some ins → v ∈ ins.defs →
    ins.op ≠ .cmp ∧ ins.op ≠ .getflag ∧ fn.lnotGetflagConsumed k ins = false

/-- What instruction `k` does to the vregs, and what its code leaves of the flags. -/
structure Effect (k : Nat) (ins : Insn) (s t : BranchState width) : Prop where
  frame : ∀ v, v ∉ ins.defs → t.value v = s.value v
  comparison : ∀ op dst, binopIsCompare op = true → ins.op = .cmp → ins.name = opStr op →
    ins.dst = some dst →
      t.truth dst = holdsFor (ins.operands s.value).1 (ins.operands s.value).2 op
  getflag : ins.op = .getflag → t.flags = s.flags ∧
    ∀ dst set, ins.dst = some dst → flagNamed s.flags ins.name = some set → t.truth dst = set
  lnot : ins.op = .unary → ins.name = "lnot" → ∀ dst src, ins.dst = some dst →
    ins.src1 = some src → t.truth dst = !s.truth src
  negated : fn.lnotGetflagConsumed k ins = true → t.flags = s.flags

/-- No label and no jump from `k` up to `i`. -/
def Straight (k i : Nat) : Prop :=
  ∀ m ins, k ≤ m → m < i → fn.insns[m]? = some ins → ins.op ≠ .label ∧ ins.op ≠ .jmp

/-- **A run that comes to instruction `i`.** `σ k` is the state before instruction `k`. -/
structure Ran (σ : Nat → BranchState width) (i : Nat) : Prop where
  steps : ∀ k ins, k < i → fn.Straight k i → fn.insns[k]? = some ins →
    fn.Effect k ins (σ k) (σ (k + 1))
  held : ∀ v, fn.Stored v → (σ i).held v = (σ i).value v

/-- Control goes on from instruction `i` to `j`. A `jz` jumps if its condition is false. -/
def Continues (s : BranchState width) (i : Nat) (ins : Insn) (j : Nat) : Prop :=
  fn.CfgLeads i ins j ∧ ∀ c, ins.op = .jz → ins.src1 = some c →
    if s.truth c then j = i + 1 else fn.FirstLabel ins.name j

/-- **A run of the function**: the first `n` steps, from instruction `pos t` in state `σ t`. What
code is printed for is in its place all the time. -/
structure Follows (pos : Nat → Nat) (σ : Nat → BranchState width) (n : Nat) : Prop where
  start : pos 0 = 0
  steps : ∀ t < n, ∃ ins, fn.insns[pos t]? = some ins ∧
    fn.Effect (pos t) ins (σ t) (σ (t + 1)) ∧ fn.Continues (σ t) (pos t) ins (pos (t + 1))
  held : ∀ t ≤ n, ∀ v, fn.Stored v → (σ t).held v = (σ t).value v

/-- **What the jump is about is as it was.** A flag is read right before the jump, as
`getflag_consumed_by_jz` demands; neither the condition nor an operand of the comparison is written
behind it; and what is compared is in its place. -/
def TestClear (i cond : Nat) : Test → Prop
  | .flags => ∀ d, fn.findVregDef (some cond) i = some d → d + 1 = i ∧
      ∀ ins, fn.insns[d]? = some ins → ins.op ≠ .getflag →
        fn.lnotGetflagConsumed d ins = true ∧ ∀ e, fn.findVregDef ins.src1 i = some e → e + 1 = d
  | .compare j => ∀ cmp, fn.insns[j]? = some cmp →
      cmp.op = .cmp ∧ fn.Stored (cmp.src1.getD 0) ∧
      (cmp.imm = none → fn.Stored (cmp.src2.getD 0)) ∧
      ∀ k ins, j < k → k < i → fn.insns[k]? = some ins →
        cond ∉ ins.defs ∧ cmp.src1.getD 0 ∉ ins.defs ∧
          (cmp.imm = none → cmp.src2.getD 0 ∉ ins.defs)
  | .zero => fn.Stored cond

/-! ## The code -/

/-- The flags that the jump is taken on. -/
def testFlags (s : BranchState width) (cond : Nat) : Test → Flags
  | .flags => s.flags
  | .compare j =>
    match fn.insns[j]? with
    | some cmp => .ofCompare (cmp.operands s.held).1 (cmp.operands s.held).2
    | none => s.flags
  | .zero => .ofCompare (s.held cond) 0#_

/-- Whether the jump is taken, if the assembler knows it. -/
def taken (s : BranchState width) (cond : Nat) (b : CondBranch) : Option Bool :=
  (Asm.lookupWord Asm.jccTable b.jcc.toList).map (fn.testFlags s cond b.test).holds

/-- The processor with these flags. -/
def onFlags (cpu : Asm.Cpu) (f : Flags) : Asm.Cpu :=
  { cpu with cond := f.holds, inverse := fun cc _ => f.holds_xor_one cc }

/-- Where control goes: on behind an instruction, with the `jmp` at an instruction, to a label, or
on to the label at an instruction. -/
inductive Exit
  | behind (i : Nat)
  | jump (j : Nat)
  | label (name : String)
  | labelAt (l : Nat)
  deriving DecidableEq, Repr

def JzCode.exit (s : BranchState width) (i cond : Nat) : JzCode → Option Exit
  | .nothing => some (.behind i)
  | .always j => some (.jump j)
  | .fused b j l => (fn.taken s cond b).map fun t => if t then .jump j else .labelAt l
  | .branch b target => (fn.taken s cond b).map fun t => if t then .label target else .behind i

/-- Where a `jz` goes: to its label if the condition is false, or else on, and to the `jmp` that
comes next. -/
def jzExit (i : Nat) (ins : Insn) (truth : Bool) : Exit :=
  match fn.fusedWith i ins.name with
  | some (j, l) => if truth then .jump j else .labelAt l
  | none => if truth then .behind i else .label ins.name

/-- Instruction `j` is where the exit leads to. -/
def Arrives (j : Nat) : Exit → Prop
  | .behind i => j = i + 1
  | .jump k => ∃ jump, fn.insns[k]? = some jump ∧ fn.FirstLabel jump.name j
  | .label name => fn.FirstLabel name j
  | .labelAt l => j = l

/-- Control goes from one instruction to another. -/
def ControlStep (s : BranchState width) (i j : Nat) : Prop :=
  ∃ ins, fn.insns[i]? = some ins ∧ fn.Continues s i ins j

/-- The jump that is printed. -/
def JzCode.toBranch : JzCode → Branch
  | .nothing => .none
  | .always j => .fusedAlways j
  | .fused _ j l => .fused j l
  | .branch _ target => .jcc target

end Func

end Nib.Bind
