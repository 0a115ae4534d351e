import Nib.Bind.Flow
import Nib.Asm.Text

/-!
# The control-flow graph and the emitted code

* `Func.Leads` — where control can go from the code of an instruction
* `Func.CfgFaithful` — the graph has these edges, and no others
* `Func.BranchClear` — what that takes of an instruction
-/

namespace Nib.Bind.Func

open Nib.Asm (sameName)

variable (fn : Func)

/-- The assembler takes the label for the target of the jump. -/
def Declares (j : Nat) (target : String) : Prop :=
  ∃ ins, fn.insns[j]? = some ins ∧ ins.op = .label ∧ sameName ins.name.toList target.toList = true

/-- Where control goes from what is printed for instruction `i`. A jump that is printed for two
instructions is taken by way of the second; where inline assembly goes is `asmTo`. -/
def Goes (asmTo : Nat → Nat → Prop) (i j : Nat) : Branch → Prop
  | .none | .fusedAlways _ => j = i + 1
  | .leave => False
  | .jmp target => fn.Declares j target
  | .jcc target => j = i + 1 ∨ fn.Declares j target
  | .fused _ behind => j = i + 1 ∨ j = behind
  | .text => asmTo i j

/-- Control can go from the code of instruction `i` to that of instruction `j`. -/
def Leads (bare : Bool) (asmTo : Nat → Nat → Prop) (i j : Nat) : Prop :=
  j < fn.insns.length ∧
    ∃ ins, fn.insns[i]? = some ins ∧ fn.Goes asmTo i j (fn.branchOf bare i ins)

/-- **The graph is that of the emitted code.** -/
structure CfgFaithful (bare : Bool) (asmTo : Nat → Nat → Prop) : Prop where
  /-- The blocks are ranges that follow one another, from the first instruction to the last. -/
  first : ∀ bb : Block, fn.buildCfg[0]? = some bb → bb.start = 0
  follow : ∀ (b : Nat) (bb bc : Block), fn.buildCfg[b]? = some bb →
    fn.buildCfg[b + 1]? = some bc → bb.stop = bc.start
  last : ∀ (b : Nat) (bb : Block), fn.buildCfg[b]? = some bb → b + 1 = fn.buildCfg.length →
    bb.stop = fn.insns.length
  blockOf : ∀ i < fn.insns.length, ∃ bb : Block, fn.buildCfg[fn.blockOf i]? = some bb ∧
    bb.start ≤ i ∧ i < bb.stop
  edges : ∀ (a b : Nat) (ba bb : Block), fn.buildCfg[a]? = some ba → fn.buildCfg[b]? = some bb →
    (b ∈ ba.succs ↔ fn.Leads bare asmTo (ba.stop - 1) bb.start)
  /-- Control enters a block at its start, and does not leave it before its end. -/
  enters : ∀ (a : Nat) (ba : Block) (j : Nat), fn.buildCfg[a]? = some ba →
    fn.Leads bare asmTo (ba.stop - 1) j →
      ∃ (b : Nat) (bb : Block), fn.buildCfg[b]? = some bb ∧ bb.start = j
  inside : ∀ (a : Nat) (ba : Block) (i : Nat), fn.buildCfg[a]? = some ba → ba.start ≤ i →
    i + 1 < ba.stop → ∀ j, fn.Leads bare asmTo i j ↔ j = i + 1

/-- The first label of the name, in the spelling of the jump. -/
def FirstLabel (target : String) (j : Nat) : Prop :=
  fn.labelNamed j target = true ∧ ∀ k < j, fn.labelNamed k target = false

/-- Where the graph leads from an instruction that ends a block. -/
def CfgLeads (i : Nat) (ins : Insn) (j : Nat) : Prop :=
  j < fn.insns.length ∧
    match ins.op with
    | .jz | .cjmp | .loop => j = i + 1 ∨ fn.FirstLabel ins.name j
    | .jmp => fn.FirstLabel ins.name j
    | .ret | .tailcall | .ntailcall | .gotoFn => False
    | _ => j = i + 1

/-- A `ret` of a bare function is the last instruction; a jump that is not printed would have led
to the next instruction; a jump leads to the first label of its name, also for the assembler, which
does not tell upper from lower case; and inline assembly goes on behind itself. -/
def BranchClear (bare : Bool) (asmTo : Nat → Nat → Prop) (i : Nat) (ins : Insn) : Prop :=
  match fn.branchOf bare i ins with
  | .none | .fusedAlways _ =>
    (ins.op = .ret → i + 1 = fn.insns.length) ∧
      (ins.op = .jz → ∀ j, fn.FirstLabel ins.name j → j = i + 1)
  | .leave => True
  | .jmp target => ∀ j, fn.Declares j target → fn.FirstLabel target j
  | .jcc target => ∀ j, fn.Declares j target → j = i + 1 ∨ fn.FirstLabel target j
  | .fused _ behind => fn.FirstLabel ins.name behind
  | .text => ∀ j < fn.insns.length, asmTo i j ↔ j = i + 1

end Nib.Bind.Func
