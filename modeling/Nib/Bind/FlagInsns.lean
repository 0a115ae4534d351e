import Nib.Bind.Flow

/-!
# Assignments to flags

`emit_function` for `IR_SETFLAG` and `IR_TOGGLEFLAG`. The value of a vreg is looked for among the
instructions before.
-/

namespace Nib.Bind

/-- The instructions that are printed for a flag. -/
inductive FlagInsn
  | stc | clc | std | cld | sti | cli | cmc
  deriving DecidableEq, Repr

/-- `lnot`, or `not`. -/
def Insn.isNegation (ins : Insn) : Bool :=
  ins.op == .unary && (ins.name == "lnot" || ins.name == "not")

/-- There are instructions for three flags. For `TF` a comment is printed. -/
def setTo (flag : String) (set : Bool) : Option FlagInsn :=
  if flag = "CF" then some (if set then .stc else .clc)
  else if flag = "DF" then some (if set then .std else .cld)
  else if flag = "IF" then some (if set then .sti else .cli)
  else none

namespace Func

variable (fn : Func)

/-- The last constant that is moved to the vreg, whatever comes in between. -/
def lastConst (vreg : Nat) : Nat → Option Int
  | 0 => none
  | j + 1 =>
    match fn.insns[j]? with
    | none => lastConst vreg j
    | some ins =>
      if ins.dst == some vreg && ins.op == .mov && ins.imm.isSome then ins.imm
      else lastConst vreg j

/-- Without a constant the flag is taken to be set. -/
def setflagValue (i : Nat) (ins : Insn) : Int :=
  match ins.imm with
  | some n => n
  | none => (ins.src1.bind fun v => fn.lastConst v i).getD 1

/-- The definition reads the flag. -/
def getsFlag (flag : String) (d : Option Nat) : Bool :=
  d.any fun d => (fn.insns[d]?).any fun ins => ins.op == .getflag && ins.name == flag

/-- The definition is the negation of the flag. -/
def negatesFlag (i : Nat) (flag : String) (d : Option Nat) : Bool :=
  d.any fun d => (fn.insns[d]?).any fun ins =>
    ins.isNegation && fn.getsFlag flag (fn.findVregDef ins.src1 i)

/-- `IR_SETFLAG`. -/
def emitSetflag (i : Nat) (ins : Insn) : Option FlagInsn :=
  let d := ins.src1.bind fun v => fn.findVregDef (some v) i
  if fn.getsFlag ins.name d then none
  else if fn.negatesFlag i ins.name d && ins.name == "CF" then some .cmc
  else setTo ins.name (fn.setflagValue i ins != 0)

/-- `IR_TOGGLEFLAG`. -/
def emitToggleflag (ins : Insn) : Option FlagInsn := if ins.name = "CF" then some .cmc else none

/-- `lnot_getflag_consumed_by_jz`: nothing is printed for the negation of a flag. -/
def lnotGetflagConsumed (i : Nat) (ins : Insn) : Bool :=
  ins.isNegation && (fn.findVregDef ins.src1 i).any fun d =>
    match fn.insns[d]?, fn.insns[i + 1]? with
    | some flag, some next =>
      flag.op == .getflag && next.src1 == ins.dst &&
        (ins.name == "lnot" && next.op == .jz || next.op == .setflag && next.name == flag.name)
    | _, _ => false

end Func

end Nib.Bind
