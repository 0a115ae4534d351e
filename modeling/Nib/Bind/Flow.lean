import Nib.Bind.Cfg

/-!
# Jumps in the emitted code

`emit_function` prints a jump for every instruction that transfers control, with two exceptions: a
condition that is assumed, and a conditional jump over a `jmp`.
-/

namespace Nib.Bind.Func

variable (fn : Func)

/-! ## Looking around -/

def isEffective (i : Nat) : Bool :=
  (fn.insns[i]?).any fun ins => ins.op != .nop && ins.op != .prefer

/-- `next_effective_insn`. -/
def nextEffective (i : Nat) : Option Nat :=
  (List.range' i (fn.insns.length - i)).find? fn.isEffective

/-- `prev_effective_insn`. -/
def prevEffective : Nat → Option Nat
  | 0 => none
  | i + 1 => if fn.isEffective i then some i else prevEffective i

/-- `find_vreg_def`: the definition before an instruction, as far back as the last label or
jump. -/
def findVregDef (vreg : Option Nat) : Nat → Option Nat
  | 0 => none
  | j + 1 =>
    match fn.insns[j]? with
    | none => findVregDef vreg j
    | some ins =>
      if ins.definesDst && ins.dst == vreg then some j
      else if ins.op == .label || ins.op == .jmp then none
      else findVregDef vreg j

/-- `ir_label_named`. -/
def labelNamed (i : Nat) (name : String) : Bool :=
  (fn.insns[i]?).any fun ins => ins.op == .label && ins.name == name

/-! ## Assumed conditions -/

/-- `cmp_defs_equivalent`. -/
def cmpDefsEquivalent (a b : Insn) : Bool :=
  a.op == b.op && (a.op == .cmp || a.op == .alu) && a.name == b.name && a.src1 == b.src1 &&
    a.src2 == b.src2 && a.imm == b.imm

/-- The definition of the condition is right behind an `assume` of it, or of the same comparison. -/
def definedAssumed (cond : Option Nat) (d : Nat) : Bool :=
  match fn.prevEffective d with
  | none => false
  | some p =>
    match fn.insns[p]?, fn.insns[d]? with
    | some asm, some condDef =>
      asm.op == .assume && (asm.src1 == cond ||
        (fn.findVregDef asm.src1 p).any fun a =>
          (fn.insns[a]?).any fun asmDef => cmpDefsEquivalent asmDef condDef)
    | _, _ => false

/-- `jz_condition_assumed_true`. -/
def conditionAssumed (i : Nat) (cond : Option Nat) : Bool :=
  (fn.prevEffective i).any (fun p =>
      (fn.insns[p]?).any fun ins => ins.op == .assume && ins.src1 == cond) ||
    (fn.findVregDef cond i).any (fn.definedAssumed cond)

/-! ## Branches -/

/-- What is printed for an instruction to transfer control. -/
inductive Branch
  | none
  /-- A return, or a jump to another function. -/
  | leave
  | jmp (target : String)
  | jcc (target : String)
  /-- A conditional jump that is also the `jmp` at `jump`, and else goes on at the label behind. -/
  | fused (jump behind : Nat)
  /-- The `jmp` at `jump`, printed for a condition that is assumed. -/
  | fusedAlways (jump : Nat)
  /-- Inline assembly. -/
  | text
  deriving DecidableEq, Repr

/-- The `jmp` behind a conditional jump, and the label behind that, which is its target. -/
def fusedWith (i : Nat) (target : String) : Option (Nat × Nat) :=
  (fn.nextEffective (i + 1)).bind fun j =>
    (fn.nextEffective (j + 1)).bind fun l =>
      if (fn.insns[j]?).any (·.op == .jmp) && fn.labelNamed l target then some (j, l)
      else Option.none

/-- The jump of a conditional instruction. -/
def conditional (i : Nat) (target : String) : Branch :=
  match fn.fusedWith i target with
  | some (j, l) => .fused j l
  | Option.none => .jcc target

/-- In a bare function nothing is printed for a `ret`. -/
def branchOf (bare : Bool) (i : Nat) (ins : Insn) : Branch :=
  match ins.op with
  | .jz =>
    if fn.conditionAssumed i ins.src1 then
      match fn.fusedWith i ins.name with
      | some (j, _) => .fusedAlways j
      | Option.none => .none
    else fn.conditional i ins.name
  | .cjmp => fn.conditional i ins.name
  | .loop => .jcc ins.name
  | .jmp => .jmp ins.name
  | .ret => if bare then .none else .leave
  | .tailcall | .ntailcall | .gotoFn => .leave
  | .asm => .text
  | _ => .none

/-- `block_of`. -/
def blockOf (i : Nat) : Nat :=
  (fn.buildCfg.findIdx? fun bb => bb.start ≤ i && i < bb.stop).getD 0

/-! ## Conditions -/

/-- `flag_jcc_if_set`, and `flag_jcc_if_clear`. -/
def flagJcc (flag : String) (set : Bool) : Option String :=
  if flag = "CF" then some (if set then "jc" else "jnc")
  else if flag = "PF" then some (if set then "jp" else "jnp")
  else if flag = "ZF" then some (if set then "jz" else "jnz")
  else if flag = "SF" then some (if set then "js" else "jns")
  else if flag = "OF" then some (if set then "jo" else "jno")
  else Option.none

/-- `cmp_jcc_for_truth`. -/
def cmpJccForTruth (op : String) (jumpIfTrue : Bool) : Option String :=
  if op = "cmp.eq" then some (if jumpIfTrue then "je" else "jne")
  else if op = "cmp.ne" then some (if jumpIfTrue then "jne" else "je")
  else if op = "cmp.b" then some (if jumpIfTrue then "jb" else "jnb")
  else if op = "cmp.a" then some (if jumpIfTrue then "ja" else "jbe")
  else if op = "cmp.be" then some (if jumpIfTrue then "jbe" else "ja")
  else if op = "cmp.ae" then some (if jumpIfTrue then "jae" else "jb")
  else if op = "cmp.l" then some (if jumpIfTrue then "jl" else "jnl")
  else if op = "cmp.g" then some (if jumpIfTrue then "jg" else "jle")
  else if op = "cmp.le" then some (if jumpIfTrue then "jle" else "jg")
  else if op = "cmp.ge" then some (if jumpIfTrue then "jge" else "jl")
  else Option.none

/-- What is printed before a conditional jump: nothing, the comparison of the operands of
instruction `cmp`, or that of the condition with 0. -/
inductive Test
  | flags
  | compare (cmp : Nat)
  | zero
  deriving DecidableEq, Repr

structure CondBranch where
  test : Test
  jcc : String
  deriving DecidableEq, Repr

/-- A jump on the flag that the condition was read from, or on its opposite. -/
def flagBranch (i : Nat) (cond : Option Nat) (jumpIfTrue : Bool) : Option String :=
  (fn.findVregDef cond i).bind fun d =>
    (fn.insns[d]?).bind fun condDef =>
      if condDef.op == .getflag then flagJcc condDef.name jumpIfTrue
      else if condDef.op == .unary && condDef.name == "lnot" then
        (fn.findVregDef condDef.src1 i).bind fun e =>
          (fn.insns[e]?).bind fun srcDef =>
            if srcDef.op == .getflag then flagJcc srcDef.name !jumpIfTrue else Option.none
      else Option.none

/-- A jump behind the comparison that is found first, as far back as the last label or jump. -/
def compareBranch (cond : Option Nat) (jumpIfTrue : Bool) : Nat → Option CondBranch
  | 0 => Option.none
  | j + 1 =>
    match fn.insns[j]? with
    | Option.none => compareBranch cond jumpIfTrue j
    | some cmp =>
      if (cmp.op == .alu || cmp.op == .cmp) && cmp.dst == cond then
        (cmpJccForTruth cmp.name jumpIfTrue).map (⟨.compare j, ·⟩)
      else if cmp.op == .label || cmp.op == .jmp then Option.none
      else compareBranch cond jumpIfTrue j

/-- `emit_condition_branch`. -/
def emitConditionBranch (i : Nat) (cond : Option Nat) (jumpIfTrue : Bool) : CondBranch :=
  match fn.flagBranch i cond jumpIfTrue with
  | some jcc => ⟨.flags, jcc⟩
  | Option.none =>
    (fn.compareBranch cond jumpIfTrue i).getD ⟨.zero, if jumpIfTrue then "jne" else "je"⟩

/-- What is printed for a `jz`. `always` and `fused` stand for the `jmp` at `jump` as well, and
behind that is the label of the `jz`. -/
inductive JzCode
  | nothing
  | always (jump : Nat)
  | fused (b : CondBranch) (jump behind : Nat)
  | branch (b : CondBranch) (target : String)
  deriving DecidableEq, Repr

/-- `IR_JZ`. -/
def emitJz (i : Nat) (ins : Insn) : JzCode :=
  if fn.conditionAssumed i ins.src1 then
    match fn.fusedWith i ins.name with
    | some (j, _) => .always j
    | Option.none => .nothing
  else
    match fn.fusedWith i ins.name with
    | some (j, l) => .fused (fn.emitConditionBranch i ins.src1 true) j l
    | Option.none => .branch (fn.emitConditionBranch i ins.src1 false) ins.name

end Nib.Bind.Func
