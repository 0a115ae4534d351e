import Nib.Bind.Alloc
import Nib.Bind.Data

/-!
# Rematerialisation candidates

* `scanRematerializationCandidates` — the recipe of each vreg that is defined once, by a move of
  a constant
-/

namespace Nib.Bind

/-- `remat_kind` with its immediate or label. -/
inductive Recipe
  | imm (k : Int)
  | label (name : Text)
  | segLabel (name : Text)
  deriving DecidableEq, Repr

def Recipe.kind : Recipe → RematKind
  | .imm _ => .imm
  | .label _ => .label
  | .segLabel _ => .segLabel

/-- The constant that a move loads. -/
def Insn.constant (ins : Insn) : Option Recipe :=
  match ins.imm with
  | some k => some (.imm k)
  | none =>
    if ins.name == "" then none
    else if hasPrefix "SEG " ins.name.toList then some (.segLabel (ins.name.toList.drop 4))
    else some (.label ins.name.toList)

namespace Func

/-- The instructions that count as definitions of `v`. -/
def definitions (fn : Func) (v : Nat) : List Insn :=
  fn.insns.filter fun ins => ins.definesDst && ins.dst == some v

/-- The recipe of `v`, before the constraints on it are looked at. -/
def constantOf (fn : Func) (v : Nat) : Option Recipe :=
  match fn.definitions v with
  | [ins] => if ins.op == .mov then ins.constant else none
  | _ => none

def scanRematerializationCandidates (fn : Func) (vregs : VregTable) (v : Nat) : Option Recipe :=
  if v < fn.nvregs then
    (fn.constantOf v).filter fun r => { vregs v with rematKind := r.kind }.canRematerialize
  else none

end Func

end Nib.Bind
