import Mathlib
import Nib.Bind.Ir

/-!
# Memory displacements

* `Func.foldMemoryDisplacements` — an addition in front of a memory access becomes its displacement
-/

namespace Nib.Bind

/-- The uses of `v` that `count_vreg_uses` finds in an instruction. -/
def Insn.countUses (ins : Insn) (v : Nat) : Nat :=
  (if ins.src1 = some v then 1 else 0) + (if ins.src2 = some v then 1 else 0) +
    (if ins.readsDst && ins.dst == some v then 1 else 0) + ins.extraArgs.count v +
    (if ins.op == .retval then ins.retVregs.count v else 0)

def countVregUses (insns : List Insn) (v : Nat) : Nat :=
  (insns.map fun ins => ins.countUses v).sum

def Insn.makeNop : Insn := { op := .nop }

namespace Insn

/-- An access through a vreg, without a displacement. -/
def isPlainAccess (mem : Insn) : Bool :=
  (mem.op == .loadmem || mem.op == .storemem) && mem.name == "" && mem.memDisp.isNone

def addrVreg (mem : Insn) : Option Nat := if mem.op == .loadmem then mem.src1 else mem.dst

/-- The addition of a constant: source and constant. -/
def addedConstant (ins : Insn) : Option (Nat × Int) :=
  if ins.op == .alu && ins.name == "add" then
    match ins.src1, ins.imm with
    | some s, some k => some (s, k)
    | _, _ => none
  else none

/-- The access at a displacement from another vreg. -/
def foldAddr (mem : Insn) (s : Nat) (k : Int) : Insn :=
  if mem.op == .loadmem then { mem with src1 := some s, memDisp := some k }
  else { mem with dst := some s, memDisp := some k }

/-- The address vreg of an access, and what the instruction before it adds up there. -/
def foldOf (mem add : Insn) : Option (Nat × Nat × Int) :=
  if mem.isPlainAccess then
    match mem.addrVreg, add.addedConstant with
    | some v, some (s, k) => if add.dst = some v then some (v, s, k) else none
    | _, _ => none
  else none

end Insn

/-- The access at `i`. -/
def foldStep (insns : List Insn) (i : Nat) : List Insn :=
  match insns[i]?, insns[i - 1]? with
  | some mem, some add =>
    match mem.foldOf add with
    | some (v, s, k) =>
      if countVregUses insns v = 1 then (insns.set i (mem.foldAddr s k)).set (i - 1) Insn.makeNop
      else insns
    | none => insns
  | _, _ => insns

/-- The accesses from the second instruction on. -/
def Func.foldMemoryDisplacements (fn : Func) : Func :=
  { fn with insns := (List.range' 1 (fn.insns.length - 1)).foldl foldStep fn.insns }

end Nib.Bind
