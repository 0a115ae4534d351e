import Nib.Bind.Alloc

/-!
# Liveness by paths

What the liveness and interference passes are for, stated over paths of the control-flow graph
and without any set computation.

* `Func.LiveAfter` — some path from the instruction reads the vreg before any write
* `Func.SeenTogether` — the backward walk of some block has both vregs in its live set, or has
  one of them there while the other is defined
* `AllocationSound` — a written vreg shares no register with another vreg live after the write
-/

namespace Nib.Bind

namespace Func

variable (fn : Func)

def Reads (i v : Nat) : Prop := ∃ ins, fn.insns[i]? = some ins ∧ v ∈ ins.uses

def Writes (i v : Nat) : Prop := ∃ ins, fn.insns[i]? = some ins ∧ v ∈ ins.defs

/-- Control can pass from instruction `i` to instruction `j`. -/
def Next (i j : Nat) : Prop :=
  ∃ bb ∈ fn.buildCfg, bb.start ≤ i ∧ i < bb.stop ∧
    ((i + 1 < bb.stop ∧ j = i + 1) ∨
      (i + 1 = bb.stop ∧ ∃ t ∈ bb.succs, ∃ bt, fn.buildCfg[t]? = some bt ∧ j = bt.start))

/-- Control can come to instruction `i`. -/
def Reachable (i : Nat) : Prop := Relation.ReflTransGen fn.Next 0 i

/-- `w` is live before an instruction. The vregs in `entry` count as read on entry to the
function. -/
inductive LiveBefore (entry : List Nat) (w : Nat) : Nat → Prop
  | read {i : Nat} : fn.Reads i w → LiveBefore entry w i
  | entry : w ∈ entry → LiveBefore entry w 0
  | step {i j : Nat} : ¬fn.Writes i w → fn.Next i j → LiveBefore entry w j →
      LiveBefore entry w i

/-- There is a path from `i` to a read of `w` with no write of `w` in between. -/
def LiveAfter (i w : Nat) : Prop := ∃ j, fn.Next i j ∧ fn.LiveBefore [] w j

/-! ## What the backward walk sees -/

/-- `w` is live on leaving the block; the parameters count as read on entry. -/
def LiveOut (bb : Block) (w : Nat) : Prop :=
  ∃ t ∈ bb.succs, ∃ bt, fn.buildCfg[t]? = some bt ∧ fn.LiveBefore fn.paramVregs w bt.start

end Func

/-- The walk keeps `w` live across an instruction that reads it: for a copy because the source
is added after the definition, otherwise only if the instruction does not write `w` as well. -/
def Insn.KeepsLive (ins : Insn) (w : Nat) : Prop :=
  if ins.isCopy then ins.src1 = some w else w ∈ ins.uses ∧ w ∉ ins.defs

/-- `w` is in the live set of the walk before the rest of a block, which `w` leaves live if
`out` holds. -/
def Kept (out : Prop) (w : Nat) : List Insn → Prop
  | [] => out
  | ins :: rest => ins.KeepsLive w ∨ (w ∉ ins.defs ∧ Kept out w rest)

/-- Of the definitions an instruction makes one after another, one of `v` is made before any of
`w`. -/
def DefinedFirst (v w : Nat) : List Nat → Prop
  | [] => False
  | d :: ds => d = v ∨ (d ≠ w ∧ DefinedFirst v w ds)

/-- At the definition of `v` by `ins`, `w` is in the live set: it is kept after `ins` or read by
`ins` (not a copy), and `ins` has not defined it yet. -/
def Insn.DefMeets (ins : Insn) (keptAfter : Prop) (v w : Nat) : Prop :=
  DefinedFirst v w ins.defs ∧ (keptAfter ∨ (ins.isCopy = false ∧ w ∈ ins.uses))

namespace Func

variable (fn : Func)

def KeptIn (bb : Block) (rest : List Insn) (w : Nat) : Prop := Kept (fn.LiveOut bb w) w rest

/-- The walk over block `bb` meets `v` and `w` together. -/
def SeenIn (bb : Block) (v w : Nat) : Prop :=
  (∃ pre ins post, fn.blockInsns bb = pre ++ ins :: post ∧
    (ins.DefMeets (fn.KeptIn bb post w) v w ∨ ins.DefMeets (fn.KeptIn bb post v) w v)) ∨
  (fn.KeptIn bb (fn.blockInsns bb) v ∧ fn.KeptIn bb (fn.blockInsns bb) w)

def SeenTogether (v w : Nat) : Prop := ∃ bb ∈ fn.buildCfg, fn.SeenIn bb v w

/-- `v` is written by instruction `i` while `w` is live after it. -/
def Clash (i v w : Nat) : Prop := fn.Writes i v ∧ fn.LiveAfter i w ∧ v ≠ w

end Func

/-- No write destroys a live value, hardware registers that alias each other apart. -/
def AllocationSound (fn : Func) (vregs : VregTable) (a : Assignment) : Prop :=
  ∀ i v w p q, fn.Clash i v w → a.assigned v = some p → a.assigned w = some q →
    pregsAlias p q = false ∨ ((vregs v).fixed = true ∧ (vregs w).fixed = true)

end Nib.Bind
