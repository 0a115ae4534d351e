import Nib.Bind.Liveness
import Nib.Bind.Moves
import Nib.Bind.Spec.Live

/-!
# Free registers

`free_regs_at`, `vreg_live_after_insn` and `preg_live_after_insn`. They walk backward from the end
of a block, where the vregs of `live_out` are live.

* `FreeRegsSound` — a register that is free holds no vreg that is live
* `LiveQueriesSound` — what is not live after an instruction is not read before it is written
-/

namespace Nib.Bind

open Nib.Infra

namespace Func

variable (fn : Func)

def removeInsnDefsFromLive (ins : Insn) (live : BitSet) : BitSet :=
  (fn.inRange ins.defs).foldl BitSet.erase live

def addInsnUsesToLive (ins : Insn) (live : BitSet) : BitSet :=
  (fn.inRange ins.uses).foldl BitSet.insert live

/-- As `free_regs_at` adds them: the vreg whose address `lea` takes counts as well. -/
def addInsnOperandsToLive (ins : Insn) (live : BitSet) : BitSet :=
  fn.addInsnUsesToLive ins ((fn.inRange ins.src1.toList).foldl BitSet.insert live)

/-- The walk over instructions `pos` and later of a block. -/
def walkBack (addUses : Insn → BitSet → BitSet) (bb : Block) (pos : Nat) (liveOut : BitSet) :
    BitSet :=
  ((fn.insns.take bb.stop).drop pos).foldr
    (fun ins live => addUses ins (fn.removeInsnDefsFromLive ins live)) liveOut

/-- The `live_out` of block `b`. -/
def liveOutOf (b : Nat) : BitSet := (fn.computeCfgLiveness fn.buildCfg).liveOut.getD b .empty

end Func

/-- The registers that are occupied by a vreg in this one. -/
def Preg.occupies (r : Preg) : List Preg :=
  if r.hasHalves then r :: (r.aliasLo.toList ++ r.aliasHi.toList)
  else if r.isByte then
    let parent := r.aliasParent
    r :: (parent.toList ++ (parent.bind aliasLo).toList ++ (parent.bind aliasHi).toList)
  else [r]

namespace Func

variable (fn : Func) (a : Assignment)

/-- Which registers are free at instruction `pos` of block `b`. -/
def freeRegsAt (needsFrame : Bool) (b pos : Nat) (r : Preg) : Bool :=
  match fn.buildCfg[b]? with
  | none => false
  | some bb =>
    let live := fn.walkBack fn.addInsnOperandsToLive bb pos (fn.liveOutOf b)
    let occupied := (live.toList fn.nvregs).flatMap fun v =>
      ((a.assigned v).map Preg.occupies).getD []
    !(occupied.contains r || r == .sp || (needsFrame && r == .bp))

/-- The vregs that are live after an instruction. An instruction in no block has none. -/
def liveAfterInsn (i : Nat) : BitSet :=
  match fn.buildCfg.findIdx? fun bb => decide (bb.start ≤ i) && decide (i < bb.stop) with
  | none => .empty
  | some b =>
    ((fn.buildCfg[b]?).map fun bb =>
      fn.walkBack fn.addInsnUsesToLive bb (i + 1) (fn.liveOutOf b)).getD .empty

def vregLiveAfterInsn (i v : Nat) : Bool :=
  decide (v < fn.nvregs) && (fn.liveAfterInsn i).has v

def pregLiveAfterInsn (i : Nat) (written : Option Preg) : Bool :=
  ((fn.liveAfterInsn i).toList fn.nvregs).any fun v => pregWriteClobbers written (a.assigned v)

end Func

/-! ## Soundness -/

namespace Func

variable (fn : Func) (a : Assignment)

/-- Live on one side of the instruction or the other. -/
def LiveAround (i v : Nat) : Prop := fn.LiveBefore [] v i ∨ fn.LiveAfter i v

/-- Live before the instruction, or past it. -/
def LiveAcross (i v : Nat) : Prop := fn.LiveBefore [] v i ∨ (fn.LiveAfter i v ∧ ¬fn.Writes i v)

/-- A register that is free at an instruction aliases no register of a vreg that is `live`
there. -/
def FreeRegsSound (needsFrame : Bool) (live : Nat → Nat → Prop) : Prop :=
  ∀ b bb i r, fn.buildCfg[b]? = some bb → bb.start ≤ i → i < bb.stop →
    fn.freeRegsAt a needsFrame b i r = true →
    ∀ v < fn.nvregs, ∀ p, a.assigned v = some p → live i v → pregsAlias r p = false

/-- Nothing that is said not to be live is read before it is written. -/
structure LiveQueriesSound : Prop where
  vreg : ∀ i, ∀ v < fn.nvregs, fn.vregLiveAfterInsn i v = false → ¬fn.LiveAfter i v
  preg : ∀ i r, fn.pregLiveAfterInsn a i (some r) = false →
    ∀ v < fn.nvregs, ∀ p, a.assigned v = some p → pregsAlias r p = true → ¬fn.LiveAfter i v

end Func

end Nib.Bind
