import Nib.Infra.BitSet
import Nib.Bind.Cfg

/-!
# Dataflow liveness on the CFG

`compute_block_def_use` and `compute_cfg_liveness`. The local sets are computed once per block
in the source; here they are a function of the block.
-/

namespace Nib.Bind

open Nib.Infra

/-- The local sets of a block. -/
structure DefUse where
  defs : BitSet := .empty
  uses : BitSet := .empty
  deriving DecidableEq, Repr

/-- A use counts only if no earlier instruction of the block defines the vreg. -/
def DefUse.addInsn (nvregs : Nat) (s : DefUse) (ins : Insn) : DefUse :=
  { uses := (ins.uses.filter fun v => v < nvregs && !s.defs.has v).foldl BitSet.insert s.uses
    defs := (ins.defs.filter (· < nvregs)).foldl BitSet.insert s.defs }

/-- Live-in and live-out sets, by block index. -/
structure LiveSets where
  liveIn : List BitSet
  liveOut : List BitSet
  deriving DecidableEq, Repr

/-- The union of the live-in sets of the successors. -/
def Block.unionSuccs (bb : Block) (liveIn : List BitSet) : BitSet :=
  bb.succs.foldl (fun acc t => acc.union (liveIn.getD t .empty)) .empty

namespace Func

variable (fn : Func)

def blockInsns (bb : Block) : List Insn := (fn.insns.take bb.stop).drop bb.start

def blockDefUse (bb : Block) : DefUse := (fn.blockInsns bb).foldl (DefUse.addInsn fn.nvregs) {}

/-- Vregs out of range never enter a set. -/
def inRange (vs : List Nat) : List Nat := vs.filter (· < fn.nvregs)

/-- `uses | (live_out - defs)`; the entry block keeps every parameter live. -/
def blockLiveIn (b : Nat) (bb : Block) (liveOut : BitSet) : BitSet :=
  let du := fn.blockDefUse bb
  let live := du.uses.union (liveOut.diff du.defs)
  if b = 0 then (fn.inRange fn.paramVregs).foldl BitSet.insert live else live

/-- Recompute the sets of block `b` in place. -/
def liveStep (blocks : List Block) (s : LiveSets) (b : Nat) : LiveSets :=
  match blocks[b]? with
  | none => s
  | some bb =>
    let liveOut := bb.unionSuccs s.liveIn
    { liveIn := s.liveIn.set b (fn.blockLiveIn b bb liveOut)
      liveOut := s.liveOut.set b liveOut }

/-- One pass over the blocks, last block first. -/
def liveSweep (blocks : List Block) (s : LiveSets) : LiveSets :=
  (List.range blocks.length).reverse.foldl (fn.liveStep blocks) s

/-- Iterate until stable, at most `fuel` times. -/
def liveIterate (blocks : List Block) : Nat → LiveSets → LiveSets
  | 0, s => s
  | fuel + 1, s =>
    let s' := fn.liveSweep blocks s
    if s' = s then s' else liveIterate blocks fuel s'

/-- Register parameters are live-in at the entry block. -/
def liveInit (blocks : List Block) : LiveSets :=
  let none := List.replicate blocks.length BitSet.empty
  { liveIn := none.modify 0 fun s => (fn.inRange fn.regParamVregs).foldl BitSet.insert s
    liveOut := none }

def computeCfgLiveness (blocks : List Block) : LiveSets :=
  fn.liveIterate blocks (blocks.length * 4 + 10) (fn.liveInit blocks)

end Func

end Nib.Bind
