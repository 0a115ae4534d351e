import Nib.Infra.Graph
import Nib.Bind.Flow
import Nib.Bind.FreeRegs

/-!
# Spill planning

What the binder does with the vregs that `allocate_registers` leaves in a frame slot. Two sibling
bytes are packed into one slot; a vreg with one definition and one use is pushed behind the one and
popped before the other, when the graph allows it; what remains is numbered again. The frame holds
these slots, the stack locals, and the words that a call saves.

`collect_insn_clobbers` is the parameter `clobbers`.
-/

namespace Nib.Bind

open Nib.Infra

/-- `sibling_byte_group` and `sibling_byte_high` of a vreg that is one half of a byte pair. -/
structure SiblingByte where
  group : Nat
  high : Bool := false
  deriving DecidableEq, Repr

/-- Entries from `nvregs` on are never read. -/
abbrev SiblingTable := Nat → Option SiblingByte

/-- `stack_spill_def` and `stack_spill_use`: the word is pushed behind the one instruction and
popped before the other. -/
structure Span where
  push : Nat
  pop : Nat
  deriving DecidableEq, Repr

/-- The assignment as the spill passes change it. A vreg with a span is
`stack_spill_eligible`. -/
structure SpillPlan extends Assignment where
  byteOffset : Nat → Nat := fun _ => 0
  span : Nat → Option Span := fun _ => none

namespace SpillPlan

/-- Keep a vreg in a register, and its word on the stack in between. -/
def cache (p : SpillPlan) (v : Nat) (preg : Option Preg) (span : Span) : SpillPlan :=
  { p with
    assigned := Function.update p.assigned v preg
    spillSlot := Function.update p.spillSlot v none
    span := Function.update p.span v (some span) }

/-- Put a vreg into a byte of a slot. -/
def place (p : SpillPlan) (v slot offset : Nat) : SpillPlan :=
  { p with
    spillSlot := Function.update p.spillSlot v (some slot)
    byteOffset := Function.update p.byteOffset v offset }

end SpillPlan

/-! ## Stack-cache spans -/

/-- No word may be on the stack across one of these. -/
def IrOp.hardBarrier : IrOp → Bool
  | .tailcall | .ntailcall | .gotoFn | .ret | .farLit | .frameEnter | .frameLeave | .asm => true
  | _ => false

namespace Func

variable (fn : Func)

/-- `stack_cache_has_hard_barrier`: among the instructions `start .. stop - 1`. -/
def hasHardBarrier (start stop : Nat) : Bool :=
  ((fn.insns.take stop).drop start).any (·.op.hardBarrier)

/-- The successors of a block in the graph. -/
def succsOf (block : Nat) : List Nat := ((fn.buildCfg[block]?).map Block.succs).getD []

/-- `path_reaches_block_without_def`, from block 0. -/
def useBlockIsDominatedByDef (defBlock useBlock : Nat) : Bool :=
  let nblocks := fn.buildCfg.length
  if defBlock == useBlock then true
  else if nblocks == 0 then false
  else
    !(Search.reaches fn.succsOf (fun b => decide (nblocks ≤ b) || b == defBlock)
      (· == useBlock) (nblocks + 1) 0 []).1

/-- The instructions of a block that are passed on the way from the definition to the use. -/
def scanHasBarrier (d u defBlock useBlock block : Nat) : Bool :=
  ((fn.buildCfg[block]?).map fun bb =>
    fn.hasHardBarrier (if block == defBlock then d + 1 else bb.start)
      (if block == useBlock then u else bb.stop)).getD true

def allPathsReachStackCacheUse (d u defBlock useBlock : Nat) : Bool :=
  let nblocks := fn.buildCfg.length
  (Search.always fn.succsOf (fun b => decide (nblocks ≤ b))
    (fn.scanHasBarrier d u defBlock useBlock) (· == useBlock) (nblocks + 1) [] defBlock
    fun _ => none).1

def stackCacheCfgSpanOk (d u : Nat) : Bool :=
  let defBlock := fn.blockOf d
  let useBlock := fn.blockOf u
  if defBlock == useBlock then !fn.hasHardBarrier (d + 1) u
  else fn.useBlockIsDominatedByDef defBlock useBlock &&
    fn.allPathsReachStackCacheUse d u defBlock useBlock

/-- The instructions that write `v` as their destination. -/
def definitionsOf (v : Nat) : List Nat :=
  (List.range fn.insns.length).filter fun i =>
    (fn.insns[i]?).any fun ins => ins.definesDst && ins.dst == some v

/-- `insn_uses_vreg`. -/
def usesOf (v : Nat) : List Nat :=
  (List.range fn.insns.length).filter fun i => (fn.insns[i]?).any (·.uses.contains v)

/-- The span between the one definition and the one use of a vreg. -/
def findStackCacheSpan (v : Nat) : Option Span :=
  match fn.definitionsOf v, fn.usesOf v with
  | [d], [u] => if d < u ∧ fn.stackCacheCfgSpanOk d u = true then some ⟨d, u⟩ else none
  | _, _ => none

end Func

/-! ## Frame slots -/

/-- The numbering of `compact_spill_slots`: what the slots met so far become. -/
structure SlotMap where
  slot : Nat → Option Nat := fun _ => none
  next : Nat := 0

namespace SlotMap

/-- The new number of a slot, which is the next one when the slot is met first. -/
def visit (m : SlotMap) (s : Nat) : SlotMap :=
  match m.slot s with
  | some _ => m
  | none => { slot := Function.update m.slot s (some m.next), next := m.next + 1 }

end SlotMap

namespace Func

variable (fn : Func)

/-- Vreg `v` of the loop: the plan and the numbering so far. -/
def compactStep (st : SpillPlan × SlotMap) (v : Nat) : SpillPlan × SlotMap :=
  match st.1.spillSlot v with
  | none => st
  | some s =>
    let m := st.2.visit s
    ({ st.1 with spillSlot := Function.update st.1.spillSlot v (m.slot s) }, m)

/-- Number the slots that are in use from 0, in the order of the vregs. -/
def compactSpillSlots (p : SpillPlan) : SpillPlan :=
  let st := (List.range fn.nvregs).foldl compactStep (p, {})
  { st.1 with nspillSlots := st.2.next }

/-! ## Sibling bytes -/

variable (vregs : VregTable) (siblings : SiblingTable)

/-- A byte vreg that has a slot of its own. -/
def isByteSpill (p : SpillPlan) (v : Nat) : Bool :=
  (vregs v).isByte && (p.spillSlot v).isSome && !(vregs v).isStackHome && !(vregs v).isLocalSlot

/-- How far the live range of a peer is from that of `v`. -/
def peerScore (v peer : Nat) : Int :=
  |(vregs v).lastUse - (vregs peer).lastUse| * 8 + |(vregs v).defPos - (vregs peer).defPos|

def isPeer (p : SpillPlan) (group peer : Nat) : Bool :=
  siblings peer == some ⟨group, true⟩ && isByteSpill vregs p peer && p.byteOffset peer == 0

/-- Vreg `peer` against the closest high byte so far. -/
def peerStep (p : SpillPlan) (v group : Nat) (best : Option Nat × Int) (peer : Nat) :
    Option Nat × Int :=
  if isPeer vregs siblings p group peer && decide (peerScore vregs v peer < best.2) then
    (some peer, peerScore vregs v peer)
  else best

/-- The high byte of the group that is spilled and whose live range is the closest. -/
def bestPeer (p : SpillPlan) (v group : Nat) : Option Nat :=
  ((List.range fn.nvregs).foldl (peerStep vregs siblings p v group) (none, intMax)).1

/-- Pack the low byte `v` and the high byte that fits best into the lower of their slots. -/
def coalesceStep (p : SpillPlan) (v : Nat) : Option SpillPlan :=
  match siblings v with
  | some ⟨group, false⟩ =>
    if isByteSpill vregs p v then
      match fn.bestPeer vregs siblings p v group, p.spillSlot v with
      | some peer, some s =>
        let slot := min s ((p.spillSlot peer).getD s)
        some ((p.place v slot 0).place peer slot 1)
      | _, _ => none
    else none
  | _ => none

/-- Run a step for a vreg, and remember that something has changed. -/
def tryStep (step : SpillPlan → Nat → Option SpillPlan) (st : SpillPlan × Bool) (v : Nat) :
    SpillPlan × Bool :=
  match step st.1 v with
  | some p => (p, true)
  | none => st

def coalesceSiblingByteSpills (p : SpillPlan) : SpillPlan :=
  let st := (List.range fn.nvregs).foldl (tryStep (fn.coalesceStep vregs siblings)) (p, false)
  if st.2 then fn.compactSpillSlots st.1 else st.1

/-! ## Planning the spans -/

/-- `stack_cache_span_compatible`: apart from every planned span, around it, or inside it. -/
def spanCompatible (p : SpillPlan) (s : Span) : Bool :=
  (List.range fn.nvregs).all fun v =>
    match p.span v with
    | none => true
    | some o =>
      decide (s.pop < o.push) || decide (o.pop < s.push) ||
        decide (s.push < o.push ∧ o.pop < s.pop) || decide (o.push < s.push ∧ s.pop < o.pop)

/-- The register that is pushed for a vreg: the whole of it for a byte. -/
def storagePreg (preg : Preg) : Option Preg := if preg.isByte then preg.aliasParent else some preg

/-- Pool entry `x` against the best register that is free at both ends of the span. -/
def stackCacheRegStep (g : Igraph fn.nvregs) (p : SpillPlan) (needsFrame : Bool) (v : Nat)
    (s : Span) (best : Option Preg × Int) (x : Preg × Nat) : Option Preg × Int :=
  match storagePreg x.1 with
  | none => best
  | some storage =>
    let free (i : Nat) (r : Preg) := fn.freeRegsAt p.toAssignment needsFrame (fn.blockOf i) i r
    if storage == .sp || storage.isSegment || storage == .flags then best
    else if !free s.push x.1 || !free s.pop x.1 || !free s.push storage || !free s.pop storage then
      best
    else if fn.colorSpeedScore g vregs v x.1 x.2 > best.2 then
      (some x.1, fn.colorSpeedScore g vregs v x.1 x.2)
    else best

def chooseStackCacheReg (g : Igraph fn.nvregs) (p : SpillPlan) (bpAvailable needsFrame : Bool)
    (v : Nat) (s : Span) : Option Preg :=
  ((((vregs v).pool bpAvailable).zipIdx).foldl
    (fn.stackCacheRegStep vregs g p needsFrame v s) (none, intMin)).1

/-- The high byte that shares the slot of the low byte `low`. -/
def findStackCacheHighBytePeer (p : SpillPlan) (low : Nat) : Option Nat :=
  match siblings low, p.spillSlot low with
  | some ⟨group, false⟩, some slot =>
    if p.byteOffset low == 0 then
      (List.range fn.nvregs).find? fun peer =>
        siblings peer == some ⟨group, true⟩ && p.spillSlot peer == some slot &&
          p.byteOffset peer == 1
    else none
  | _, _ => none

/-- `preg_range_occupied_except`: another vreg holds a part of the register in the range. -/
def pregRangeOccupiedExcept (p : SpillPlan) (preg : Preg) (start stop : Nat) (except : List Nat) :
    Bool :=
  (List.range fn.nvregs).any fun v =>
    !except.contains v && (p.assigned v).any (pregsAlias · preg) &&
      decide (max (vregs v).defPos 0 ≤ stop) && decide ((start : Int) ≤ (vregs v).lastUse)

variable (clobbers : (Nat → Option Preg) → Insn → List Preg)

/-- `stack_cache_parent_clobbered_in_range`, both ends included. -/
def parentClobberedInRange (p : SpillPlan) (parent : Preg) (start stop : Nat) : Bool :=
  ((fn.insns.take (stop + 1)).drop start).any fun ins =>
    (clobbers p.assigned ins).any (pregsAlias · parent)

/-- A word register no other vreg holds a part of, at the definitions and at the uses. -/
def choosePairStackCacheParent (p : SpillPlan) (low high defStart push pop useEnd : Nat) :
    Option Preg :=
  [Preg.dx, .bx, .cx, .ax].find? fun parent =>
    !fn.pregRangeOccupiedExcept vregs p parent defStart push [low, high] &&
      !fn.pregRangeOccupiedExcept vregs p parent pop useEnd [low, high]

/-- Neither a segment nor pinned nor at home in memory. -/
def mayCache (v : Nat) : Bool :=
  !(vregs v).isSeg && !(vregs v).fixed && !(vregs v).isStackHome && !(vregs v).isLocalSlot

/-- The span of a byte pair: behind the later definition, before the earlier use. -/
def pairSpan (l h : Span) : Span := ⟨max l.push h.push, min l.pop h.pop⟩

/-- Keep both bytes of a slot in the halves of one register. -/
def planPairStep (p : SpillPlan) (low : Nat) : Option SpillPlan :=
  if !((vregs low).isByte && mayCache vregs low && (p.spillSlot low).isSome) then none
  else
    match fn.findStackCacheHighBytePeer siblings p low with
    | none => none
    | some high =>
      if (vregs high).fixed || (vregs high).isStackHome || (vregs high).isLocalSlot then none
      else
        match fn.findStackCacheSpan low, fn.findStackCacheSpan high with
        | some l, some h =>
          let s := pairSpan l h
          let defStart := min l.push h.push
          let useEnd := max l.pop h.pop
          if s.push < s.pop ∧ fn.stackCacheCfgSpanOk s.push s.pop = true ∧
              fn.spanCompatible p s = true then
            match fn.choosePairStackCacheParent vregs p low high defStart s.push s.pop useEnd with
            | none => none
            | some parent =>
              if fn.parentClobberedInRange clobbers p parent defStart s.push ||
                  fn.parentClobberedInRange clobbers p parent s.pop useEnd then none
              else
                let p := (p.cache low parent.aliasLo s).cache high parent.aliasHi s
                some { p with
                  byteOffset := Function.update (Function.update p.byteOffset low 0) high 0 }
          else none
        | _, _ => none

/-- Keep a spilled vreg in a register that is free at its definition and at its use. -/
def planStep (g : Igraph fn.nvregs) (bpAvailable needsFrame : Bool) (p : SpillPlan) (v : Nat) :
    Option SpillPlan :=
  if !((p.spillSlot v).isSome && mayCache vregs v) then none
  else
    match fn.findStackCacheSpan v with
    | none => none
    | some s =>
      if fn.spanCompatible p s then
        (fn.chooseStackCacheReg vregs g p bpAvailable needsFrame v s).map fun preg =>
          p.cache v (some preg) s
      else none

/-- The pairs first, then every vreg that is still spilled. -/
def planSpans (g : Igraph fn.nvregs) (bpAvailable needsFrame : Bool) (p : SpillPlan) :
    SpillPlan × Bool :=
  (List.range fn.nvregs).foldl
    (tryStep (fn.planStep vregs g bpAvailable needsFrame))
    ((List.range fn.nvregs).foldl (tryStep (fn.planPairStep vregs siblings clobbers)) (p, false))

def planStackCacheSpills (g : Igraph fn.nvregs) (bpAvailable needsFrame : Bool) (p : SpillPlan) :
    SpillPlan :=
  let st := fn.planSpans vregs siblings clobbers g bpAvailable needsFrame p
  if st.2 then fn.compactSpillSlots st.1 else st.1

/-- What the binder does after `allocate_registers`: pack the bytes, then plan the spans. BP is
available when there is no frame. -/
def planSpills (a : Assignment) (needsFrame : Bool) : SpillPlan :=
  fn.planStackCacheSpills vregs siblings clobbers fn.igraph (!needsFrame) needsFrame
    (fn.coalesceSiblingByteSpills vregs siblings { toAssignment := a })

/-! ## Emission -/

/-- `stack_cache_storage_preg`. -/
def stackCacheStoragePreg (p : SpillPlan) (v : Nat) : Option Preg :=
  (p.assigned v).bind storagePreg

/-- The registers of the vregs whose spans have `i` at this end, each of them once. -/
def stackCacheRegs (stop : Span → Nat) (p : SpillPlan) (i : Nat) : List Preg :=
  (((List.range fn.nvregs).filter fun v => (p.span v).any fun s => stop s == i).filterMap
    (stackCacheStoragePreg p)).eraseDups

/-- `rins_stack_cache_pop_for_insn`: what is popped before instruction `i`. -/
def stackCachePops (p : SpillPlan) (i : Nat) : List Preg := fn.stackCacheRegs Span.pop p i

/-- `rins_stack_cache_push_for_insn`: what is pushed behind instruction `i`. -/
def stackCachePushes (p : SpillPlan) (i : Nat) : List Preg := fn.stackCacheRegs Span.push p i

end Func

/-! ## The frame -/

/-- The stack locals of a function: the size of the area, and the size and the offset of each. -/
structure LocalArea where
  localSize : Nat := 0
  slot : Nat → Option (Nat × Nat) := fun _ => none

/-- `.local`: the size is rounded up to words. -/
def LocalArea.declare (area : LocalArea) (v size : Nat) : LocalArea :=
  let sz := (size + 1) / 2 * 2
  { localSize := area.localSize + sz
    slot := Function.update area.slot v (some (sz, area.localSize + sz)) }

/-- The area after the `.local` lines of a function. -/
def localArea (lines : List (Nat × Nat)) : LocalArea :=
  lines.foldl (fun area l => area.declare l.1 l.2) {}

/-- What the frame of a function is made of. -/
structure Frame where
  plan : SpillPlan
  area : LocalArea
  needsCallTemp : Bool

namespace Frame

variable (f : Frame)

/-- The spill slots and the locals. -/
def baseSize : Nat := f.plan.nspillSlots * 2 + f.area.localSize

/-- `frame_size`. -/
def frameSize : Nat := f.baseSize + if f.needsCallTemp then 4 else 0

/-- `call_temp_off`. -/
def callTempOff : Int := if f.needsCallTemp then -(f.baseSize + 4 : Int) else 0

/-- The displacement that `vreg_asm` prints for a slot. -/
def spillOff (slot v : Nat) : Int := -(slot + 1 : Int) * 2 + f.plan.byteOffset v

/-- `local_bp_offset`. -/
def localBpOffset (v : Nat) : Int :=
  match f.area.slot v with
  | none => 0
  | some (_, off) => -(f.plan.nspillSlots * 2 + off : Int)

end Frame

end Nib.Bind
