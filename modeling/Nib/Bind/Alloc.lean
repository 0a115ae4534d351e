import Mathlib.Logic.Function.Basic
import Nib.Bind.Igraph

/-!
# Register allocation

`allocate_registers`: pre-colour the fixed and the preferred vregs, simplify, select. What the
allocator reads of a vreg is `VregInfo`; what it writes is `Assignment`. `potential_spill` is
written and never read in the source, and has no counterpart.
-/

namespace Nib.Bind

inductive RematKind
  | none | imm | label | segLabel
  deriving DecidableEq, Repr

/-- Virtual register info, as far as the allocator reads it. -/
structure VregInfo where
  prefer : Option Preg := none
  fixed : Bool := false
  isByte : Bool := false
  isSeg : Bool := false
  needsAddressable : Bool := false
  needsBase : Bool := false
  needsIndex : Bool := false
  needsDsAddr : Bool := false
  needsCl : Bool := false
  rematKind : RematKind := .none
  useCount : Nat := 0
  inLoop : Bool := false
  isLocalSlot : Bool := false
  isStackHome : Bool := false
  affinity : Preg → Int := fun _ => 0
  stackSpillEligible : Bool := false
  defPos : Int := -1
  lastUse : Int := -1

/-- `fn->vregs`, by vreg number. Entries from `nvregs` on are never read. -/
abbrev VregTable := Nat → VregInfo

/-- The outcome for every vreg: a colour or a spill slot. -/
structure Assignment where
  assigned : Nat → Option Preg := fun _ => none
  spillSlot : Nat → Option Nat := fun _ => none
  nspillSlots : Nat := 0

namespace Assignment

/-- Give a vreg a register. -/
def assign (a : Assignment) (v : Nat) (preg : Option Preg) : Assignment :=
  { a with assigned := Function.update a.assigned v preg }

@[simp] theorem assign_self (a : Assignment) (v : Nat) (preg : Option Preg) :
    (a.assign v preg).assigned v = preg := Function.update_self ..

theorem assign_of_ne (a : Assignment) {v w : Nat} (preg : Option Preg) (h : w ≠ v) :
    (a.assign v preg).assigned w = a.assigned w := Function.update_of_ne h ..

end Assignment

namespace V20

/-! ## Timing constants -/

def movRegImm16 : Int := 4
def movRegMem16 : Int := 15
def movMem16Reg : Int := 13
def pushReg16 : Int := 12
def popReg16 : Int := 12

end V20

def intMax : Int := 2147483647
def intMin : Int := -2147483648

namespace VregInfo

variable (vr : VregInfo)

/-- The register pool of a vreg, by its constraints. -/
def pool (bpAvailable : Bool) : List Preg :=
  let bp := if bpAvailable then [Preg.bp] else []
  if vr.isSeg then [.es]
  else if vr.needsCl then [.cl]
  else if vr.isByte then [.al, .ah, .bl, .bh, .cl, .ch, .dl, .dh]
  else if vr.needsBase then [.bx] ++ bp
  else if vr.needsIndex then [.si, .di]
  else if vr.needsDsAddr then [.bx, .si, .di]
  else if vr.needsAddressable then [.bx] ++ bp ++ [.si, .di]
  else [.ax, .bx, .cx, .dx, .si, .di] ++ bp

/-- The checks on a preference before the conflict test. -/
def preferAllowed (bpAvailable : Bool) (preg : Preg) : Bool :=
  !(!bpAvailable && preg == .bp) &&
  !(vr.isSeg && !preg.isSegment) &&
  !(!vr.isSeg && preg.isSegment) &&
  !(vr.needsBase && preg != .bx && preg != .bp) &&
  !(vr.needsIndex && preg != .si && preg != .di) &&
  !(vr.needsAddressable && preg != .bx && preg != .bp && preg != .si && preg != .di) &&
  !(vr.needsCl && preg != .cl)

/-! ## Spill costs -/

def loopWeight : Int := if vr.inLoop then 10 else 1

/-- The use count, at least one. -/
def usesForCost : Int := if vr.useCount = 0 then 1 else vr.useCount

def frameSpillCost : Int :=
  (V20.movMem16Reg + vr.usesForCost * V20.movRegMem16) * vr.loopWeight

def canRematerialize : Bool :=
  vr.rematKind != .none && !vr.isSeg && !vr.fixed && !vr.needsAddressable && !vr.needsBase &&
    !vr.needsIndex && !vr.needsDsAddr && !vr.needsCl

def rematCost : Int := vr.usesForCost * V20.movRegImm16 * vr.loopWeight

def stackCacheCost : Int :=
  if !vr.stackSpillEligible then intMax / 4
  else if vr.isSeg then intMax / 4
  else V20.pushReg16 + V20.popReg16

def bestSpillCost : Int :=
  let cost := vr.frameSpillCost
  let cost := if vr.stackCacheCost < cost then vr.stackCacheCost else cost
  if vr.canRematerialize && decide (vr.rematCost < cost) then vr.rematCost else cost

def spillCost : Int :=
  let cost := vr.bestSpillCost * 100
  let cost := if vr.fixed then cost + 10000 else if vr.prefer.isSome then cost + 500 else cost
  let range := vr.lastUse - vr.defPos
  let cost := if range > 0 then cost - range * V20.popReg16 else cost
  if cost < 1 then 1 else cost

end VregInfo

def poolsMayAlias (a b : List Preg) : Bool := a.any fun x => b.any fun y => pregsAlias x y

/-- `preg` is taken by a vreg holding `assigned`. -/
def takenBy (preg : Preg) : Option Preg → Bool
  | none => false
  | some p => p == preg || pregsAlias p preg

namespace Func

variable (fn : Func) (g : Igraph fn.nvregs) (vregs : VregTable) (bpAvailable : Bool)

def neighbors (v : Nat) : List Nat := (g.row v).toList fn.nvregs

/-- Some neighbour of `v` holds `preg` or a register that aliases it. -/
def colorConflicts (assigned : Nat → Option Preg) (v : Nat) (preg : Preg) : Bool :=
  (fn.neighbors g v).any fun nb => takenBy preg (assigned nb)

/-! ## Phase 1: pre-colour -/

/-- Fixed vregs take their register without a conflict test. -/
def colorFixed (a : Assignment) (i : Nat) : Assignment :=
  let vr := vregs i
  if vr.isStackHome then a
  else if vr.fixed && vr.prefer.isSome then
    a.assign i vr.prefer
  else a

/-- `vregs_interfere` against every other vreg that holds a register. -/
def preferConflicts (assigned : Nat → Option Preg) (i : Nat) (preg : Preg) : Bool :=
  (List.range fn.nvregs).any fun j => j != i && (g.row i).has j && takenBy preg (assigned j)

def colorPreferred (a : Assignment) (i : Nat) : Assignment :=
  let vr := vregs i
  if vr.isStackHome || vr.isLocalSlot || vr.fixed then a
  else
    match vr.prefer with
    | none => a
    | some preg =>
      if vr.preferAllowed bpAvailable preg && !fn.preferConflicts g a.assigned i preg then
        a.assign i (some preg)
      else a

def precolor : Assignment :=
  (List.range fn.nvregs).foldl (fn.colorPreferred g vregs bpAvailable)
    ((List.range fn.nvregs).foldl (colorFixed vregs) {})

/-! ## Phase 2: simplify -/

/-- Already handled: homed elsewhere, coloured, or without any def or use. -/
def handled (a : Assignment) (i : Nat) : Bool :=
  let vr := vregs i
  vr.isStackHome || vr.isLocalSlot || (a.assigned i).isSome ||
    (decide (vr.defPos < 0) && decide (vr.lastUse < 0))

def activeDegree (removed : Nat → Bool) (i : Nat) : Nat :=
  (fn.neighbors g i).countP fun nb =>
    !removed nb &&
      poolsMayAlias ((vregs i).pool bpAvailable) ((vregs nb).pool bpAvailable)

/-- Vreg `i` against the cheapest candidate so far. -/
def cheapestStep (candidate : Nat → Bool) (best : Option Nat × Int) (i : Nat) :
    Option Nat × Int :=
  if candidate i && decide ((vregs i).spillCost < best.2) then (some i, (vregs i).spillCost)
  else best

/-- The first vreg of the lowest spill cost among the candidates. -/
def cheapest (candidate : Nat → Bool) : Option Nat :=
  ((List.range fn.nvregs).foldl (cheapestStep vregs candidate) (none, intMax)).1

/-- The cheapest trivially colourable vreg, or else the cheapest one as a potential spill. -/
def pickSimplify (removed : Nat → Bool) : Option Nat :=
  (fn.cheapest vregs fun i =>
      !removed i && decide (fn.activeDegree g vregs bpAvailable removed i <
        ((vregs i).pool bpAvailable).length)).or
    (fn.cheapest vregs fun i => !removed i)

/-- The work stack, last pushed first. The loop runs once for each remaining vreg. -/
def simplify : Nat → (Nat → Bool) → List Nat → List Nat
  | 0, _, stack => stack
  | remaining + 1, removed, stack =>
    match fn.pickSimplify g vregs bpAvailable removed with
    | some v => simplify remaining (Function.update removed v true) (v :: stack)
    | none => stack

def workStack (a : Assignment) : List Nat :=
  let removed := handled vregs a
  fn.simplify g vregs bpAvailable ((List.range fn.nvregs).countP fun i => !removed i) removed []

/-! ## Phase 3: select -/

def hasMemDispUse (v : Nat) : Bool :=
  fn.insns.any fun ins =>
    ins.memDisp.isSome &&
      (ins.op == .loadmem && ins.src1 == some v || ins.op == .storemem && ins.dst == some v)

def byteInterferenceCount (v : Nat) : Nat := (fn.neighbors g v).countP fun nb => (vregs nb).isByte

def colorSpeedScore (v : Nat) (preg : Preg) (poolIndex : Nat) : Int :=
  let vr := vregs v
  let score : Int := -poolIndex
  let score := if vr.prefer = some preg then score + 10000 else score
  let score := score + vr.affinity preg * 100
  if !vr.isByte && !vr.isSeg && (!vr.needsAddressable || fn.hasMemDispUse v) &&
      !vr.needsBase && !vr.needsIndex && !vr.needsCl then
    let byteEdges := fn.byteInterferenceCount g vregs v
    if byteEdges > 0 then
      if preg.hasHalves then score - byteEdges * 250
      else if preg == .si || preg == .di then score + byteEdges * 50
      else score
    else score
  else score

/-- Pool entry `x` against the best register so far. -/
def chooseColorStep (assigned : Nat → Option Preg) (v : Nat) (best : Option Preg × Int)
    (x : Preg × Nat) : Option Preg × Int :=
  if fn.colorConflicts g assigned v x.1 then best
  else if fn.colorSpeedScore g vregs v x.1 x.2 > best.2 then
    (some x.1, fn.colorSpeedScore g vregs v x.1 x.2)
  else best

/-- The conflict-free register of the pool with the best score. -/
def chooseColor (assigned : Nat → Option Preg) (v : Nat) (pool : List Preg) : Option Preg :=
  (pool.zipIdx.foldl (fn.chooseColorStep g vregs assigned v) (none, intMin)).1

/-- The preference register, if the pool has it and no neighbour holds it. -/
def preferredColor (assigned : Nat → Option Preg) (v : Nat) (pool : List Preg) : Option Preg :=
  match (vregs v).prefer with
  | none => none
  | some preg =>
    if !bpAvailable && preg == .bp then none
    else if pool.contains preg && !fn.colorConflicts g assigned v preg then some preg
    else none

/-- Pop one vreg: colour it, or spill it unless it can be rematerialized. -/
def selectOne (a : Assignment) (v : Nat) : Assignment :=
  let pool := (vregs v).pool bpAvailable
  match (fn.preferredColor g vregs bpAvailable a.assigned v pool).or
      (fn.chooseColor g vregs a.assigned v pool) with
  | some preg => a.assign v (some preg)
  | none =>
    if (vregs v).canRematerialize then a
    else
      { a with
        spillSlot := Function.update a.spillSlot v (some a.nspillSlots)
        nspillSlots := a.nspillSlots + 1 }

/-- Chaitin-Briggs register allocation over the graph `g`. -/
def allocateRegisters : Assignment :=
  let a := fn.precolor g vregs bpAvailable
  (fn.workStack g vregs bpAvailable a).foldl (fn.selectOne g vregs bpAvailable) a

end Func

/-- The assignment after `build_igraph` and `allocate_registers`. -/
def allocate (fn : Func) (vregs : VregTable) (bpAvailable : Bool) : Assignment :=
  fn.allocateRegisters fn.igraph vregs bpAvailable

end Nib.Bind
