import Nib.Bind.Spill

/-!
# Spill planning

* `Func.SpanOk` — a word that is pushed is popped again, whichever way control goes
* `Func.SpansPlanned` — the spans of a plan, which lie apart or inside one another
* `Func.StackRun` — every pop of a run takes the word of its own vreg
* `Func.SlotsKept` — no two vregs share a byte of a slot
* `Frame.LaidOut` — nothing in the frame overlaps anything else
-/

namespace Nib.Bind

open Nib.Infra Relation

/-- Apart, or one strictly inside the other. -/
def Span.Nest (s t : Span) : Prop :=
  s.pop < t.push ∨ t.pop < s.push ∨ (s.push < t.push ∧ t.pop < s.pop) ∨
    (t.push < s.push ∧ s.pop < t.pop)

/-- The low and the high byte of one group. -/
def SiblingTable.Pair (siblings : SiblingTable) (low high : Nat) : Prop :=
  ∃ group, siblings low = some ⟨group, false⟩ ∧ siblings high = some ⟨group, true⟩

namespace Func

variable (fn : Func)

/-! ## Spans and the graph -/

/-- None of the instructions `start .. stop - 1` is a barrier. -/
def NoBarrier (start stop : Nat) : Prop :=
  ∀ i ins, start ≤ i → i < stop → fn.insns[i]? = some ins → ins.op.hardBarrier = false

/-- Control gets from the entry to block `b` without entering block `avoid`. -/
def GetsAround (avoid b : Nat) : Prop :=
  avoid ≠ 0 ∧ ReflTransGen (fun x y => y ∈ fn.succsOf x ∧ y ≠ avoid) 0 b

/-- No barrier among the instructions of block `b` between the definition and the use. -/
def Passable (d u b : Nat) : Prop :=
  ∃ bb, fn.buildCfg[b]? = some bb ∧
    fn.NoBarrier (if b = fn.blockOf d then d + 1 else bb.start)
      (if b = fn.blockOf u then u else bb.stop)

/-- Every way through the graph from the block of `d` comes to the block of `u`, and past no
barrier before it does. -/
def AlwaysReaches (d u : Nat) : Prop :=
  ∀ way : ℕ → Nat, Search.Way fn.succsOf way → way 0 = fn.blockOf d →
    ∃ n, way n = fn.blockOf u ∧ ∀ k ≤ n, fn.Passable d u (way k)

/-- Instruction `i` writes `v` as its destination. -/
def DefinesAt (v i : Nat) : Prop :=
  ∃ ins, fn.insns[i]? = some ins ∧ ins.definesDst = true ∧ ins.dst = some v

/-- Instruction `i` reads `v`. -/
def UsesAt (v i : Nat) : Prop := ∃ ins, fn.insns[i]? = some ins ∧ v ∈ ins.uses

/-- What is pushed behind `d` has been pushed when control comes to `u` for the first time, and
control does come to `u`. -/
def SpanOk (d u : Nat) : Prop :=
  if fn.blockOf d = fn.blockOf u then fn.NoBarrier (d + 1) u
  else ¬fn.GetsAround (fn.blockOf d) (fn.blockOf u) ∧ fn.AlwaysReaches d u

/-- **The stack discipline of a plan.** -/
structure SpansPlanned (siblings : SiblingTable) (p : SpillPlan) : Prop where
  /-- A vreg with a span has a register and no slot, and its word is always popped. -/
  cached : ∀ v < fn.nvregs, ∀ s, p.span v = some s →
    (∃ preg, p.assigned v = some preg) ∧ p.spillSlot v = none ∧ s.push < s.pop ∧
      s.pop < fn.insns.length ∧ fn.SpanOk s.push s.pop
  /-- Two words that are on the stack at the same time are pushed and popped in turn, unless they
  are the one word of a byte pair. -/
  nest : ∀ v < fn.nvregs, ∀ w < fn.nvregs, v ≠ w → ∀ s t, p.span v = some s →
    p.span w = some t → s.Nest t ∨ (s = t ∧ (siblings.Pair v w ∨ siblings.Pair w v) ∧
      stackCacheStoragePreg p v = stackCacheStoragePreg p w)

/-! ## Runs -/

/-- The blocks of a run of the function: from the entry along the graph to a block that leaves. -/
structure CompletePath (path : List Nat) : Prop where
  entry : path.head? = some 0
  inGraph : ∀ b ∈ path, b < fn.buildCfg.length
  steps : path.IsChain fun b c => c ∈ fn.succsOf b
  leaves : ∀ b, path.getLast? = some b → fn.succsOf b = []

/-- The instructions of the blocks, in the order in which they are run. -/
def executed (path : List Nat) : List Nat :=
  path.flatMap fun b => ((fn.buildCfg[b]?).map fun bb =>
    List.range' bb.start (bb.stop - bb.start)).getD []

/-- A word on the stack: the instruction behind which it was pushed, and the register. -/
abbrev StackWord := Nat × Preg

/-- Pops before instruction `i`: each takes the word that was pushed for its own vreg. -/
inductive Popped (p : SpillPlan) (i : Nat) :
    List Preg → List StackWord → List StackWord → Prop
  | nil (st : List StackWord) : Popped p i [] st st
  | cons {d : Nat} {r : Preg} {rs : List Preg} {st st' : List StackWord} :
    (∀ v < fn.nvregs, ∀ s, p.span v = some s → s.pop = i → stackCacheStoragePreg p v = some r →
      s.push = d) →
    Popped p i rs st st' → Popped p i (r :: rs) ((d, r) :: st) st'

/-- The instructions are run with the pops and pushes that stand around each of them. -/
inductive StackRun (p : SpillPlan) : List Nat → List StackWord → List StackWord → Prop
  | nil (st : List StackWord) : StackRun p [] st st
  | cons {i : Nat} {rest : List Nat} {st st₁ st₂ : List StackWord} :
    fn.Popped p i (fn.stackCachePops p i) st st₁ →
    StackRun p rest (((fn.stackCachePushes p i).map fun r => (i, r)).reverse ++ st₁) st₂ →
    StackRun p (i :: rest) st st₂

/-! ## Frame slots -/

variable (vregs : VregTable) (siblings : SiblingTable)

/-- The low and the high byte of one slot. -/
structure Halves (p : SpillPlan) (low high : Nat) : Prop where
  pair : siblings.Pair low high
  lowByte : (vregs low).isByte = true
  highByte : (vregs high).isByte = true
  lowOffset : p.byteOffset low = 0
  highOffset : p.byteOffset high = 1

/-- **What the frame slots hold.** -/
structure SlotsKept (p : SpillPlan) : Prop where
  bound : ∀ v < fn.nvregs, ∀ s, p.spillSlot v = some s → s < p.nspillSlots
  offset : ∀ v < fn.nvregs, (p.spillSlot v).isSome →
    p.byteOffset v = 0 ∨ (p.byteOffset v = 1 ∧ (vregs v).isByte = true)
  shared : ∀ v < fn.nvregs, ∀ w < fn.nvregs, v ≠ w → ∀ s, p.spillSlot v = some s →
    p.spillSlot w = some s → Halves vregs siblings p v w ∨ Halves vregs siblings p w v

/-- Every slot of the frame holds something. -/
def Dense (p : SpillPlan) : Prop := ∀ s < p.nspillSlots, ∃ v < fn.nvregs, p.spillSlot v = some s

end Func

/-! ## The frame -/

/-- What takes up bytes below the frame pointer. -/
inductive FrameObject
  | slot (v : Nat)
  | stackLocal (v : Nat)
  | callTemp
  deriving DecidableEq

namespace Frame

variable (vregs : VregTable) (f : Frame)

/-- The first byte of an object and the one past its last, from BP. -/
def extent : FrameObject → Option (Int × Int)
  | .slot v => (f.plan.spillSlot v).map fun s =>
      (f.spillOff s v, f.spillOff s v + if (vregs v).isByte then 1 else 2)
  | .stackLocal v => (f.area.slot v).map fun l => (f.localBpOffset v, f.localBpOffset v + l.1)
  | .callTemp => if f.needsCallTemp then some (f.callTempOff, f.callTempOff + 4) else none

/-- A slot of a vreg that the function has, or anything else. -/
def Has (nvregs : Nat) : FrameObject → Prop
  | .slot v => v < nvregs
  | _ => True

/-- **The objects of the frame lie in it, and apart from one another.** -/
structure LaidOut (nvregs : Nat) : Prop where
  inside : ∀ x r, Has nvregs x → f.extent vregs x = some r → -(f.frameSize : Int) ≤ r.1 ∧ r.2 ≤ 0
  apart : ∀ x y r t, x ≠ y → Has nvregs x → Has nvregs y → f.extent vregs x = some r →
    f.extent vregs y = some t → r.2 ≤ t.1 ∨ t.2 ≤ r.1

end Frame

end Nib.Bind
