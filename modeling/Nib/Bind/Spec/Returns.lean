import Nib.Bind.Returns
import Nib.Bind.Spec.Moves

/-!
# Return values in their places

* `RetvalReturns` — every value is where the caller looks for it
* `ReturnsSound` — no value is lost on the way
-/

namespace Nib.Bind

open Nib.Infra

/-- A slot has the value of a vreg: a byte of it for a byte vreg. -/
def Source.InSlot (pl : Addresses) (v : Source) (a : Word) (s t : Cpu) : Prop :=
  (if v.isByte then zeroExtend (t.stack a) else readWord t.stack a) = v.value pl s

/-- Every return value is in its register or its slot. -/
def Returned (pl : Addresses) (fn : ReturnAbi) (srcs : List Source) (s t : Cpu) : Prop :=
  ∀ ri v, srcs[ri]? = some v →
    (∀ r, fn.functionReturnReg ri = some r → t.read r = r.fit (v.value pl s)) ∧
    ∀ off, fn.returnSlot ri = some off → v.InSlot pl (s.slotAddr off) s t

/-- The pushes do not reach the return slots. -/
def Cpu.SlotsClear (s : Cpu) (fn : ReturnAbi) (n : Nat) : Prop :=
  ∀ ri off, fn.returnSlot ri = some off → (s.slotAddr off - s.sp).toNat + 2 * n + 6 ≤ 65536

/-- The moves leave the return values in their places, wherever the processor starts them. -/
def RetvalReturns (fn : ReturnAbi) (srcs : List Source) : Prop :=
  ∀ (env : MoveEnv) (s : Cpu), s.HasRoom srcs.length srcs → s.SlotsClear fn srcs.length →
    ∃ t, moveRun env (emitReturnMoves fn srcs) s = some t ∧ Returned env.places fn srcs s t

/-! ## Returns that work -/

namespace ReturnAbi

variable (fn : ReturnAbi)

/-- Return value `ri` of the vreg `v` is taken through `AX`. -/
def TakenInAx (ri : Nat) (v : Source) : Prop :=
  (∃ off, fn.returnSlot ri = some off ∧ v.isByte = true) ∨
    ∃ r, fn.returnSlot ri = none ∧ fn.functionReturnReg ri = some r ∧ r.isByte = true

/-- No two return values share a register or a slot. -/
structure PlacesApart (n : Nat) : Prop where
  regs : ∀ i < n, ∀ j < n, i ≠ j → ∀ r q, fn.functionReturnReg i = some r →
    fn.functionReturnReg j = some q → pregsAlias r q = false
  slots : ∀ i < n, ∀ j < n, i ≠ j → ∀ a b, fn.returnSlot i = some a →
    fn.returnSlot j = some b → 2 ≤ (BitVec.ofInt 16 a - BitVec.ofInt 16 b).toNat

end ReturnAbi

/-- All values stay in registers: none waits for itself through others, and each fits. -/
structure RegisterReturnsSound (fn : ReturnAbi) (srcs : List Source) : Prop where
  sound : ∀ ri v r, srcs[ri]? = some v → fn.functionReturnReg ri = some r →
    PlannedMove.Sound ⟨r, v⟩
  acyclic : ∀ us : List Numbered, us ≠ [] → us.Sublist (returnMoves fn srcs).zipIdx →
    ¬Stuck clobbersReturnSrc us
  base : ∀ m ∈ returnMoves fn srcs, m.dst = .bp → ∀ m' ∈ returnMoves fn srcs, m'.dst ≠ .bp →
    ∀ off, m'.src.home ≠ .slot off

/-- Some value is returned on the stack: all have a place, and `AX` and `BP` are not used after
they have got theirs. -/
structure StackReturnsSound (fn : ReturnAbi) (srcs : List Source) : Prop where
  placed : ∀ ri < srcs.length, fn.returnSlot ri ≠ none ∨ fn.functionReturnReg ri ≠ none
  reg : ∀ ri v r, srcs[ri]? = some v → fn.functionReturnReg ri = some r →
    r.isTarget = true ∧ (v.isByte = true → r.isByte = true)
  push : ∀ v ∈ srcs, v.Pushable
  ax : ∀ ri v rj r, srcs[ri]? = some v → ri < rj → rj < srcs.length → fn.TakenInAx ri v →
    fn.functionReturnReg rj = some r → pregsAlias .ax r = false
  bp : ∀ ri rj, ri < rj → rj < srcs.length → fn.returnSlot ri ≠ none →
    fn.functionReturnReg rj ≠ some .bp

structure ReturnsSound (fn : ReturnAbi) (srcs : List Source) : Prop where
  apart : fn.PlacesApart srcs.length
  registers : (∀ ri < srcs.length, fn.returnSlot ri = none) → RegisterReturnsSound fn srcs
  stack : (∃ ri < srcs.length, fn.returnSlot ri ≠ none) → StackReturnsSound fn srcs

end Nib.Bind
