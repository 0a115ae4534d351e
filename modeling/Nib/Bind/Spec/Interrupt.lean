import Nib.Bind.Interrupt
import Nib.Infra.Stack
import Mathlib.Logic.Function.Basic

/-!
# Transparent interrupt handlers

A processor that runs the interrupt wrapper, and what an interrupted program may rely on. The body
of a handler is any function from the state it starts in to the states it goes through.

* `Restored` — what `iret` gives back
* `Transparent` — the handler returns, gives everything back, and keeps its `ds()` policy
* `BodyKeeps` — the registers that the wrapper does not save are left alone by the body
-/

namespace Nib.Bind

open Nib.Infra

/-! ## The processor -/

/-- Word and segment registers, flags, and the memory of the stack segment. -/
structure Cpu where
  reg : Preg → BitVec 16
  ip : BitVec 16
  stack : Memory

namespace Cpu

def sp (s : Cpu) : BitVec 16 := s.reg .sp

def setReg (s : Cpu) (r : Preg) (w : BitVec 16) : Cpu :=
  { s with reg := Function.update s.reg r w }

def push (s : Cpu) (ws : List (BitVec 16)) : Cpu :=
  let (stack, sp) := pushWords s.stack s.sp ws
  { s.setReg .sp sp with stack }

/-- The word `n` words above the stack pointer. -/
def peek (s : Cpu) (n : Nat) : BitVec 16 := readWord s.stack (s.sp + BitVec.ofNat 16 (2 * n))

def drop (s : Cpu) (n : Nat) : Cpu := s.setReg .sp (s.sp + BitVec.ofNat 16 (2 * n))

end Cpu

/-- `push` takes word and segment registers. What `push SP` stores depends on the processor. -/
def Preg.canPush : Preg → Bool
  | .ax | .cx | .dx | .bx | .bp | .si | .di | .es | .cs | .ss | .ds => true
  | _ => false

/-- There is no `pop CS`. -/
def Preg.canPop (r : Preg) : Bool := r.canPush && r != .cs

/-- The registers that `pusha` stores, in this order. -/
def pushaRegs : List Preg := [.ax, .cx, .dx, .bx, .sp, .bp, .si, .di]

def dsSourceValue (segs : String → BitVec 16) : DsSource → BitVec 16
  | .segOf symbol => segs symbol
  | .literal value => BitVec.ofInt 16 value

/-- One instruction. `segs` are the segments the assembler gives to symbols. -/
def wrapStep (segs : String → BitVec 16) : WrapInsn → Cpu → Option Cpu
  | .push r, s => if r.canPush then some (s.push [s.reg r]) else none
  | .pop r, s => if r.canPop then some ((s.drop 1).setReg r (s.peek 0)) else none
  | .pushf, s => some (s.push [s.reg .flags])
  | .popf, s => some ((s.drop 1).setReg .flags (s.peek 0))
  | .pusha, s => some (s.push (pushaRegs.map s.reg))
  | .popa, s => some <|
      ((((((((s.drop 8).setReg .di (s.peek 0)).setReg .si (s.peek 1)).setReg .bp (s.peek 2)).setReg
        .bx (s.peek 4)).setReg .dx (s.peek 5)).setReg .cx (s.peek 6)).setReg .ax (s.peek 7))
  | .movBpSp, s => some (s.setReg .bp s.sp)
  | .movSpBp, s => some (s.setReg .sp (s.reg .bp))
  | .subSp n, s => some (s.setReg .sp (s.sp - BitVec.ofNat 16 n))
  | .movAx src, s => some (s.setReg .ax (dsSourceValue segs src))
  | .movDsAx, s => some (s.setReg .ds (s.reg .ax))
  | .iret, s => some { ((s.drop 3).setReg .cs (s.peek 1)).setReg .flags (s.peek 2) with
      ip := s.peek 0 }

def wrapRun (segs : String → BitVec 16) : List WrapInsn → Cpu → Option Cpu
  | [], s => some s
  | i :: is, s => (wrapStep segs i s).bind (wrapRun segs is)

/-! ## Bodies -/

/-- The states that the body of a handler goes through after the one it starts in. -/
abbrev Body : Type := Cpu → List Cpu

/-- The state in which the body returns. -/
def Body.finish (body : Body) (s : Cpu) : Cpu := (body s).getLastD s

namespace Handler

variable (segs : String → BitVec 16) (h : Handler)

/-- The state in which the body starts. -/
def start (s : Cpu) : Option Cpu := wrapRun segs h.emitPrologue s

/-! ## Transparency -/

/-- General registers and the segment registers a handler could change. -/
def keptRegs : List Preg := [.ax, .cx, .dx, .bx, .bp, .si, .di, .ds, .es]

/-- The interrupted program goes on as it was: the registers, the stack pointer above the words
that the interrupt has pushed, and these words in `IP`, `CS` and the flags. -/
structure Restored (s t : Cpu) : Prop where
  regs : ∀ r ∈ keptRegs, t.reg r = s.reg r
  sp : t.sp = s.sp + 6
  ip : t.ip = s.peek 0
  cs : t.reg .cs = s.peek 1
  flags : t.reg .flags = s.peek 2

/-- `DS` in all states of the body is the segment of the policy. -/
def InForce (body : Body) (s₁ : Cpu) : Prop :=
  ∀ src, h.dsPolicy.source? = some src → ∀ c ∈ s₁ :: body s₁, c.reg .ds = dsSourceValue segs src

/-- The handler runs from its entry to `iret`, restores everything, and its policy is in force. -/
def Transparent (body : Body) (s : Cpu) : Prop :=
  ∃ s₁ t, h.start segs s = some s₁ ∧ wrapRun segs h.emitEpilogue (body.finish s₁) = some t ∧
    Restored s t ∧ h.InForce segs body s₁

/-! ## What the body has to respect -/

/-- The words that lie under the frame: what the wrapper has saved and the words of the
interrupt. -/
def wrapperWords : Nat :=
  (if saveSetUsesPusha h.isrSave then 8 else h.isrSave.length) + 3

/-- The words that lie on top of the frame. -/
def savedWords : Nat := h.saveRegs.length + (if h.dsExplicitSave then 1 else 0)

/-- The stack segment is large enough for what is pushed. -/
def Fits : Prop :=
  h.frameSize + 2 * (h.wrapperWords + 1) + 2 * (h.savedWords + 1) ≤ 65536

/-- `n` words from an address are the same in two states. -/
def SameWords (a : BitVec 16) (n : Nat) (s t : Cpu) : Prop :=
  ∀ i < 2 * n, t.stack (a + BitVec.ofNat 16 i) = s.stack (a + BitVec.ofNat 16 i)

/-- The body returns with the stack pointer and the frame it was given, and the words that have
been pushed are still there. -/
structure KeepsStack (s₁ t₁ : Cpu) : Prop where
  sp : t₁.sp = s₁.sp
  saved : SameWords s₁.sp h.savedWords s₁ t₁
  bp : h.needsFrame = true → t₁.reg .bp = s₁.reg .bp
  frame : h.needsFrame = true → SameWords (s₁.reg .bp) (h.wrapperWords + 1) s₁ t₁
  noFrame : h.needsFrame = false → SameWords s₁.sp (h.savedWords + h.wrapperWords) s₁ t₁

/-- The registers that the wrapper restores. -/
def saves (r : Preg) : Bool :=
  (if saveSetUsesPusha h.isrSave then coveredByPusha r else h.isrSave.contains r) ||
    (h.needsFrame && r == .bp) || h.saveRegs.contains r || (h.dsExplicitSave && r == .ds)

/-- What is listed to be saved can be, the body leaves the registers that are not saved, and it does
not change `DS` under a policy that sets it. -/
structure BodyKeeps (body : Body) (s : Cpu) : Prop where
  poppable : ∀ r ∈ h.saveRegs, r.canPop = true ∨ r = .flags
  unsaved : ∀ s₁, h.start segs s = some s₁ → ∀ r ∈ keptRegs, h.saves r = false →
    (body.finish s₁).reg r = s₁.reg r
  ds : ∀ s₁, h.start segs s = some s₁ → h.dsPolicy.source?.isSome = true → ∀ c ∈ body s₁,
    c.reg .ds = s₁.reg .ds

end Handler

end Nib.Bind
