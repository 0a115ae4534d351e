import Nib.Bind.Moves
import Nib.Bind.Spec.Interrupt
import Nib.Bind.Spec.Remat

/-!
# Moves that happen at once

* `moveRun` — a processor that runs the instructions of moves
* `MovesCarried` — every destination has what its source had before, and nothing else changes
* `MovesSound` — no move is of a kind that goes wrong
-/

namespace Nib.Bind

open Nib.Infra

/-! ## Registers and their halves -/

/-- What a register can hold of a word. -/
def Preg.fit (r : Preg) (w : Word) : Word := if r.isByte then zeroExtend (low w) else w

namespace Cpu

/-- The contents of a register. A byte counts as a word. -/
def read (s : Cpu) (r : Preg) : Word :=
  match r.aliasParent with
  | none => s.reg r
  | some p => zeroExtend (if p.aliasLo = some r then low (s.reg p) else high (s.reg p))

/-- Write a register. Of a byte register's word the other half stays. -/
def put (s : Cpu) (r : Preg) (w : Word) : Cpu :=
  match r.aliasParent with
  | none => s.setReg r w
  | some p => s.setReg p <|
      if p.aliasLo = some r then joinBytes (high (s.reg p)) (low w)
      else joinBytes (low w) (low (s.reg p))

/-- The address of `[BP+off]`. -/
def slotAddr (s : Cpu) (off : Int) : Word := s.reg .bp + BitVec.ofInt 16 off

def readSlot (s : Cpu) (byte : Bool) (off : Int) : Word :=
  if byte then zeroExtend (s.stack (s.slotAddr off)) else readWord s.stack (s.slotAddr off)

end Cpu

/-! ## Instructions -/

/-- Are there instructions that move from `src` to `dst`? -/
def Preg.canMov (dst src : Preg) : Bool :=
  (dst.isByte && src.isByte) || (dst.isWord && (src.isWord || src.isSegment)) ||
    (dst.isSegment && dst != .cs && src.isWord)

def Preg.canLoad (dst : Preg) : Bool :=
  dst.isByte || dst.isWord || (dst.isSegment && dst != .cs)

/-- The assembler takes the low byte of a constant for a byte register. -/
def Preg.canConst (dst : Preg) : Bool := dst.isWord || dst.isByte

/-- The labels, and the flags that arithmetic leaves. -/
structure MoveEnv where
  places : Addresses
  flags : MoveInsn → Cpu → Word

def moveStep (env : MoveEnv) : MoveInsn → Cpu → Option Cpu
  | .mov dst src, s => if dst.canMov src then some (s.put dst (s.read src)) else none
  | .movConst dst c, s => if dst.canConst then some (s.put dst (c.value env.places)) else none
  | .load dst off, s => if dst.canLoad then some (s.put dst (s.readSlot dst.isByte off)) else none
  | .store off src, s =>
    if src.isByte || src.isWord || src.isSegment then
      some { s with stack := write src.isByte s.stack (s.slotAddr off) (s.read src) }
    else none
  | .push r, s => if r.canPush then some (s.push [s.reg r]) else none
  | .pushSlot off, s => some (s.push [s.readSlot false off])
  | .pushConst c, s => some (s.push [c.value env.places])
  | .pop r, s => if r.canPop then some ((s.drop 1).setReg r (s.peek 0)) else none
  | .popSlot off, s =>
    some { s.drop 1 with stack := write false s.stack (s.slotAddr off) (s.peek 0) }
  | .movBpSp, s => some (s.setReg .bp s.sp)
  | .xchgAx, s => some { s.setReg .ax (s.readSlot false 2) with
      stack := write false s.stack (s.slotAddr 2) (s.reg .ax) }
  | i@.xorAx, s => some ((s.setReg .ax 0).setReg .flags (env.flags i s))
  | i@(.andByte r), s =>
    if r.isWord then some ((s.setReg r (s.reg r &&& 255)).setReg .flags (env.flags i s)) else none
  | i@(.shrByte r), s =>
    if r.isWord then some ((s.setReg r (s.reg r >>> 8)).setReg .flags (env.flags i s)) else none

def moveRun (env : MoveEnv) : List MoveInsn → Cpu → Option Cpu
  | [], s => some s
  | i :: is, s => (moveStep env i s).bind (moveRun env is)

/-! ## What the moves are for -/

/-- The value of a vreg, a byte as a word. -/
def Source.value (pl : Addresses) (v : Source) (s : Cpu) : Word :=
  match v.home with
  | .reg r => if v.isByte then zeroExtend (low (s.read r)) else s.read r
  | .slot off => s.readSlot v.isByte off
  | .remat c => if v.isByte then zeroExtend (low (c.value pl)) else c.value pl

/-- Pushes of `n` words and two more do not reach the slots of the sources. -/
def Cpu.HasRoom (s : Cpu) (n : Nat) (vs : List Source) : Prop :=
  2 * n + 6 ≤ 65536 ∧ ∀ v ∈ vs, ∀ off, v.home = .slot off →
    (s.slotAddr off - s.sp).toNat + 2 * n + 6 ≤ 65536

/-- Every destination has the value of its source, all other registers have kept theirs. -/
structure Moved (pl : Addresses) (moves : List PlannedMove) (s t : Cpu) : Prop where
  holds : ∀ m ∈ moves, t.read m.dst = m.dst.fit (m.src.value pl s)
  kept : ∀ r ≠ .flags, (∀ m ∈ moves, pregsAlias m.dst r = false) → t.read r = s.read r
  sp : t.sp = s.sp

/-- The moves happen as if at once, wherever the processor starts them. -/
def MovesCarried (moves : List PlannedMove) : Prop :=
  ∀ (env : MoveEnv) (s : Cpu), s.HasRoom moves.length (moves.map PlannedMove.src) →
    ∃ t, moveRun env (emitPlannedRegisterMoves moves) s = some t ∧ Moved env.places moves s t

def DisjointTargets (moves : List PlannedMove) : Prop :=
  moves.Pairwise fun m m' => pregsAlias m.dst m'.dst = false

/-! ## The moves that work -/

/-- A register that a move may end in. -/
def Preg.isTarget (r : Preg) : Bool :=
  r.isByte || (r.isWord && r != .sp) || r == .es || r == .ds

/-- Word registers without halves that a byte can be widened into. -/
def Preg.widens (r : Preg) : Bool := r == .si || r == .di || r == .bp

/-- The vreg is pushed as what it is. -/
def Source.Pushable (v : Source) : Prop :=
  match v.home with
  | .reg r => (r ≠ .sp ∧ r ≠ .flags) ∧ r.isByte = v.isByte
  | .slot _ => True
  | .remat _ => True

namespace PlannedMove

/-- A move by itself goes right. -/
def Sound (m : PlannedMove) : Prop :=
  m.dst.isTarget = true ∧
    match m.src.home with
    | .remat c => m.dst.isSegment = false ∧
        (m.src.isByte = true → m.dst.isByte = false → ∃ k, c = .imm k ∧ 0 ≤ k ∧ k ≤ 255)
    | .slot _ => m.src.isByte = true → m.dst.isByte = true ∨ m.dst.widens = true
    | .reg r => (r ≠ .sp ∧ r ≠ .flags) ∧
        if m.dst.isByte then
          r.isByte = true ∨ r.hasHalves = true ∨ (r.isWord = true ∧ m.isAxByte = false)
        else if m.src.isByte || r.isByte then m.dst.widens = true ∧ r.isByte = true
        else True

/-- So does its source when it is put aside. -/
def SoundAside (m : PlannedMove) : Prop :=
  m.isAxByte = false ∧ (m.src.isByte = true → m.dst.isByte = true) ∧
    ∀ r, m.src.home = .reg r → r.isByte = m.src.isByte

/-- A byte constant for `AX` to `BX` is planned as a write of the low half. -/
def SparesHigh (m m' : PlannedMove) : Prop :=
  m.src.isByte = true → (∃ c, m.src.home = .remat c) → ∀ hi, m.dst.aliasHi = some hi →
    m'.src.home ≠ .reg hi

end PlannedMove

/-- The first of the moves that wait for each other. -/
def Blocks (moves : List PlannedMove) (m : Numbered) : Prop :=
  ∃ us, us.Sublist moves.zipIdx ∧ Stuck clobbersPendingSrc us ∧ saveVictim us = some m

/-- Every move goes right by itself, and one that others wait for also from the stack. -/
structure MovesSound (moves : List PlannedMove) : Prop where
  sound : ∀ m ∈ moves, m.Sound
  high : ∀ m ∈ moves, ∀ m' ∈ moves, m.SparesHigh m'
  aside : ∀ m, Blocks moves m → m.1.SoundAside

end Nib.Bind
