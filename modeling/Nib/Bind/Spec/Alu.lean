import Nib.Bind.Alu
import Nib.Bind.Spec.PortIo
import Nib.Bind.Spec.Extend

/-!
# Three-address arithmetic

* `Alu.Done` — the destination has the result for the operands as they were, and whatever is live
  is kept
* `Alu.Sound` — when it is so
-/

namespace Nib.Bind

open Nib.Infra

/-- The flags that the operations leave. -/
structure AluEnv extends ExtEnv where
  aluFlags : AluOp → Bool → Word → Word → Word → Word

/-- The carry is the first of the flags. -/
def carry (f : Word) : Word := f &&& 1

/-- The processor's operations. Of a byte only the low half counts. -/
def AluEnv.result (env : AluEnv) (byte : Bool) (a b f : Word) : AluOp → Word
  | .add => a + b
  | .adc => a + b + carry f
  | .sub => a - b
  | .sbb => a - b - carry f
  | .and => a &&& b
  | .or => a ||| b
  | .xor => a ^^^ b
  | .shift op => (env.shift op byte a b f).1

namespace AluSrc

/-- The operand of an instruction of this width. A count is a byte. -/
def value (pl : Addresses) (o : AluOp) (byte : Bool) (s : Cpu) : AluSrc → Word
  | .reg r => s.read r
  | .slot off => s.readSlot byte off
  | .const c => if o.isShiftOp then zeroExtend (low (c.value pl)) else c.value pl

/-- Is there an instruction for this operand and a register? -/
def besideReg (o : AluOp) (q : Preg) : AluSrc → Bool
  | .reg r => if o.isShiftOp then r == .cl else r.isByte == q.isByte && (r.isByte || r.isWord)
  | .slot _ => !o.isShiftOp
  | .const _ => true

/-- Is there one for this operand and memory? -/
def besideSlot (o : AluOp) : AluSrc → Bool
  | .reg r => if o.isShiftOp then r == .cl else r.isByte || r.isWord
  | .slot _ => false
  | .const _ => true

/-- The width of an operation in memory. -/
def byteSlot (o : AluOp) (word : Bool) : AluSrc → Bool
  | .reg r => if o.isShiftOp then !word else r.isByte
  | _ => !word

end AluSrc

def aluStep (env : AluEnv) : AluInsn → Cpu → Option Cpu
  | .base i, s => shiftStep env.toShiftEnv i s
  | .op o q src, s =>
    if (q.isByte || q.isWord) && src.besideReg o q then
      let a := s.read q
      let b := src.value env.places o q.isByte s
      some ((s.put q (env.result q.isByte a b (s.reg .flags) o)).setReg .flags
        (env.aluFlags o q.isByte a b (s.reg .flags)))
    else none
  | .opSlot o word off src, s =>
    if src.besideSlot o then
      let byte := src.byteSlot o word
      let a := s.readSlot byte off
      let b := src.value env.places o byte s
      some { s.setReg .flags (env.aluFlags o byte a b (s.reg .flags)) with
        stack := write byte s.stack (s.slotAddr off) (env.result byte a b (s.reg .flags) o) }
    else none

def aluRun (env : AluEnv) : List AluInsn → Cpu → Option Cpu
  | [], s => some s
  | i :: is, s => (aluStep env i s).bind (aluRun env is)

def Rhs.value (pl : Addresses) (s : Cpu) : Rhs → Word
  | .vreg v => v.value pl s
  | .imm k => BitVec.ofInt 16 k

namespace Alu

variable (i : Alu)

/-! ## The property -/

/-- What the operation makes of two values. For a byte the first is cut to a byte. -/
def resultOf (env : AluEnv) (s : Cpu) (a b : Word) : Word :=
  env.result i.dst.isByte (if i.dst.isByte then zeroExtend (low a) else a) b (s.reg .flags) i.op

def result (env : AluEnv) (s : Cpu) : Word :=
  i.resultOf env s (i.src1.value env.places s) (i.src2.value env.places s)

/-- **The result arrives**, and registers, bytes of the frame and `SP` that are needed are kept. -/
structure Done (env : AluEnv) (s t : Cpu) : Prop where
  holds : i.dst.Holds (i.result env s) s t
  kept : ∀ r ∈ i.liveAfter, r ≠ .flags → i.dst.Spares r → t.read r = s.read r
  bytes : ∀ off ∈ i.liveBytes, i.dst.Outside s (s.slotAddr off) →
    t.stack (s.slotAddr off) = s.stack (s.slotAddr off)
  sp : t.sp = s.sp

/-- The frame is clear of the words below the stack pointer. -/
def Room (s : Cpu) : Prop :=
  ∀ off, i.dst.home = .slot off ∨ i.src1.home = .slot off ∨
      (∃ v, i.src2 = .vreg v ∧ v.home = .slot off) ∨ off ∈ i.liveBytes →
    (s.slotAddr off - s.sp).toNat + 7 ≤ 65536

def Carried : Prop :=
  ∀ (env : AluEnv) (s : Cpu), i.Room s → ∃ t, aluRun env i.emit s = some t ∧ i.Done env s t

/-! ## The conditions -/

end Alu

/-- The operands can be exchanged. -/
def AluOp.commutes : AluOp → Bool
  | .add | .adc | .and | .or | .xor => true
  | _ => false

def AluOp.usesCarry : AluOp → Bool
  | .adc | .sbb => true
  | .shift op => op == "rcl" || op == "rcr"
  | _ => false

/-- What is read from registers, or through one, when the operation is carried out. -/
def Rhs.regs : Rhs → List Preg
  | .vreg v => .bp :: v.assigned.toList
  | .imm _ => [.bp]

def Rhs.bytes : Rhs → List Int
  | .vreg v =>
    match v.home with
    | .slot off => if v.isByte then [off] else [off, off + 1]
    | _ => []
  | .imm _ => []

namespace Alu

variable (i : Alu)

/-- The first operand on its way to the destination, with the second one live. -/
def mov : Extension where
  op := .mov
  dst := i.dst
  src := i.src1
  stored := i.stored
  liveAfter := i.liveAfter ++ i.src2.regs
  liveBytes := i.liveBytes ++ i.src2.bytes

/-- The accumulator can be used on the way. -/
def AccFree : Prop := ∀ r ∈ i.liveAfter, i.dst.Spares r → pregsAlias i.acc r = false

/-- The operand has the width of the instruction. -/
def Fits (v : Operand) : Prop :=
  (i.dst.isByte = true ∨ PortIo.WordOperand v) ∧
    match i.dst.home, v.home with
    | .reg q, .reg r => r.isByte = q.isByte ∧ (r.isByte = true ∨ r.isWord = true)
    | .slot _, .reg r => r.isByte = i.dst.isByte ∧ (r.isByte = true ∨ r.isWord = true)
    | .slot _, .remat _ => i.dst.isByte = true
    | _, _ => True

/-- A destination register for the operation. -/
def DstSound : Prop :=
  ∀ q, i.dst.home = .reg q → (q.isByte = true ∨ q.isWord = true) ∧
    (q.isByte = true → i.dst.isByte = true) ∧
    (i.op.isShiftOp = true → i.dst.isByte = true → q.isByte = true)

/-- The second operand `v` is in the destination, and the first one is applied to it. -/
structure ShortcutSound (v : Operand) : Prop where
  commutes : i.op.commutes = true
  word : i.dst.isByte = true ∨ PortIo.WordOperand v
  first : if i.src1.isSpilled = true then
      (i.dst.isByte = true ∨ i.src1.isByte = false) ∧ i.AccFree ∧ i.dst.Spares i.acc ∧
        ∀ q, i.dst.home = .reg q → q.isByte = i.dst.isByte
    else i.Fits i.src1

/-- The move to the destination leaves this vreg as it is. -/
structure Outlives (v : Operand) : Prop where
  reg : ∀ r, v.home = .reg r → i.dst.Spares r
  bp : ∀ off, v.home = .slot off → i.dst.Spares .bp
  bytes : ∀ k ∈ (Rhs.vreg v).bytes, ∀ off, i.dst.home = .slot off →
    BitVec.ofInt 16 k ≠ BitVec.ofInt 16 off ∧
      (i.dst.isByte = false → BitVec.ofInt 16 k ≠ BitVec.ofInt 16 (off + 1))

/-- The first operand is moved to the destination. -/
structure MovedSound : Prop where
  move : i.mov.MoveSound
  carry : i.op.usesCarry = true → i.src1.isByteOperand = true → i.dst.isByteOperand = true
  second : match i.src2 with
    | .imm k => (i.op.isShiftOp = true → 0 ≤ k ∧ k ≤ 255) ∧
        (∀ off, i.dst.home = .slot off → i.stackHome = true → i.dst.isByte = true)
    | .vreg v =>
      (i.dst.home ≠ i.src1.home → i.Outlives v) ∧
        if i.op.isShiftOp = true then
          v.home = .reg .cl ∧
            ∀ off, i.dst.home = .slot off → i.stackHome = true → i.dst.isByte = true
        else if i.dst.isSpilled = true ∧ v.isSpilled = true then
          i.AccFree ∧ (i.dst.isByte = true ∨ v.isByte = false)
        else i.Fits v

structure Sound : Prop where
  dst : i.DstSound
  shortcut : i.dstIsSrc2 = true → i.op.isShiftOp = false → ∀ v, i.src2 = .vreg v →
    i.ShortcutSound v
  moved : i.dstIsSrc2 = false ∨ i.op.isShiftOp = true → i.MovedSound

end Alu

end Nib.Bind
