import Nib.Bind.Extend
import Nib.Bind.Spec.Shift

/-!
# Moves and extensions

* `Extension.Done` — the destination has the value, whatever is live is kept
* `Extension.Sound` — when it is so
-/

namespace Nib.Bind

open Nib.Infra

/-- The flags that `xor`, `and` and `shr` leave. -/
structure ExtEnv extends ShiftEnv where
  extFlags : ExtInsn → Cpu → Word

def signExtend (b : BitVec 8) : Word := b.signExtend 16

def extStep (env : ExtEnv) : ExtInsn → Cpu → Option Cpu
  | .base i, s => shiftStep env.toShiftEnv i s
  | i@(.xor r), s =>
    if r.isByte || r.isWord then some ((s.put r 0).setReg .flags (env.extFlags i s)) else none
  | i@(.andByte r), s =>
    if r.isByte || r.isWord then
      some ((s.put r (s.read r &&& 255)).setReg .flags (env.extFlags i s))
    else none
  | i@(.shrByte r), s =>
    if r.isByte || r.isWord then
      some ((s.put r (s.read r >>> 8)).setReg .flags (env.extFlags i s))
    else none
  | i@(.andSlot off), s =>
    some { s.setReg .flags (env.extFlags i s) with
      stack := write true s.stack (s.slotAddr off) (s.readSlot true off &&& 255) }
  | i@(.shrSlot off), s =>
    some { s.setReg .flags (env.extFlags i s) with
      stack := write true s.stack (s.slotAddr off) (s.readSlot true off >>> 8) }
  | .cbw, s => some (s.setReg .ax (signExtend (low (s.reg .ax))))

def extRun (env : ExtEnv) : List ExtInsn → Cpu → Option Cpu
  | [], s => some s
  | i :: is, s => (extStep env i s).bind (extRun env is)

/-! ## The property -/

/-- The value for the destination, from the value of the source. -/
def ExtOp.result (w : Word) : ExtOp → Word
  | .mov => w
  | .zext => zeroExtend (low w)
  | .cbw => signExtend (low w)

/-- The vreg has this value in `t`, a byte its low byte. Slots are where they were in `s`. -/
def Source.Holds (d : Source) (w : Word) (s t : Cpu) : Prop :=
  match d.home with
  | .reg r => if d.isByte then low (t.read r) = low w else t.read r = r.fit w
  | .slot _ => d.Has w s t
  | .remat _ => False

namespace Extension

variable (i : Extension)

/-- **The value arrives**, and registers, bytes of the frame and `SP` that are needed are kept. -/
structure Done (env : ExtEnv) (s t : Cpu) : Prop where
  holds : i.dst.Holds (i.op.result (i.src.value env.places s)) s t
  kept : ∀ r ∈ i.liveAfter, r ≠ .flags → i.dst.Spares r → t.read r = s.read r
  bytes : ∀ off ∈ i.liveBytes, i.dst.Outside s (s.slotAddr off) →
    t.stack (s.slotAddr off) = s.stack (s.slotAddr off)
  sp : t.sp = s.sp

/-- The frame is clear of the words below the stack pointer. -/
def Room (s : Cpu) : Prop :=
  ∀ off, i.dst.home = .slot off ∨ i.src.home = .slot off ∨ off ∈ i.liveBytes →
    (s.slotAddr off - s.sp).toNat + 6 ≤ 65536

/-- So it is wherever the processor starts the instructions. -/
def Carried : Prop :=
  ∀ (env : ExtEnv) (s : Cpu), i.Room s → ∃ t, extRun env i.emit s = some t ∧ i.Done env s t

end Extension

/-! ## The conditions -/

/-- The byte after the slot is not needed. -/
def NextFree (liveBytes : List Int) (off : Int) : Prop :=
  ∀ k ∈ liveBytes, BitVec.ofInt 16 k ≠ BitVec.ofInt 16 (off + 1)

namespace Extension

variable (i : Extension)

/-- The move from register to register. -/
def RegToReg (q r : Preg) : Prop :=
  if q.isByte then
    r.isByte = true ∨ r.hasHalves = true ∨
      (r.isWord = true ∧ q ≠ .ah ∧ (q = .al → .ah ∉ i.liveAfter))
  else if q.isSegment then q ≠ .cs ∧ (r.isSegment = true ∨ (r.isWord = true ∧ i.src.isByte = false))
  else if i.dst.isByte then r.isSegment = true
  else (r.isByte = true ∧ q.widens = true) ∨ (r.isByte = false ∧ i.src.isByte = false)

/-- The value gets from where it is to where it is wanted. -/
def MoveSound : Prop :=
  if i.dst.home = i.src.home then i.dst.isByteOperand = true ∨ i.src.isByte = false
  else
    match i.dst.home, i.src.home with
    | .remat _, _ => False
    | .slot _, .slot _ => i.dst.isByte = true ∨ i.src.isByte = false
    | .slot off, .reg r =>
      if i.dst.isByte then
        r.isByte = true ∨ (r.isWord = true ∧ r ≠ .bp) ∨
          (r.isSegment = true ∧ NextFree i.liveBytes off)
      else r.isByte = false ∧ i.src.isByte = false
    | .slot _, .remat _ => i.dst.isByte = true
    | .reg q, .slot _ =>
      q.isByte = true ∨ (q.isSegment = true ∧ q ≠ .cs) ∨
        (q.isWord = true ∧ (i.dst.isByte = true ∨ i.src.isByte = false ∨ q.widens = true))
    | .reg q, .remat _ =>
      q.isByte = true ∨ (q.isSegment = true ∧ q ≠ .cs ∧ i.src.isByte = true) ∨
        (q.isWord = true ∧ (i.dst.isByte = true ∨ i.src.isByte = false ∨ q.widens = true))
    | .reg q, .reg r => i.RegToReg q r

/-- The byte is not lost before it is widened, and the width of the instructions is right. -/
def ZextSound : Prop :=
  match i.dst.home, i.src.home with
  | .remat _, _ => False
  | .reg q, .reg r =>
    if q.hasHalves then r.isByte = true ∧ q.aliasHi ≠ some r else q.isWord = true
  | .reg q, .slot _ => q.isWord = true ∨ q.isByte = true
  | .reg q, .remat _ => q.isWord = true ∨ q.isByte = true
  | .slot off, .slot _ => i.dst.isByte = true → NextFree i.liveBytes off
  | .slot off, .reg r =>
    i.dst.isByte = true ∧ NextFree i.liveBytes off ∧
      ∀ p, r.aliasParent = some p → p.aliasLo = some r
  | .slot _, .remat _ => i.dst.isByte = true

/-- The word is wanted in `AX`, or `AH` is not needed. -/
def CbwSound : Prop :=
  if i.dst.home = .reg .ax then
    i.src.home = .reg .ax ∨
      match i.src.home with
      | .reg r => r.isSegment = true ∨
          (i.dst.isByte = false ∧ (r.isByte = true ∨ i.src.isByte = false))
      | _ => True
  else
    i.MoveSound ∧ i.dst.isByteOperand = true ∧ i.dst.home ≠ .reg .ah ∧
      ∀ r ∈ i.liveAfter, i.dst.Spares r → pregsAlias .ah r = false

def Sound : Prop :=
  match i.op with
  | .mov => i.MoveSound
  | .zext => i.ZextSound
  | .cbw => i.CbwSound

end Extension

end Nib.Bind
