import Nib.Bind.Shift
import Nib.Bind.Spec.Moves

/-!
# Variable shifts and the registers around them

* `ShiftDone` — the destination has the shifted value, the live registers and `SP` are kept
* `VarShift.Sound` — neither the value nor the count is lost on the way
-/

namespace Nib.Bind

open Nib.Infra

/-- The processor's shifts: the result and the flags, from the width, the value, the count and the
flags before. -/
structure ShiftEnv extends MoveEnv where
  shift : String → Bool → Word → Word → Word → Word × Word
  /-- Only rotates through the carry read the flags. -/
  flagless : ∀ op, op ≠ "rcl" → op ≠ "rcr" → ∀ byte w count f f',
    (shift op byte w count f).1 = (shift op byte w count f').1

def shiftStep (env : ShiftEnv) : ShiftInsn → Cpu → Option Cpu
  | .move m, s => moveStep env.toMoveEnv m s
  | .xchg r, s =>
    if r.isWord then some ((s.setReg .ax (s.reg r)).setReg r (s.reg .ax)) else none
  | .storeConst off c, s =>
    some { s with stack := write true s.stack (s.slotAddr off) (c.value env.places) }
  | .shift op r, s =>
    if r.isByte || r.isWord then
      let (w, f) := env.shift op r.isByte (s.read r) (s.read .cl) (s.reg .flags)
      some ((s.put r w).setReg .flags f)
    else none
  | .shiftSlot op word off, s =>
    let (w, f) := env.shift op (!word) (s.readSlot (!word) off) (s.read .cl) (s.reg .flags)
    some { s.setReg .flags f with stack := write (!word) s.stack (s.slotAddr off) w }
  | .bad, _ => none

def shiftRun (env : ShiftEnv) : List ShiftInsn → Cpu → Option Cpu
  | [], s => some s
  | i :: is, s => (shiftStep env i s).bind (shiftRun env is)

/-- The registers that the stack cache has put aside are back. -/
def Cpu.popAll (s : Cpu) : List Preg → Cpu
  | [] => s
  | r :: rs => ((s.drop 1).setReg r (s.peek 0)).popAll rs

/-- A vreg has a value in `t`. Slots are where they were in `s`. -/
def Source.Has (d : Source) (w : Word) (s t : Cpu) : Prop :=
  match d.home with
  | .reg r => t.read r = r.fit w
  | .slot off =>
    if d.isByte then t.stack (s.slotAddr off) = low w
    else readWord t.stack (s.slotAddr off) = w
  | .remat _ => False

/-- The address is none of the vreg's slot. -/
def Source.Outside (d : Source) (s : Cpu) (a : Word) : Prop :=
  ∀ off, d.home = .slot off → a ≠ s.slotAddr off ∧ (d.isByte = false → a ≠ s.slotAddr off + 1)

/-- A register that the destination does not overlap. -/
def Source.Spares (d : Source) (r : Preg) : Prop := ∀ q, d.home = .reg q → pregsAlias q r = false

namespace VarShift

variable (i : VarShift)

/-- The value that is shifted: of a word only the low byte, where the destination is a byte. -/
def value (pl : Addresses) (s : Cpu) : Word :=
  if i.dst.isByte then zeroExtend (low (i.src1.value pl s)) else i.src1.value pl s

/-- The result of the shift for the vregs as they are in `s`. -/
def result (env : ShiftEnv) (s : Cpu) : Word :=
  (env.shift i.op i.dst.isByte (i.value env.places s)
    (zeroExtend (low (i.src2.value env.places s))) (s.reg .flags)).1

/-- The shift is carried out, and nothing else is changed that is still needed. -/
structure ShiftDone (env : ShiftEnv) (s t : Cpu) : Prop where
  holds : i.dst.Has (i.result env (s.popAll i.cachePops)) (s.popAll i.cachePops) t
  kept : ∀ r ∈ i.liveAfter, r ≠ .flags → i.dst.Spares r → t.read r = s.read r
  sp : t.sp = s.sp

/-- So it is wherever the processor starts the routed shift. -/
def Routed : Prop :=
  ∀ (env : ShiftEnv) (s : Cpu),
    (s.popAll i.cachePops).HasRoom (i.cachePops.length + 3) [i.dst, i.src1, i.src2] →
    ∃ t, shiftRun env i.routeShift s = some t ∧ i.ShiftDone env s t

/-! ## Shifts that work -/

/-- A register for values of this width. -/
def Holder (r : Preg) (byte : Bool) : Prop :=
  r.isByte = byte ∧ (r.isByte = true ∨ r.isWord = true) ∧ r ≠ .sp

/-- The value gets to the destination whole. -/
def Arrives : Prop :=
  match i.dst.home, i.src1.home with
  | .reg q, .reg _ => PlannedMove.Sound ⟨q, i.src1⟩
  | .reg q, _ => i.src1.isByte = true → q.isByte = true ∨ q.widens = true
  | .slot _, .slot _ => i.dst.isByte = true ∨ i.src1.isByte = false
  | .slot _, .reg r => (r.isByte = true ∨ r.isWord = true) ∧ r ≠ .sp ∧
      if i.dst.isByte then r.isWord = true → r ≠ .bp
      else i.src1.isByte = false ∧ r.isWord = true
  | .slot _, .remat _ => i.dst.isByte = true
  | .remat _, _ => False

/-- The destination has room for the value, and the value gets there. -/
structure Typed : Prop where
  dst : match i.dst.home with
    | .reg r => Holder r i.dst.isByte
    | .slot _ => i.stackHome = true → i.dst.isByte = true
    | .remat _ => False
  same : i.dst.home = i.src1.home → i.dst.isByte = true ∨ i.src1.isByte = false
  arrives : i.dst.home ≠ i.src1.home → i.Arrives
  carry : i.op = "rcl" ∨ i.op = "rcr" → i.dst.isByte = true ∨ i.src1.isByteOperand = false

/-- What the stack cache pops is not needed before, and what it pushes takes its place. -/
structure CacheSound : Prop where
  balanced : i.cachePops.length = i.cachePushes.length
  pops : ∀ p ∈ i.cachePops, p.canPop = true ∧ p ≠ .sp ∧ ∀ r ∈ i.liveAfter, pregsAlias p r = false
  pushes : ∀ p ∈ i.cachePushes, p.canPush = true
  routed : i.src2.assigned ≠ some .cl → i.cachePops ≠ [] →
    i.isFree .cx = true ∧ i.dstIsCx = false ∧ ∀ p ∈ i.cachePops, pregsAlias p .cl = false ∧
      (∀ r, i.src2.home = .reg r → pregsAlias p r = false) ∧ (i.src2.isSpilled = true → p ≠ .bp)

/-- What each of the routes needs. -/
structure Sound : Prop extends i.Typed, i.CacheSound where
  inCl : i.src2.assigned = some .cl → i.dst.home = i.src1.home ∨ i.dst.Spares .cl
  count : i.src2.assigned ≠ some .cl → i.dstIsCx = false → PlannedMove.Sound ⟨.cl, i.src2⟩
  occupied : i.src2.assigned ≠ some .cl → i.dstIsCx = false →
    i.src1.assigned ≠ some .cx ∧ i.src1.assigned ≠ some .cl
  dstCx : i.src2.assigned ≠ some .cl → i.dstIsCx = true → i.src1.home = i.dst.home ∧
    ((∃ off, i.src2.home = .slot off) ∨ ∃ r, i.src2.home = .reg r ∧ r.isByte = true ∧
      pregsAlias (if i.dst.isByte then .al else .ax) r = false)

end VarShift

end Nib.Bind
