import Nib.Bind.PortIo
import Nib.Bind.Spec.Shift

/-!
# Port input and output

* `PortIo.InDone`, `PortIo.OutDone` — one access, at the port and with the data, and whatever is
  live is kept
* `PortIo.InSound`, `PortIo.OutSound` — when it is so
-/

namespace Nib.Bind

open Nib.Infra

/-- An access as the device sees it. The data of a byte access are a byte. -/
structure PortAccess where
  out : Bool
  byte : Bool
  port : Word
  data : Word
  deriving DecidableEq, Repr

/-- The processor and the accesses so far. -/
structure PortCpu where
  cpu : Cpu
  log : List PortAccess := []

/-- What the devices answer. -/
structure PortEnv extends ShiftEnv where
  input : List PortAccess → Bool → Word → Word

def accOf (byte : Bool) : Preg := if byte then .al else .ax

def PortCpu.input (env : PortEnv) (byte : Bool) (port : Word) (s : PortCpu) : PortCpu :=
  let w := (accOf byte).fit (env.input s.log byte port)
  ⟨s.cpu.put (accOf byte) w, s.log ++ [⟨false, byte, port, w⟩]⟩

def PortCpu.output (byte : Bool) (port : Word) (s : PortCpu) : PortCpu :=
  { s with log := s.log ++ [⟨true, byte, port, s.cpu.read (accOf byte)⟩] }

/-- A constant port is one byte of the instruction. -/
def immPort (k : Int) : Word := zeroExtend (low (BitVec.ofInt 16 k))

def portStep (env : PortEnv) : PortInsn → PortCpu → Option PortCpu
  | .base i, s => (shiftStep env.toShiftEnv i s.cpu).map fun u => { s with cpu := u }
  | .inImm byte k, s => some (s.input env byte (immPort k))
  | .inDx byte, s => some (s.input env byte (s.cpu.reg .dx))
  | .outImm byte k, s => some (s.output byte (immPort k))
  | .outDx byte, s => some (s.output byte (s.cpu.reg .dx))

def portRun (env : PortEnv) : List PortInsn → PortCpu → Option PortCpu
  | [], s => some s
  | i :: is, s => (portStep env i s).bind (portRun env is)

namespace PortIo

variable (i : PortIo)

/-! ## The property -/

def portValue (pl : Addresses) (s : Cpu) : Word :=
  match i.port with
  | .imm k => BitVec.ofInt 16 k
  | .vreg v => v.value pl s

/-- All but the destination is as it was. -/
structure Kept (s t : Cpu) : Prop where
  regs : ∀ r ∈ i.liveAfter, r ≠ .flags → i.data.Spares r → t.read r = s.read r
  bytes : ∀ a, (a - s.sp).toNat + 8 ≤ 65536 → i.data.Outside s a → t.stack a = s.stack a
  sp : t.sp = s.sp

/-- **One input**: the destination has what the port gives. -/
def InDone (env : PortEnv) (s t : PortCpu) : Prop :=
  ∃ w, w = (accOf i.byte).fit (env.input s.log i.byte (i.portValue env.places s.cpu)) ∧
    t.log = s.log ++ [⟨false, i.byte, i.portValue env.places s.cpu, w⟩] ∧
    i.data.Has w s.cpu t.cpu ∧ i.Kept s.cpu t.cpu

/-- **One output** of the value. No register is changed that is live. -/
def OutDone (env : PortEnv) (s t : PortCpu) : Prop :=
  t.log = s.log ++ [⟨true, i.byte, i.portValue env.places s.cpu,
      (accOf i.byte).fit (i.data.value env.places s.cpu)⟩] ∧
    (∀ r ∈ i.liveAfter, r ≠ .flags → t.cpu.read r = s.cpu.read r) ∧
    (∀ a, (a - s.cpu.sp).toNat + 8 ≤ 65536 → t.cpu.stack a = s.cpu.stack a) ∧ t.cpu.sp = s.cpu.sp

/-- The slots are clear of the words below the stack pointer. -/
def Room (s : Cpu) : Prop :=
  ∀ off, i.data.home = .slot off ∨ (∃ v, i.port = .vreg v ∧ v.home = .slot off) →
    (s.slotAddr off - s.sp).toNat + 8 ≤ 65536

def InCarried : Prop :=
  ∀ (env : PortEnv) (s : PortCpu), i.Room s.cpu →
    ∃ t, portRun env i.emitIn s = some t ∧ i.InDone env s t

def OutCarried : Prop :=
  ∀ (env : PortEnv) (s : PortCpu), i.Room s.cpu →
    ∃ t, portRun env i.emitOut s = some t ∧ i.OutDone env s t

/-! ## The conditions -/

/-- A word operand, or a constant that is the same as a byte. -/
def WordOperand (v : Operand) : Prop :=
  match v.home with
  | .reg r => v.isByte = false ∧ r.isByte = false
  | .slot _ => v.isByte = false
  | .remat c => v.isByte = true → ∃ k, c = .imm k ∧ k % 65536 ≤ 255

/-- A constant port is a byte for the processor, a port in a vreg is a word. -/
def PortSound : Prop :=
  match i.port with
  | .imm k => k % 65536 ≤ 255
  | .vreg v => WordOperand v

/-- The destination has the width of the access. While the port is brought to `DX`, the half of
`DX` that the destination leaves is not needed. -/
structure InSound : Prop where
  port : i.PortSound
  width : match i.data.home with
    | .reg q => q.isByte = i.byte ∧ q ≠ .cs
    | .slot _ => i.data.isByte = i.byte
    | .remat _ => False
  halves : i.portElsewhere = true → i.dstDxAlias = true →
    ∀ r ∈ i.liveAfter, i.data.Spares r → pregsAlias .dx r = false

/-- The value has the width of the access. -/
structure OutSound : Prop where
  port : i.PortSound
  width : if i.byte = true then ∀ r, i.data.home = .reg r → r.isByte = true
    else WordOperand i.data

end PortIo

end Nib.Bind
