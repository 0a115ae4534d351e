import Nib.Bind.FlagInsns
import Nib.Bind.Spec.Flow
import Mathlib.Logic.Function.Basic

/-!
# Flags along a run

* `Func.Reached` — the states of the emitted code, instruction by instruction of the IR
* `Func.FlagHolds` — the next instruction leaves the flag as it is assigned
* `Func.FlagSettled` — when it does
-/

namespace Nib.Bind

/-- What a run of the emitted code has to do with flags. Vregs have their values, flags go by their
names. -/
structure FlagState where
  pc : Nat
  vreg : Nat → Int
  flags : String → Bool

def FlagInsn.run (flags : String → Bool) : FlagInsn → String → Bool
  | .stc => Function.update flags "CF" true
  | .clc => Function.update flags "CF" false
  | .std => Function.update flags "DF" true
  | .cld => Function.update flags "DF" false
  | .sti => Function.update flags "IF" true
  | .cli => Function.update flags "IF" false
  | .cmc => Function.update flags "CF" !flags "CF"

def runFlag (flags : String → Bool) (printed : Option FlagInsn) : String → Bool :=
  printed.elim flags (FlagInsn.run flags)

/-- What an assignment gives its flag. -/
def Insn.flagValue (ins : Insn) (s : FlagState) : Bool :=
  match ins.imm with
  | some n => n != 0
  | none => ins.src1.any fun v => s.vreg v != 0

namespace Func

variable (fn : Func) (isByte : Nat → Bool)

/-- A constant in a vreg. -/
def constIn (v : Nat) (n : Int) : Int := n % (if isByte v then 256 else 65536)

/-- The code of an instruction. A flag is changed by any instruction for which something else is
printed. -/
structure Acts (i : Nat) (ins : Insn) (s t : FlagState) : Prop where
  frame : ∀ v ∉ ins.defs, t.vreg v = s.vreg v
  const : ins.op = .mov → ∀ d n, ins.dst = some d → ins.imm = some n →
    t.vreg d = constIn isByte d n
  get : ins.op = .getflag → t.flags = s.flags ∧
    ∀ d, ins.dst = some d → t.vreg d = if s.flags ins.name then 1 else 0
  negation : fn.lnotGetflagConsumed i ins = true → t.flags = s.flags ∧
    ∀ d v, ins.dst = some d → ins.src1 = some v → t.vreg d = if s.vreg v = 0 then 1 else 0
  set : ins.op = .setflag → t.flags = runFlag s.flags (fn.emitSetflag i ins)
  toggle : ins.op = .toggleflag → t.flags = runFlag s.flags (emitToggleflag ins)

/-- The states of a run from the first instruction. -/
inductive Reached (bare : Bool) (asmTo : Nat → Nat → Prop) : FlagState → Prop
  | start (s : FlagState) (h : s.pc = 0) : Reached bare asmTo s
  | step (s t : FlagState) (ins : Insn) (h : Reached bare asmTo s)
      (hins : fn.insns[s.pc]? = some ins) (hacts : fn.Acts isByte s.pc ins s t)
      (hleads : fn.Leads bare asmTo s.pc t.pc) : Reached bare asmTo t

/-- **The flag is what it is assigned**, and no other one changes. -/
def FlagHolds (s : FlagState) : Prop :=
  ∀ ins t, fn.insns[s.pc]? = some ins → fn.Acts isByte s.pc ins s t →
    (ins.op = .setflag → t.flags = Function.update s.flags ins.name (ins.flagValue s)) ∧
    (ins.op = .toggleflag → t.flags = Function.update s.flags ins.name !s.flags ins.name)

/-! ## Settled flags -/

def IsLabel (i : Nat) : Prop := ∃ ins, fn.insns[i]? = some ins ∧ ins.op = .label

/-- Inline assembly goes on behind itself, or at a label. -/
def AsmStays (asmTo : Nat → Nat → Prop) : Prop := ∀ i j, asmTo i j → j = i + 1 ∨ fn.IsLabel j

/-- There is an instruction for the flag. -/
def HasInsn (flag : String) : Prop := flag = "CF" ∨ flag = "DF" ∨ flag = "IF"

/-- The vreg has a constant: the definition before, with no label and no jump in between, is a move
of it. -/
def ConstBefore (i v : Nat) : Prop :=
  ∃ j d n, fn.findVregDef (some v) i = some j ∧ fn.insns[j]? = some d ∧ d.op = .mov ∧
    d.imm = some n ∧ (constIn isByte v n = 0 → n = 0) ∧
    ∀ k c, j < k → k < i → fn.insns[k]? = some c → v ∉ c.defs

/-- The vreg has the flag itself, which has just been read. -/
def FlagBefore (flag : String) (i v : Nat) : Prop :=
  ∃ j d, i = j + 1 ∧ fn.insns[j]? = some d ∧ d.op = .getflag ∧ d.name = flag ∧ d.dst = some v

/-- The vreg has the negation of a flag that has just been read. -/
def NegationBefore (flag : String) (i v : Nat) : Prop :=
  ∃ j g d w, i = j + 2 ∧ fn.insns[j]? = some g ∧ g.op = .getflag ∧ g.name = flag ∧ g.dst = some w ∧
    fn.insns[j + 1]? = some d ∧ d.isNegation = true ∧ d.src1 = some w ∧ d.dst = some v ∧ v ≠ w

/-- **The assignment to a flag is settled**: `CF`, `DF` or `IF` is given a constant that a
definition in the same piece of straight code shows, or a flag is given itself, or `CF` its
negation. A flag that is toggled is `CF`. -/
def FlagSettled (i : Nat) : Prop :=
  ∀ ins, fn.insns[i]? = some ins →
    (ins.op = .setflag →
      HasInsn ins.name ∧ ins.imm.isSome = true ∧ ins.src1 = none ∨
      ∃ v, ins.imm = none ∧ ins.src1 = some v ∧
        (HasInsn ins.name ∧ fn.ConstBefore isByte i v ∨ fn.FlagBefore ins.name i v ∨
          ins.name = "CF" ∧ fn.NegationBefore "CF" i v)) ∧
    (ins.op = .toggleflag → ins.name = "CF")

end Func

end Nib.Bind
