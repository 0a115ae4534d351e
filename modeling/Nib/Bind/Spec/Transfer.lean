import Nib.Bind.Transfer
import Nib.Bind.Spec.Live

/-!
# Where calls and jumps lead

* `Form.Reaches` — the processor comes to the place of the target
* `TransfersAgree` — every transfer reaches its target, and what a call pushes is what the
  function in which the call ends pops
* `TransfersFit` — the same, by what is declared of caller and target
-/

namespace Nib.Bind

open TransferProgram

/-! ## The processor -/

def Place.linear (p : Place) : Int := 16 * p.segment + p.offset

/-- Segment and offset after a jump or call at `ip` in the segment `cs`, to a label at `t`. A label
is its linear address in the text, and 16 bits of it in the code. -/
def Form.land (cs ip : Int) (t : Place) : Form → Int × Int
  | .near =>
    let disp := (t.linear - (16 * cs + ip + 3)) % 65536
    (cs, (ip + 3 + disp) % 65536)
  | .far => (t.segment, t.linear % 65536)
  | .farAt seg off => (seg % 65536, off % 65536)

/-- From wherever it stands in the segment, it leads to the target. -/
def Form.Reaches (form : Form) (cs : Int) (t : Place) : Prop :=
  ∀ ip, form.land cs ip t = (t.segment, t.offset)

/-! ## Targets and returns -/

inductive Target
  | fn (f : TransferFn)
  | ext (e : TransferExt)

namespace Target

def place : Target → Place
  | fn f => f.place
  | ext e => e.place

def pops : Target → Shape
  | fn f => f.pops
  | ext e => e.pops

end Target

namespace Func

/-- Control comes to a return, or past the last instruction. -/
def CanReturn (fn : Func) : Prop :=
  fn.insns = [] ∨ ∃ i ins, fn.Reachable i ∧ fn.insns[i]? = some ins ∧
    (ins.op = .ret ∨
      (i + 1 = fn.insns.length ∧ ins.op ≠ .jmp ∧ ins.op ≠ .tailcall ∧ ins.op ≠ .ntailcall ∧
        ins.op ≠ .gotoFn))

/-- Control comes to a tail call of `name` or a jump to it. -/
def LeavesTo (fn : Func) (name : Text) : Prop :=
  ∃ i ins, fn.Reachable i ∧ fn.insns[i]? = some ins ∧ (ins.op = .tailcall ∨ ins.op = .gotoFn) ∧
    ins.name.toList = name

end Func

namespace TransferProgram

variable (p : TransferProgram)

/-- What a name stands for. -/
def target (name : Text) : Option Target :=
  match p.findFn name with
  | some f => some (.fn f)
  | none => (p.findExtern name).map .ext

/-- A call of `name` returns from `t`, at the end of a chain of tail calls and jumps. A bare
function returns as its own text says. -/
inductive EndsIn : Text → Target → Prop
  | ret {name : Text} {f : TransferFn} : p.target name = some (.fn f) → f.isBare = false →
      f.func.CanReturn → EndsIn name (.fn f)
  | ext {name : Text} {e : TransferExt} : p.target name = some (.ext e) → EndsIn name (.ext e)
  | leave {name next : Text} {f : TransferFn} {t : Target} : p.target name = some (.fn f) →
      f.func.LeavesTo next → EndsIn next t → EndsIn name t

/-! ## The property -/

/-- Near and far agree. -/
structure TransfersAgree : Prop where
  reach : ∀ c ∈ p.functions, ∀ ins ∈ c.func.insns, ∀ t, p.target ins.name.toList = some t →
    ∀ form, (p.transferForms c ins).head? = some form → form.Reaches c.place.segment t.place
  shape : ∀ c ∈ p.functions, ∀ ins ∈ c.func.insns, ins.op = .call ∨ ins.op = .mcall →
    ∀ t, p.EndsIn ins.name.toList t → t.pops = (p.callForm ins.name.toList).pushes

/-! ## The condition -/

/-- The address of an extern. -/
def externAddress (name : Text) : Option (Int × Int) :=
  (p.findExtern name).bind TransferExt.address

def farExtern (name : Text) : Bool := (p.findExtern name).any TransferExt.isFar

/-- A near transfer stays in the segment of `c`; the segment of a far one starts at a multiple of
64 KiB. -/
def Fits (c : TransferFn) (t : Target) (isFar : Bool) : Prop :=
  if isFar then t.place.segment % 4096 = 0 else t.place.segment = c.place.segment

/-- A transfer to an address, else to a label. -/
def FitsAt (c : TransferFn) (t : Target) (address : Option (Int × Int)) (isFar : Bool) : Prop :=
  match address with
  | some a => t.place.At a
  | none => Fits c t isFar

/-- A call of a far function, or of an extern with an address, pushes a far return address. -/
def calledFar (name : Text) : Bool := (p.externAddress name).isSome || p.farFn name

/-- What is declared of caller and target fits the transfer. -/
def InsnFits (c : TransferFn) (ins : Insn) (t : Target) : Prop :=
  let name := ins.name.toList
  match ins.op with
  | .call | .mcall => FitsAt c t (p.externAddress name) (p.farFn name)
  | .tailcall =>
    FitsAt c t (if p.farFn name then none else p.externAddress name)
      (p.farFn name || p.farExtern name)
  | .gotoFn =>
    match t with
    | .fn f => f.atPlace.isSome = true ∨ Fits c t (f.isFar || crossesSegments c f)
    | .ext e => e.address.isSome = true ∨ Fits c t e.isFar
  | _ => True

structure TransfersFit : Prop where
  reach : ∀ c ∈ p.functions, ∀ ins ∈ c.func.insns, ∀ t, p.target ins.name.toList = some t →
    p.InsnFits c ins t
  shape : ∀ c ∈ p.functions, ∀ ins ∈ c.func.insns, ins.op = .call ∨ ins.op = .mcall →
    ∀ t, p.EndsIn ins.name.toList t →
      t.pops = if p.calledFar ins.name.toList then .far else .near

end TransferProgram

end Nib.Bind
