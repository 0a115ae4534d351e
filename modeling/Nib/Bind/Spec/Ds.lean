import Nib.Bind.Ds
import Nib.Bind.Spec.Interrupt

/-!
# Policies in force

* `DsStep` — what running code does with `DS`: functions, code outside of the program, interrupts
* `KeepsPolicies` — `DS` is the segment of the policy, and every exit gives it back
* `Respects` — what code without a policy has to leave alone
-/

namespace Nib.Bind

/-! ## Runs -/

/-- Code that runs: a function, or what an extern stands for. -/
inductive DsCode
  | fn (f : DsFn)
  | outside (e : DsExtern)
  deriving DecidableEq, Repr

/-- Code that has been entered and has not been left, and `DS` when it was entered. -/
structure DsFrame where
  code : DsCode
  entry : BitVec 16
  deriving DecidableEq, Repr

/-- `DS`, the words on the stack that were pushed for it, and the code that is running, the
innermost first. -/
structure DsState where
  ds : BitVec 16
  words : List (BitVec 16) := []
  frames : List DsFrame := []
  deriving DecidableEq, Repr

/-- Emitted operations on `DS` and the words. Nothing is known about a word below those that were
pushed for `DS`. -/
def runDsOps (segs : String → BitVec 16) :
    List DsOp → BitVec 16 × List (BitVec 16) → Option (BitVec 16 × List (BitVec 16))
  | [], m => some m
  | .push :: ops, (ds, words) => runDsOps segs ops (ds, ds :: words)
  | .pop :: ops, (_, w :: words) => runDsOps segs ops (w, words)
  | .pop :: _, (_, []) => none
  | .set src :: ops, (_, words) => runDsOps segs ops (dsSourceValue segs src, words)

namespace DsProgram

section

variable (p : DsProgram) (segs : String → BitVec 16)

/-- Where a call or a tail call goes. -/
def Goes : DsInsn → DsCode → Prop
  | .call name, .fn f | .tailcall name, .fn f => p.findFn name = some f
  | .call name, .outside e | .tailcall name, .outside e =>
    p.findFn name = none ∧ p.findExtern name = some e
  | .icall _, .fn f | .ntailcall _, .fn f => f ∈ p.functions
  | .icall name, .outside e | .ntailcall name, .outside e => p.findExtern name = some e
  | _, _ => False

/-- What is emitted where code begins. -/
def entryOps : DsCode → List DsOp
  | .fn f => p.prologue f
  | .outside _ => []

def enter (c : DsCode) (s : DsState) : Option DsState :=
  (runDsOps segs (p.entryOps c) (s.ds, s.words)).map fun r =>
    { ds := r.1, words := r.2, frames := { code := c, entry := s.ds } :: s.frames }

/-- What is emitted for a return, or before the jump of a tail call. -/
def exitOps (tail : Bool) : DsCode → List DsOp
  | .fn f => if tail then p.tailCleanup f else p.epilogue f
  | .outside _ => []

def leave (tail : Bool) (fr : DsFrame) (rest : List DsFrame) (s : DsState) : Option DsState :=
  (runDsOps segs (p.exitOps tail fr.code) (s.ds, s.words)).map fun r =>
    { ds := r.1, words := r.2, frames := rest }

/-- What a step does. -/
inductive DsLabel
  | uses
  | changes (value : BitVec 16)
  | enters
  | leaves (tail : Bool)

/-- **One step.** An extern that does not clobber `DS` returns with the `DS` it was called with. -/
inductive DsStep : DsLabel → DsState → DsState → Prop
  | uses {s : DsState} {f : DsFn} {entry : BitVec 16} {rest : List DsFrame} :
    s.frames = ⟨.fn f, entry⟩ :: rest → .uses ∈ f.body → DsStep .uses s s
  | defines {s : DsState} {f : DsFn} {entry value : BitVec 16} {rest : List DsFrame} :
    s.frames = ⟨.fn f, entry⟩ :: rest → .defines value ∈ f.body →
    DsStep (.changes value) s { s with ds := value }
  | asm {s : DsState} {f : DsFn} {entry value : BitVec 16} {rest : List DsFrame}
    {clobbers : List Preg} :
    s.frames = ⟨.fn f, entry⟩ :: rest → .asm value clobbers ∈ f.body →
    DsStep (.changes value) s { s with ds := value }
  | outside {s : DsState} {value : BitVec 16} :
    (∀ fr ∈ s.frames.head?, ∃ e, fr.code = .outside e) →
    DsStep (.changes value) s { s with ds := value }
  | call {s s' : DsState} {f : DsFn} {entry : BitVec 16} {rest : List DsFrame} {i : DsInsn}
    {c : DsCode} :
    s.frames = ⟨.fn f, entry⟩ :: rest → i ∈ f.body → i.isTail = false → p.Goes i c →
    p.enter segs c s = some s' → DsStep .enters s s'
  | interrupt {s s' : DsState} {f : DsFn} :
    f ∈ p.functions → p.enter segs (.fn f) s = some s' → DsStep .enters s s'
  | ret {s s' : DsState} {f : DsFn} {entry : BitVec 16} {rest : List DsFrame} :
    s.frames = ⟨.fn f, entry⟩ :: rest → .ret ∈ f.body →
    p.leave segs false ⟨.fn f, entry⟩ rest s = some s' → DsStep (.leaves false) s s'
  | outsideRet {s s' : DsState} {e : DsExtern} {entry : BitVec 16} {rest : List DsFrame} :
    s.frames = ⟨.outside e, entry⟩ :: rest → (e.clobbers = false → s.ds = entry) →
    p.leave segs false ⟨.outside e, entry⟩ rest s = some s' → DsStep (.leaves false) s s'
  | tailcall {s t s' : DsState} {f : DsFn} {entry : BitVec 16} {rest : List DsFrame} {i : DsInsn}
    {c : DsCode} :
    s.frames = ⟨.fn f, entry⟩ :: rest → i ∈ f.body → i.isTail = true → p.Goes i c →
    p.leave segs true ⟨.fn f, entry⟩ rest s = some t → p.enter segs c t = some s' →
    DsStep (.leaves true) s s'

/-! ## The property -/

/-- `DS` is the segment that the running function declares. -/
def InForce (s : DsState) : Prop :=
  ∀ f entry rest, s.frames = ⟨.fn f, entry⟩ :: rest → ∀ src, f.policy.source? = some src →
    s.ds = dsSourceValue segs src

/-- Every exit of the running function gives back the `DS` it was entered with, when it has a
policy. -/
def GivesBack (s : DsState) : Prop :=
  ∀ f entry rest, s.frames = ⟨.fn f, entry⟩ :: rest → f.policy ≠ .unspec → ∀ tail,
    ∃ t, p.leave segs tail ⟨.fn f, entry⟩ rest s = some t ∧ t.ds = entry

structure KeepsPolicies (s : DsState) : Prop where
  inForce : InForce segs s
  givesBack : p.GivesBack segs s

/-! ## The condition -/

/-- Functions that the caller's `DS`, or a segment of their own, has been promised to. -/
def hasPolicy : DsCode → Bool
  | .fn f => f.policy != .unspec
  | .outside _ => false

/-- Code that has saved `DS` on the stack. -/
def pushes : DsCode → Bool
  | .fn f => !f.isBare && (p.savesDs f || p.dsExplicitSave f)
  | .outside _ => false

/-- What a step has to respect in the state before it. A function with a policy does not change
`DS`. Code without a policy that has not saved `DS` leaves it as it was when it returns, or makes a
tail call, and its caller has a policy. A `bare` function, which saves nothing, does not restore
`DS` before a tail call. -/
def Respects : DsLabel → DsState → Prop
  | .changes value, s => value ≠ s.ds → ∀ fr ∈ s.frames.head?, hasPolicy fr.code = false
  | .leaves tail, s => ∀ fr rest, s.frames = fr :: rest →
    (hasPolicy fr.code = false → p.pushes fr.code = false → s.ds ≠ fr.entry →
      ∀ caller ∈ rest.head?, hasPolicy caller.code = false) ∧
    (tail = true → ∀ f, fr.code = .fn f → f.isBare = true → p.savesDs f = false)
  | _, _ => True

/-- Any number of steps that are all allowed. -/
inductive DsRun (allowed : DsLabel → DsState → Prop) : DsState → DsState → Prop
  | start (ds : BitVec 16) : DsRun allowed { ds } { ds }
  | step {s₀ s s' : DsState} {l : DsLabel} :
    DsRun allowed s₀ s → p.DsStep segs l s s' → allowed l s → DsRun allowed s₀ s'

end

end DsProgram

end Nib.Bind
