import Nib.Bind.Interrupt

/-!
# The `ds()` policies

What functions do with `DS`: `main` computes which of them clobber it, and `emit_function` writes
its setup before the body and its restoration at every exit. Other registers, the frame and the
words that are not pushed for `DS` have no counterpart here.
-/

namespace Nib.Bind

/-! ## Functions -/

/-- An instruction of a body, by what it does with `DS`. It can define a vreg that is pinned to
`DS`, which is also how an argument is passed there, or be a block of assembly with its list of
clobbers. Indirect calls name a descriptor. -/
inductive DsInsn
  | uses
  | defines (value : BitVec 16)
  | asm (value : BitVec 16) (clobbers : List Preg)
  | call (name : String)
  | icall (descriptor : String)
  | ret
  | tailcall (name : String)
  | ntailcall (descriptor : String)
  deriving DecidableEq, Repr

namespace DsInsn

/-- What `validate_ds_none` rejects. Memory without an explicit segment is not told from other
memory. -/
def rejectedInNone : DsInsn → Bool
  | defines _ | asm _ _ => true
  | _ => false

/-- `IR_TAILCALL` and `IR_NTAILCALL`. -/
def isTail : DsInsn → Bool
  | tailcall _ | ntailcall _ => true
  | _ => false

end DsInsn

structure DsFn where
  name : String
  policy : DsPolicy := .unspec
  preserves : List Preg := []
  isBare : Bool := false
  body : List DsInsn := []
  deriving DecidableEq, Repr

structure DsExtern where
  name : String
  policy : DsPolicy := .unspec
  preserves : List Preg := []
  deriving DecidableEq, Repr

/-- The functions of all modules. `order` is the topological order, leaves first. -/
structure DsProgram where
  functions : List DsFn
  externs : List DsExtern := []
  order : List DsFn
  ordered : order.Perm functions
  named : (functions.map DsFn.name).Nodup
  /-- The compiler rejects a `bare` function with a policy that sets `DS`. -/
  bareSetup : ∀ f ∈ functions, f.isBare = true → f.policy.source? = none
  /-- `validate_ds_none`. -/
  noneBody : ∀ f ∈ functions, f.policy = .none → ∀ i ∈ f.body, i.rejectedInNone = false

/-! ## Clobbers -/

/-- An extern with a policy does not clobber `DS`. -/
def DsExtern.clobbers (e : DsExtern) : Bool :=
  !e.preserves.contains .ds && e.policy == .unspec

/-- The functions that are known to clobber `DS`, while the clobbers are computed. -/
abbrev ClobberTable : Type := List String

namespace DsProgram

variable (p : DsProgram)

def findFn (name : String) : Option DsFn := p.functions.find? fun f => f.name == name

def findExtern (name : String) : Option DsExtern := p.externs.find? fun e => e.name == name

/-- Whether an instruction clobbers `DS`. A called function does when it comes before in the order
and clobbers `DS` itself. Tail calls add nothing. -/
def insnClobbers (table : ClobberTable) : DsInsn → Bool
  | .defines _ => true
  | .asm _ clobbers => clobbers.contains .ds
  | .call name =>
    (match p.findFn name with
      | some f => table.contains f.name
      | none => false) ||
    (match p.findExtern name with
      | some e => e.clobbers
      | none => false)
  | .icall descriptor =>
    match p.findExtern descriptor with
    | some e => e.clobbers
    | none => false
  | _ => false

/-- A function with a policy does not clobber `DS`, whatever its body does. -/
def fnClobbers (table : ClobberTable) (f : DsFn) : Bool :=
  f.body.any (p.insnClobbers table) && f.policy == .unspec

def computeClobbers (table : ClobberTable) : List DsFn → ClobberTable
  | [] => table
  | f :: order => computeClobbers (if p.fnClobbers table f then f.name :: table else table) order

def clobbersDs (f : DsFn) : Bool := (p.computeClobbers [] p.order).contains f.name

/-! ## Entry and exit -/

/-- `DS` is among the registers of `collect_function_save_regs`. -/
def savesDs (f : DsFn) : Bool := f.preserves.contains .ds && p.clobbersDs f

def dsExplicitSave (f : DsFn) : Bool := f.policy.source?.isSome && !p.savesDs f

end DsProgram

/-- What is emitted for `DS`. The setup goes through `AX`, which it saves. -/
inductive DsOp
  | push
  | pop
  | set (src : DsSource)
  deriving DecidableEq, Repr

namespace DsProgram

variable (p : DsProgram)

/-- `emit_ds_setup`. -/
def dsSetup (f : DsFn) : List DsOp :=
  match f.policy.source? with
  | none => []
  | some src => (if p.dsExplicitSave f then [.push] else []) ++ [.set src]

def prologue (f : DsFn) : List DsOp :=
  if f.isBare then [] else (if p.savesDs f then [.push] else []) ++ p.dsSetup f

/-- What a tail call writes before its jump. It does not ask whether the function is `bare`. -/
def tailCleanup (f : DsFn) : List DsOp :=
  (if p.dsExplicitSave f then [.pop] else []) ++ (if p.savesDs f then [.pop] else [])

/-- `emit_epilogue`. A `bare` function returns by itself. -/
def epilogue (f : DsFn) : List DsOp :=
  if f.isBare then [] else
  (if p.dsExplicitSave f then [.pop] else []) ++ (if p.savesDs f then [.pop] else [])

end DsProgram

end Nib.Bind
