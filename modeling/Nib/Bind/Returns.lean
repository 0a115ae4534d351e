import Nib.Bind.Moves
import Nib.Bind.Params

/-!
# Materialisation of return values

* `functionReturnReg` — the register of a return value
* `emitReturnMoves` — the moves before `IR_RETVAL`

With a return value on the stack all of them go over the stack. Otherwise they are moved between
registers by a scheduler of their own.
-/

namespace Nib.Bind

open Nib.Infra

/-- A declared return value. The offset from `BP` is that of a stack return. -/
structure DeclaredReturn where
  type : String
  onStack : Bool := false
  pin : Option Preg := none
  stackOffset : Int := 0
  deriving DecidableEq, Repr

/-- What a function declares to return. -/
structure ReturnAbi where
  hasReturn : Bool := true
  returns : List DeclaredReturn
  deriving DecidableEq, Repr

namespace ReturnAbi

variable (fn : ReturnAbi)

def functionReturnReg (idx : Nat) : Option Preg :=
  if fn.hasReturn then
    match fn.returns[idx]? with
    | none => none
    | some d => if d.onStack then none else d.pin.or (defaultReturnReg (d.type == "u8") idx)
  else none

/-- The offset of a return value on the stack. -/
def returnSlot (idx : Nat) : Option Int :=
  (fn.returns[idx]?.filter fun d => d.onStack).map DeclaredReturn.stackOffset

end ReturnAbi

/-! ## Over the stack -/

/-- The same instructions as for `rins_push_vreg_temp`. -/
def rinsPushRetSrc (v : Source) : List MoveInsn := rinsPushVregTemp v

def rinsPopRetReg : Option Preg → List MoveInsn
  | none => []
  | some r =>
    if r.isByte then .pop .ax :: (if r = .al then [] else [.mov r .al]) else [.pop r]

def rinsPopBpSlot (off : Int) (byte : Bool) : List MoveInsn :=
  if byte then [.pop .ax, .store off .al] else [.popSlot off]

/-- Take return value `v.2`, which is `v.1`. -/
def popReturn (fn : ReturnAbi) (v : Source × Nat) : List MoveInsn :=
  match fn.returnSlot v.2 with
  | some off => rinsPopBpSlot off v.1.isByte
  | none => rinsPopRetReg (fn.functionReturnReg v.2)

/-! ## Between registers -/

/-- A value that is in its register already is not moved. -/
def returnMoves (fn : ReturnAbi) (srcs : List Source) : List PlannedMove :=
  srcs.zipIdx.filterMap fun v =>
    match fn.functionReturnReg v.2 with
    | none => none
    | some r => if v.1.assigned = some r then none else some ⟨r, v.1⟩

/-- Only sources in registers count. -/
def clobbersReturnSrc (i j : Numbered) : Bool := j.1.src.assigned.any (pregsAlias i.1.dst)

/-- When every move would overwrite a source, the first one goes ahead. -/
def returnTurns (moves : List PlannedMove) : List (Turn Numbered) :=
  schedule clobbersReturnSrc List.head? moves.length moves.zipIdx

def emitReturnTurn (t : Turn Numbered) : List MoveInsn :=
  rinsMovPregFromVreg t.item.1.dst t.item.1.src

/-- The moves of `IR_RETVAL` with the vregs `srcs`. -/
def emitReturnMoves (fn : ReturnAbi) (srcs : List Source) : List MoveInsn :=
  if (List.range srcs.length).any fun ri => (fn.returnSlot ri).isSome then
    srcs.flatMap rinsPushRetSrc ++ srcs.zipIdx.reverse.flatMap (popReturn fn)
  else (returnTurns (returnMoves fn srcs)).flatMap emitReturnTurn

end Nib.Bind
