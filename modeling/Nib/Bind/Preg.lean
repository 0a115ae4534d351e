import Mathlib.Tactic.Common

/-!
# Physical registers

The unified numbering of the binder. `PREG_NONE` is the `none` of `Option Preg`.
-/

namespace Nib.Bind

/-- Physical register IDs. -/
inductive Preg
  | ax | cx | dx | bx
  | sp | bp | si | di
  | al | cl | dl | bl
  | ah | ch | dh | bh
  | es | cs | ss | ds
  | flags
  deriving DecidableEq, Repr

namespace Preg

/-- The low byte half of a word register that has one. -/
def aliasLo : Preg → Option Preg
  | ax => some al
  | cx => some cl
  | dx => some dl
  | bx => some bl
  | _ => none

/-- The high byte half of a word register that has one. -/
def aliasHi : Preg → Option Preg
  | ax => some ah
  | cx => some ch
  | dx => some dh
  | bx => some bh
  | _ => none

/-- `ES`, `CS`, `SS` and `DS`. -/
def isSegment : Preg → Bool
  | es | cs | ss | ds => true
  | _ => false

/-- Word registers that have byte halves: the range `PREG_AX .. PREG_BX`. -/
def hasHalves (r : Preg) : Bool := r.aliasLo.isSome

end Preg

/-- Check if two physical registers alias. -/
def pregsAlias (a b : Preg) : Bool :=
  a == b || a.aliasLo == some b || a.aliasHi == some b ||
    b.aliasLo == some a || b.aliasHi == some a

theorem pregsAlias_self (a : Preg) : pregsAlias a a = true := by
  simp [pregsAlias]

theorem pregsAlias_comm (a b : Preg) : pregsAlias a b = pregsAlias b a := by
  cases a <;> cases b <;> rfl

end Nib.Bind
