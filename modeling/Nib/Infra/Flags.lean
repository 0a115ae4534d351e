import Mathlib

/-!
# Status flags and conditions

* `Flags.holds` — the sixteen conditions of a conditional jump
* `Flags.ofCompare` — the flags that a comparison leaves
* `Flags.holds_below` and the others — what a condition says about the operands of a comparison
-/

namespace Nib.Infra

structure Flags where
  carry : Bool
  parity : Bool
  zero : Bool
  sign : Bool
  overflow : Bool
  deriving DecidableEq, Repr

namespace Flags

variable {w : Nat}

/-- The condition that the odd code after an even one negates. -/
def base (f : Flags) : Nat → Bool
  | 0 => f.overflow
  | 1 => f.carry
  | 2 => f.zero
  | 3 => f.carry || f.zero
  | 4 => f.sign
  | 5 => f.parity
  | 6 => f.sign != f.overflow
  | _ => f.zero || f.sign != f.overflow

/-- The condition with this code. -/
def holds (f : Flags) (code : Nat) : Bool := f.base (code / 2) != decide (code % 2 = 1)

/-- An even number of ones. -/
def evenParity (b : BitVec 8) : Bool :=
  (List.range 8).foldl (fun even i => even != b.getLsbD i) true

/-- The flags behind the subtraction that compares `a` with `b`. -/
def ofCompare (a b : BitVec w) : Flags where
  carry := BitVec.usubOverflow a b
  parity := evenParity ((a - b).setWidth 8)
  zero := a - b == 0#w
  sign := (a - b).msb
  overflow := BitVec.ssubOverflow a b

/-! ## Conditions -/

theorem holds_even (f : Flags) (k : Nat) : f.holds (2 * k) = f.base k := by
  simp [holds]

theorem holds_odd (f : Flags) (k : Nat) : f.holds (2 * k + 1) = !f.base k := by
  have hdiv : (2 * k + 1) / 2 = k := by omega
  simp [holds, hdiv]

/-- Codes that differ in the last bit stand for opposite conditions. -/
theorem holds_xor_one (f : Flags) (code : Nat) : f.holds (code ^^^ 1) = !f.holds code := by
  have hdiv : (code ^^^ 1) / 2 = code / 2 := Nat.xor_div_two.trans (Nat.xor_zero _)
  have hmod : (code ^^^ 1) % 2 = 1 ↔ ¬code % 2 = 1 := by
    rw [Nat.xor_mod_two_eq_one]
    omega
  unfold holds
  rw [hdiv, decide_eq_decide.mpr hmod, decide_not, Bool.bne_not]

/-! ## Comparisons -/

@[simp] theorem ofCompare_carry (a b : BitVec w) : (ofCompare a b).carry = a.ult b := rfl

@[simp] theorem ofCompare_zero (a b : BitVec w) : (ofCompare a b).zero = (a == b) := by
  change (a - b == 0#w) = (a == b)
  rw [Bool.eq_iff_iff, beq_iff_eq, beq_iff_eq]
  exact sub_eq_zero

/-- The sign is that of the difference of the numbers, unless the subtraction overflows. -/
theorem ofCompare_less (a b : BitVec w) :
    ((ofCompare a b).sign != (ofCompare a b).overflow) = a.slt b := by
  change ((a - b).msb != BitVec.ssubOverflow a b) = a.slt b
  have hslt : a.slt b = decide (a.toInt < b.toInt) := rfl
  cases hover : BitVec.ssubOverflow a b with
  | false =>
    have hsub : (a - b).toInt = a.toInt - b.toInt :=
      BitVec.toInt_sub_of_not_ssubOverflow (by simp [hover])
    rw [Bool.bne_false, BitVec.msb_eq_toInt, hsub, hslt]
    simp
  | true =>
    have hsigns := BitVec.ssubOverflow_eq a b
    rw [hover] at hsigns
    simp only [BitVec.msb_eq_toInt] at hsigns ⊢
    rw [hslt]
    grind

/-! ## What the conditions say -/

theorem ult_or_eq (a b : BitVec w) : (a.ult b || a == b) = a.ule b := by
  rw [Bool.eq_iff_iff, Bool.or_eq_true, beq_iff_eq, ← BitVec.toNat_inj]
  change decide (a.toNat < b.toNat) = true ∨ _ ↔ decide (a.toNat ≤ b.toNat) = true
  rw [decide_eq_true_eq, decide_eq_true_eq, Nat.le_iff_lt_or_eq]

theorem slt_or_eq (a b : BitVec w) : (a == b || a.slt b) = a.sle b := by
  rw [Bool.eq_iff_iff, Bool.or_eq_true, beq_iff_eq, ← BitVec.toInt_inj]
  change _ ∨ decide (a.toInt < b.toInt) = true ↔ decide (a.toInt ≤ b.toInt) = true
  rw [decide_eq_true_eq, decide_eq_true_eq, Int.le_iff_lt_or_eq, or_comm]

section

variable (a b : BitVec w)

@[simp] theorem holds_below : (ofCompare a b).holds 2 = a.ult b := holds_even _ 1

@[simp] theorem holds_notBelow : (ofCompare a b).holds 3 = !a.ult b := holds_odd _ 1

@[simp] theorem holds_equal : (ofCompare a b).holds 4 = (a == b) :=
  (holds_even _ 2).trans (ofCompare_zero a b)

@[simp] theorem holds_notEqual : (ofCompare a b).holds 5 = !(a == b) :=
  (holds_odd _ 2).trans (congrArg _ (ofCompare_zero a b))

theorem base_belowOrEqual : (ofCompare a b).base 3 = a.ule b := by
  change ((ofCompare a b).carry || (ofCompare a b).zero) = _
  rw [ofCompare_carry, ofCompare_zero, ult_or_eq]

@[simp] theorem holds_belowOrEqual : (ofCompare a b).holds 6 = a.ule b :=
  (holds_even _ 3).trans (base_belowOrEqual a b)

@[simp] theorem holds_above : (ofCompare a b).holds 7 = !a.ule b :=
  (holds_odd _ 3).trans (congrArg _ (base_belowOrEqual a b))

@[simp] theorem holds_less : (ofCompare a b).holds 12 = a.slt b :=
  (holds_even _ 6).trans (ofCompare_less a b)

@[simp] theorem holds_notLess : (ofCompare a b).holds 13 = !a.slt b :=
  (holds_odd _ 6).trans (congrArg _ (ofCompare_less a b))

theorem base_lessOrEqual : (ofCompare a b).base 7 = a.sle b := by
  change ((ofCompare a b).zero || (ofCompare a b).sign != (ofCompare a b).overflow) = _
  rw [ofCompare_less, ofCompare_zero, slt_or_eq]

@[simp] theorem holds_lessOrEqual : (ofCompare a b).holds 14 = a.sle b :=
  (holds_even _ 7).trans (base_lessOrEqual a b)

@[simp] theorem holds_greater : (ofCompare a b).holds 15 = !a.sle b :=
  (holds_odd _ 7).trans (congrArg _ (base_lessOrEqual a b))

end

end Flags

end Nib.Infra
