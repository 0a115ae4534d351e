import Mathlib.Tactic.Common

/-!
# Printed numbers

The decimal and hexadecimal conversions of `printf`.
-/

namespace Nib.Infra

/-- `%d`. -/
def printDec (n : Int) : List Char :=
  if n < 0 then '-' :: Nat.toDigits 10 n.natAbs else Nat.toDigits 10 n.natAbs

/-- `%0wX`. -/
def printHex (w n : Nat) : List Char :=
  let ds := (Nat.toDigits 16 n).map Char.toUpper
  List.replicate (w - ds.length) '0' ++ ds

/-- Induction over the digits of a number. -/
theorem toDigits_induction {b : Nat} (hb : 1 < b) {P : Nat → List Char → Prop}
    (single : ∀ d, d < b → P d [Nat.digitChar d])
    (snoc : ∀ n d ds, 0 < n → d < b → P n ds → P (b * n + d) (ds ++ [Nat.digitChar d])) (n : Nat) :
    P n (Nat.toDigits b n) := by
  induction n using Nat.strongRecOn with
  | ind n ih =>
    by_cases h : n < b
    · rw [Nat.toDigits_of_lt_base h]
      exact single n h
    · have hpos : 0 < n / b := Nat.div_pos (Nat.not_lt.mp h) (by omega)
      have hlt : n / b < n := Nat.div_lt_self (by omega) hb
      have hstep := snoc (n / b) (n % b) _ hpos (Nat.mod_lt n (by omega)) (ih (n / b) hlt)
      rw [Nat.div_add_mod] at hstep
      rw [Nat.toDigits_of_base_le hb (Nat.not_lt.mp h)]
      exact hstep

theorem printDec_char {n : Int} {c : Char} (h : c ∈ printDec n) : c = '-' ∨ c.isDigit = true := by
  have hdigit : ∀ {m : Nat}, c ∈ Nat.toDigits 10 m → c.isDigit = true := fun hm =>
    Nat.isDigit_of_mem_toDigits (by decide) (by decide) hm
  unfold printDec at h
  split at h
  · rcases List.mem_cons.mp h with h | h
    · exact .inl h
    · exact .inr (hdigit h)
  · exact .inr (hdigit h)

end Nib.Infra
