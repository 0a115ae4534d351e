import Nib.Asm.Text
import Nib.Infra.Printf

/-!
# Printed numbers are read back

* `strtol_printDec` — `%d`
* `strtol_printHex` — `%0wX`
-/

namespace Nib.Asm

open Nib.Infra

/-! ## Digits -/

theorem digitsValue_snoc (base : Nat) (ds : List Char) (c : Char) :
    digitsValue base (ds ++ [c]) = digitsValue base ds * base + digitValue c := by
  rw [digitsValue, List.foldl_append]
  rfl

theorem digitValue_digitChar : ∀ d < 10, digitValue (Nat.digitChar d) = d := by decide

theorem digitValue_upper : ∀ d < 16, digitValue (Nat.digitChar d).toUpper = d := by decide

theorem isXDigit_upper : ∀ d < 16, isXDigit (Nat.digitChar d).toUpper = true := by decide

theorem digitsValue_toDigits (n : Nat) : digitsValue 10 (Nat.toDigits 10 n) = n := by
  refine toDigits_induction (by decide) (P := fun n ds => digitsValue 10 ds = n) ?single ?snoc n
  case single =>
    intro d hd
    simpa [digitsValue] using digitValue_digitChar d hd
  case snoc =>
    intro n d ds _ hd ih
    rw [digitsValue_snoc, ih, digitValue_digitChar d hd, Nat.mul_comm]

theorem digitsValue_upper (n : Nat) :
    digitsValue 16 ((Nat.toDigits 16 n).map Char.toUpper) = n := by
  refine toDigits_induction (by decide)
    (P := fun n ds => digitsValue 16 (ds.map Char.toUpper) = n) ?single ?snoc n
  case single =>
    intro d hd
    simpa [digitsValue] using digitValue_upper d hd
  case snoc =>
    intro n d ds _ hd ih
    rw [List.map_append, List.map_singleton, digitsValue_snoc, ih, digitValue_upper d hd,
      Nat.mul_comm]

theorem isXDigit_of_mem_upper {n : Nat} {c : Char}
    (h : c ∈ (Nat.toDigits 16 n).map Char.toUpper) : isXDigit c = true := by
  revert h
  refine toDigits_induction (by decide)
    (P := fun _ ds => c ∈ ds.map Char.toUpper → isXDigit c = true) ?single ?snoc n
  case single =>
    intro d hd hc
    rw [List.map_singleton, List.mem_singleton] at hc
    exact hc ▸ isXDigit_upper d hd
  case snoc =>
    intro n d ds _ hd ih hc
    rw [List.map_append, List.map_singleton] at hc
    rcases List.mem_append.mp hc with hc | hc
    · exact ih hc
    · rw [List.mem_singleton] at hc
      exact hc ▸ isXDigit_upper d hd

theorem digitsValue_zeros (base : Nat) (ds : List Char) :
    ∀ k, digitsValue base (List.replicate k '0' ++ ds) = digitsValue base ds
  | 0 => rfl
  | k + 1 => by
    have ih := digitsValue_zeros base ds k
    rw [List.replicate_succ, List.cons_append, digitsValue, List.foldl_cons]
    have hzero : 0 * base + digitValue '0' = 0 := by rw [Nat.zero_mul]; rfl
    rw [hzero]
    exact ih

theorem digitsValue_printHex (w n : Nat) : digitsValue 16 (printHex w n) = n := by
  rw [printHex, digitsValue_zeros, digitsValue_upper]

theorem isXDigit_of_mem_printHex {w n : Nat} {c : Char} (h : c ∈ printHex w n) :
    isXDigit c = true := by
  rcases List.mem_append.mp h with h | h
  · rw [List.eq_of_mem_replicate h]
    decide
  · exact isXDigit_of_mem_upper h

theorem printHex_ne_nil (w n : Nat) : printHex w n ≠ [] := by
  rw [printHex]
  exact List.append_ne_nil_of_right_ne_nil _
    (fun h => Nat.toDigits_ne_nil (List.map_eq_nil_iff.mp h))

/-! ## `strtol` -/

theorem takeWhile_append_stop {p : Char → Bool} : ∀ {ds : List Char} (rest : List Char),
    (∀ c ∈ ds, p c = true) → (∀ c, rest.head? = some c → p c = false) →
    (ds ++ rest).takeWhile p = ds ∧ (ds ++ rest).dropWhile p = rest
  | [], [], _, _ => ⟨rfl, rfl⟩
  | [], c :: rest, _, hr => by simp [hr c rfl]
  | d :: ds, rest, hd, hr => by
    have ih := takeWhile_append_stop rest (fun c hc => hd c (List.mem_cons_of_mem d hc)) hr
    rw [List.cons_append, List.takeWhile_cons_of_pos (hd d List.mem_cons_self),
      List.dropWhile_cons_of_pos (hd d List.mem_cons_self), ih.1, ih.2]
    exact ⟨rfl, rfl⟩

theorem isXDigit_of_isBaseDigit {base : Nat} {c : Char} (h : isBaseDigit base c = true) :
    isXDigit c = true := by
  unfold isBaseDigit at h
  split at h
  · exact h
  · rw [isXDigit, h]
    rfl

theorem isSpace_of_isXDigit {c : Char} (h : isXDigit c = true) : isSpace c = false := by
  by_contra hs
  simp only [isSpace, Bool.not_eq_false, Bool.or_eq_true, beq_iff_eq] at hs
  rcases hs with ((((rfl | rfl) | rfl) | rfl) | rfl) | rfl <;> exact absurd h (by decide)

/-- The sign of a number. -/
def strtolSign (s : List Char) : Bool × List Char :=
  match s with
  | '-' :: t => (true, t)
  | '+' :: t => (false, t)
  | t => (false, t)

theorem strtolSign_of_isXDigit {d : Char} (h : isXDigit d = true) (t : List Char) :
    strtolSign (d :: t) = (false, d :: t) := by
  unfold strtolSign
  split
  · rename_i heq
    rw [(List.cons.inj heq).1] at h
    exact absurd h (by decide)
  · rename_i heq
    rw [(List.cons.inj heq).1] at h
    exact absurd h (by decide)
  · rfl

theorem strtol_sign (base : Nat) (s : List Char) :
    strtol base s =
      let r := strtolSign (s.dropWhile isSpace)
      let t := skipHexPrefix base r.2
      let ds := t.takeWhile (isBaseDigit base)
      if ds.isEmpty then (0, s)
      else
        (clampLong (if r.1 then -digitsValue base ds else digitsValue base ds),
          t.dropWhile (isBaseDigit base)) := rfl

/-- Digits after a sign. -/
theorem strtol_digits {base : Nat} {s ds rest : List Char} (negative : Bool)
    (hspace : s.dropWhile isSpace = s) (hsign : strtolSign s = (negative, ds ++ rest))
    (hne : ds ≠ []) (hd : ∀ c ∈ ds, isBaseDigit base c = true)
    (hpre : skipHexPrefix base (ds ++ rest) = ds ++ rest)
    (hr : ∀ c, rest.head? = some c → isBaseDigit base c = false) :
    strtol base s =
      (clampLong (if negative then -digitsValue base ds else digitsValue base ds), rest) := by
  obtain ⟨htake, hdrop⟩ := takeWhile_append_stop rest hd hr
  have hempty : ds.isEmpty = false := List.isEmpty_eq_false_iff.mpr hne
  rw [strtol_sign, hspace, hsign]
  simp only [hpre, htake, hdrop, hempty, Bool.false_eq_true, if_false]

theorem skipHexPrefix_ten (s : List Char) : skipHexPrefix 10 s = s := by
  unfold skipHexPrefix
  split
  · exact if_neg (by simp)
  · rfl

theorem isDigit_of_mem_toDigits {n : Nat} {c : Char} (h : c ∈ Nat.toDigits 10 n) :
    c.isDigit = true := Nat.isDigit_of_mem_toDigits (by decide) (by decide) h

/-- **A printed `int` is read back.** -/
theorem strtol_printDec (n : Int) (rest : List Char)
    (hr : ∀ c, rest.head? = some c → c.isDigit = false) :
    strtol 10 (printDec n ++ rest) = (clampLong n, rest) := by
  have hdigits : ∀ c ∈ Nat.toDigits 10 n.natAbs, isBaseDigit 10 c = true := fun c hc =>
    isDigit_of_mem_toDigits hc
  unfold printDec
  split
  · rename_i hn
    rw [strtol_digits true rfl rfl Nat.toDigits_ne_nil hdigits
      (skipHexPrefix_ten _) hr, digitsValue_toDigits, if_pos rfl, ← Int.eq_neg_natAbs_of_nonpos]
    omega
  · rename_i hn
    obtain ⟨d, ds, hcons⟩ :=
      List.exists_cons_of_ne_nil (Nat.toDigits_ne_nil (b := 10) (n := n.natAbs))
    have hx : isXDigit d = true := isXDigit_of_isBaseDigit (hdigits d (hcons ▸ List.mem_cons_self))
    have hspace : (Nat.toDigits 10 n.natAbs ++ rest).dropWhile isSpace =
        Nat.toDigits 10 n.natAbs ++ rest := by
      rw [hcons, List.cons_append, List.dropWhile_cons_of_neg (by simp [isSpace_of_isXDigit hx])]
    have hsign : strtolSign (Nat.toDigits 10 n.natAbs ++ rest) =
        (false, Nat.toDigits 10 n.natAbs ++ rest) := by
      rw [hcons]
      exact strtolSign_of_isXDigit hx _
    rw [strtol_digits false hspace hsign Nat.toDigits_ne_nil hdigits (skipHexPrefix_ten _) hr,
      digitsValue_toDigits, if_neg Bool.false_ne_true, Int.natAbs_of_nonneg (by omega)]

theorem skipHexPrefix_of_second {s : List Char}
    (h : ∀ c, s.tail.head? = some c → c ≠ 'x' ∧ c ≠ 'X') (base : Nat) :
    skipHexPrefix base s = s := by
  unfold skipHexPrefix
  split
  · rename_i x d rest
    obtain ⟨hx, hX⟩ := h x rfl
    refine if_neg ?_
    simp [hx, hX]
  · rfl

/-- **A printed hexadecimal number is read back.** -/
theorem strtol_printHex (w n : Nat) (rest : List Char)
    (hr : ∀ c, rest.head? = some c → isXDigit c = false ∧ c ≠ 'x' ∧ c ≠ 'X') :
    strtol 16 (printHex w n ++ rest) = (clampLong n, rest) := by
  have hdigits : ∀ c ∈ printHex w n, isBaseDigit 16 c = true := fun c hc =>
    isXDigit_of_mem_printHex hc
  obtain ⟨d, ds, hcons⟩ := List.exists_cons_of_ne_nil (printHex_ne_nil w n)
  have hx : isXDigit d = true := hdigits d (hcons ▸ List.mem_cons_self)
  have hspace : (printHex w n ++ rest).dropWhile isSpace = printHex w n ++ rest := by
    rw [hcons, List.cons_append, List.dropWhile_cons_of_neg (by simp [isSpace_of_isXDigit hx])]
  have hsign : strtolSign (printHex w n ++ rest) = (false, printHex w n ++ rest) := by
    rw [hcons]
    exact strtolSign_of_isXDigit hx _
  have hsecond : ∀ c, (printHex w n ++ rest).tail.head? = some c → c ≠ 'x' ∧ c ≠ 'X' := by
    intro c hc
    rw [hcons, List.cons_append, List.tail_cons] at hc
    cases ds with
    | nil => exact (hr c hc).2
    | cons e ds =>
      cases hc
      have he : isXDigit c = true :=
        hdigits c (hcons ▸ List.mem_cons_of_mem d List.mem_cons_self)
      exact ⟨fun h => absurd (h ▸ he) (by decide), fun h => absurd (h ▸ he) (by decide)⟩
  rw [strtol_digits false hspace hsign (printHex_ne_nil w n) hdigits
    (skipHexPrefix_of_second hsecond 16) (fun c hc => (hr c hc).1), digitsValue_printHex]
  rfl

end Nib.Asm
