import Nib.Compile.Spec.ConstEval
import Mathlib.Tactic.SplitIfs

/-!
# The arithmetic of constant expressions

* `evalConstBinop_exact` — a defined operation computes the value over the integers
* `definedBinop_iff` — when an operation is defined
* `cEval_exact` — an evaluation whose values fit, and one that leaves the integers
* `consts_defined_iff` — the same for a list of declarations and an expression after them
-/

namespace Nib.Compile

open Compile

variable {c : Compiler} {t : List (String × Int)} {op : OpKind} {l r n : Int}

/-! ## Operations -/

theorem isInt_iff : isInt n = true ↔ -2147483648 ≤ n ∧ n ≤ 2147483647 := by
  simp [isInt]

theorem isInt_toInt (x : BitVec 32) : isInt x.toInt = true := by
  have hle := x.le_toInt
  have hlt := x.toInt_lt
  rw [isInt_iff]
  omega

theorem toInt32_of_isInt (h : isInt n = true) : toInt32 n = n := by
  rw [isInt_iff] at h
  rw [toInt32, BitVec.toInt_ofInt, Int.bmod_eq_of_le] <;> omega

/-- A shift by a count in range is a multiplication, modulo 2³². -/
theorem shl_eq (h0 : 0 ≤ r) (h32 : r < 32) :
    bitsInt32 (fun a b => a <<< shiftCount b) l r = toInt32 (l * 2 ^ r.toNat) := by
  have hcount : shiftCount (BitVec.ofInt 32 r) = r.toNat := by
    rw [shiftCount, BitVec.toNat_ofInt]
    omega
  have hpow : ∀ n < 32, BitVec.twoPow 32 n = BitVec.ofInt 32 (2 ^ n) := by decide
  rw [bitsInt32, hcount, toInt32, BitVec.shiftLeft_eq_mul_twoPow]
  rw [BitVec.ofInt_mul, hpow r.toNat (by omega)]

/-- A quotient is no `int` only when the smallest one is divided by -1. -/
theorem isInt_tdiv (hl : isInt l = true) (hr : r ≠ 0) :
    isInt (l.tdiv r) = true ↔ ¬(l = -2147483648 ∧ r = -1) := by
  rw [isInt_iff] at hl ⊢
  by_cases hmin : l = -2147483648
  · subst hmin
    have habs : ((-2147483648 : Int).tdiv r).natAbs = 2147483648 / r.natAbs := Int.natAbs_tdiv _ _
    rcases show r = 1 ∨ r = -1 ∨ 2 ≤ r.natAbs by omega with rfl | rfl | h2
    · decide
    · decide
    · have hle : 2147483648 / r.natAbs ≤ 2147483648 / 2 := Nat.div_le_div_left h2 (by decide)
      omega
  · have habs := Int.natAbs_tdiv_le_natAbs l r
    omega

theorem isInt_tmod (hl : isInt l = true) : isInt (l.tmod r) = true := by
  rw [isInt_iff] at hl ⊢
  have habs : (l.tmod r).natAbs ≤ l.natAbs := by
    rw [Int.natAbs_tmod]
    exact Nat.mod_le _ _
  rcases Int.le_total 0 l with h | h
  · omega
  · have hneg := Int.tmod_nonneg r (Int.neg_nonneg_of_nonpos h)
    rw [Int.neg_tmod] at hneg
    omega

theorem evalConstBinop_exact (hl : isInt l = true) (h : definedBinop op l r = true) :
    evalConstBinop op l r = exactBinop op l r := by
  cases op with
  | add | sub | mul => exact congrArg some (toInt32_of_isInt h)
  | shl =>
    simp only [definedBinop, Bool.and_eq_true, decide_eq_true_eq] at h
    exact congrArg some ((shl_eq h.1.1.1 h.1.1.2).trans (toInt32_of_isInt h.2))
  | div =>
    simp only [definedBinop, Bool.or_eq_true, beq_iff_eq] at h
    unfold evalConstBinop exactBinop
    split_ifs with h0
    · rfl
    · exact congrArg some (toInt32_of_isInt (h.resolve_left h0))
  | mod =>
    unfold evalConstBinop exactBinop
    split_ifs
    · rfl
    · exact congrArg some (toInt32_of_isInt (isInt_tmod hl))
  | _ => rfl

theorem definedBinop_iff (hl : isInt l = true) : definedBinop op l r = true ↔
    takes op l r ∧ ∀ k ∈ exactBinop op l r, isInt k = true := by
  cases op with
  | and | or | xor =>
    exact iff_of_true rfl ⟨trivial, fun k hk => Option.some.inj hk ▸ isInt_toInt _⟩
  | div =>
    by_cases h0 : r = 0 <;> simp [definedBinop, takes, exactBinop, h0]
  | mod =>
    by_cases h0 : r = 0
    · simp [definedBinop, takes, exactBinop, h0]
    · simp [definedBinop, takes, exactBinop, h0, isInt_tdiv hl h0, isInt_tmod hl]
  | shr =>
    have hint : ∀ k ∈ exactBinop .shr l r, isInt k = true :=
      fun k hk => Option.some.inj hk ▸ isInt_toInt _
    rw [and_iff_left hint]
    simp [definedBinop, takes]
  | shl => simp [definedBinop, takes, exactBinop]
  | _ => simp [definedBinop, takes, exactBinop]

/-! ## An expression -/

/-- What an evaluation has to do: compute the value over the integers, or meet an undefined
operation. -/
def Exact (o : Outcome) (fits : Prop) (v : Option Int) : Prop :=
  (fits → o = .ofOption v ∧ ∀ n ∈ v, isInt n = true) ∧ (¬fits → o = .undefined)

theorem exact_refused : Exact .refused True none :=
  ⟨fun _ => ⟨rfl, nofun⟩, fun h => absurd trivial h⟩

theorem constantIn_isInt {name : String} (ht : TableInt t) :
    ∀ v ∈ constantIn t name, isInt v = true := by
  intro v hv
  obtain ⟨k, hk, rfl⟩ := Option.map_eq_some_iff.mp hv
  exact ht k (List.mem_of_find?_eq_some hk)

/-- An operation on operands that are known. -/
theorem binop_exact (hl : isInt l = true) : Exact
    (if definedBinop op l r then .ofOption (evalConstBinop op l r) else .undefined)
    (takes op l r ∧ ∀ k ∈ exactBinop op l r, isInt k = true) (exactBinop op l r) := by
  rw [← definedBinop_iff hl]
  constructor
  · intro h
    rw [if_pos h, evalConstBinop_exact hl h]
    exact ⟨rfl, ((definedBinop_iff hl).mp h).2⟩
  · intro h
    exact if_neg h

/-- An operand that fits is followed by what comes after it. -/
theorem Exact.bind {o : Outcome} {fits : Prop} {v : Option Int} (h : Exact o fits v)
    {f : Int → Outcome} {fits' : Int → Prop} {v' : Int → Option Int}
    (hf : ∀ n, isInt n = true → Exact (f n) (fits' n) (v' n)) :
    Exact (match (motive := Outcome → Outcome) o with | .value n => f n | o => o)
      (fits ∧ ∀ n ∈ v, fits' n) (v.bind v') := by
  by_cases hfits : fits
  · obtain ⟨rfl, hint⟩ := h.1 hfits
    cases v with
    | none => exact ⟨fun _ => ⟨rfl, nofun⟩, fun hnot => absurd ⟨hfits, nofun⟩ hnot⟩
    | some n =>
      obtain ⟨hpos, hneg⟩ := hf n (hint n rfl)
      refine ⟨fun hall => hpos (hall.2 n rfl), fun hnot => hneg fun hn => hnot ⟨hfits, ?_⟩⟩
      intro m hm
      exact Option.some.inj hm ▸ hn
  · obtain rfl := h.2 hfits
    exact ⟨fun hall => absurd hall.1 hfits, fun _ => rfl⟩

theorem unop_exact (op : UnopKind) (h : isInt n = true) : Exact
    (match op with
      | .neg => if isInt (-n) then .value (toInt32 (-n)) else .undefined
      | .not => .value (toInt32 (-n - 1))
      | _ => .refused)
    (∀ k ∈ exactUnop op n, isInt k = true) (exactUnop op n) := by
  cases op with
  | neg =>
    refine ⟨fun hfits => ?_, fun hfits => if_neg fun hneg => hfits ?_⟩
    · have hneg := hfits _ rfl
      simp only [if_pos hneg, toInt32_of_isInt hneg]
      exact ⟨rfl, hfits⟩
    · intro k hk
      exact Option.some.inj hk ▸ hneg
  | not =>
    have hnot : isInt (-n - 1) = true := by
      rw [isInt_iff] at h ⊢
      omega
    have hfits : ∀ k ∈ exactUnop .not n, isInt k = true := fun k hk => Option.some.inj hk ▸ hnot
    simp only [toInt32_of_isInt hnot]
    exact ⟨fun _ => ⟨rfl, hfits⟩, fun h => absurd hfits h⟩
  | _ => exact ⟨fun _ => ⟨rfl, nofun⟩, fun h => absurd (by nofun) h⟩

/-- **When the values fit they are computed, and otherwise an operation is undefined.** -/
theorem cEval_exact (hc : TableInt c.constants) : ∀ e : Expr, LitsInt e →
    Exact (cEval c e) (Fits c.constants e) (exact c.constants e)
  | .litInt _, h =>
    ⟨fun _ => ⟨rfl, fun _ hv => Option.some.inj hv ▸ h⟩, fun h => absurd trivial h⟩
  | .ident _, _ => ⟨fun _ => ⟨rfl, constantIn_isInt hc⟩, fun h => absurd trivial h⟩
  | .binop _ l r, h =>
    (cEval_exact hc l h.1).bind fun _ hm => (cEval_exact hc r h.2).bind fun _ _ => binop_exact hm
  | .unop op e, h => (cEval_exact hc e h).bind fun _ hn => unop_exact op hn
  | .litStr _, _ | .reg .., _ | .sreg _, _ | .flag _, _ | .call .., _ | .index .., _
  | .checkedIndex .., _ | .field .., _ | .rawField .., _ | .farLit .., _ | .cast .., _
  | .indirectCall .., _ | .nearIndirectCall .., _ | .deref .., _ => exact_refused

theorem cEval_defined_iff (hc : TableInt c.constants) {e : Expr} (he : LitsInt e) :
    cEval c e ≠ .undefined ↔ Fits c.constants e := by
  obtain ⟨hpos, hneg⟩ := cEval_exact hc e he
  constructor
  · intro hdef
    exact Classical.byContradiction fun hfits => hdef (hneg hfits)
  · intro hfits hundef
    rw [(hpos hfits).1] at hundef
    cases hv : exact c.constants e <;> rw [hv] at hundef <;> cases hundef

/-! ## What the compiler computes -/

/-- Without an undefined operation, the outcome is that of the compiler. -/
def Codes (o : Outcome) (v : Option Int) : Prop := o ≠ .undefined → o = .ofOption v

theorem codes_refused : Codes .refused none := fun _ => rfl

theorem Codes.bind {o : Outcome} {v : Option Int} (h : Codes o v) {f : Int → Outcome}
    {v' : Int → Option Int} (hf : ∀ n, Codes (f n) (v' n)) :
    Codes (match (motive := Outcome → Outcome) o with | .value n => f n | o => o) (v.bind v') := by
  cases o with
  | undefined => exact fun hdef => absurd rfl hdef
  | refused =>
    cases v with
    | none => exact codes_refused
    | some n => cases h nofun
  | value n =>
    cases v with
    | none => cases h nofun
    | some m =>
      obtain rfl := Outcome.value.inj (h nofun)
      exact hf n

theorem cEval_code : ∀ e : Expr, Codes (cEval c e) (evalConstExpr c e)
  | .litInt _ | .ident _ => fun _ => rfl
  | .binop op l r => (cEval_code l).bind fun m => (cEval_code r).bind fun n hdef => by
    by_cases h : definedBinop op m n = true
    · exact if_pos h
    · exact absurd (if_neg h) hdef
  | .unop .neg e => by
    rw [evalConstExpr, Option.map_eq_bind]
    refine (cEval_code e).bind fun n hdef => ?_
    by_cases h : isInt (-n) = true
    · exact if_pos h
    · exact absurd (if_neg h) hdef
  | .unop .not e => by
    rw [evalConstExpr, Option.map_eq_bind]
    exact (cEval_code e).bind fun n _ => rfl
  | .unop .addr e | .unop .farAddr e | .unop .lnot e => by
    have hnone : ((evalConstExpr c e).bind fun _ => none) = (none : Option Int) := by
      cases evalConstExpr c e <;> rfl
    have hbind := (cEval_code e).bind (fun _ : Int => codes_refused)
    rwa [hnone] at hbind
  | .litStr _ | .reg .. | .sreg _ | .flag _ | .call .. | .index ..
  | .checkedIndex .. | .field .. | .rawField .. | .farLit .. | .cast ..
  | .indirectCall .. | .nearIndirectCall .. | .deref .. => codes_refused

/-! ## Declarations -/

theorem requireConstExpr_eq (e : Expr) (what : String) (c : Compiler) :
    requireConstExpr e what c =
      (match evalConstExpr c e with
        | some value => pure value
        | none => do
          cerr (what ++ " must be a constant expression")
          pure 0 : Compile Int) c := rfl

theorem compileConst_constants (name : String) (init : Expr) (c : Compiler) :
    (compileConst name init c).state.constants =
      c.constants ++ [(symName name, (evalConstExpr c init).getD 0)] := by
  show ((requireConstExpr init "const initializer" c).state.constants ++
    [(symName name, (requireConstExpr init "const initializer" c).value)]) = _
  rw [requireConstExpr_eq]
  cases evalConstExpr c init <;> rfl

/-- The value that is registered is an `int`. -/
theorem tableInt_append {v : Option Int} (ht : TableInt t) (hv : ∀ n ∈ v, isInt n = true)
    (name : String) : TableInt (t ++ [(symName name, v.getD 0)]) := by
  intro k hk
  rcases List.mem_append.mp hk with hk | hk
  · exact ht k hk
  · rw [List.mem_singleton.mp hk]
    cases v with
    | none => rfl
    | some n => exact hv n rfl

/-- After a declaration whose values fit, the table holds its value over the integers. -/
theorem compileConst_exact (hc : TableInt c.constants) {init : Expr} (hi : LitsInt init)
    (hfits : Fits c.constants init) (name : String) :
    (compileConst name init c).state.constants =
        c.constants ++ [(symName name, (exact c.constants init).getD 0)] ∧
      TableInt (compileConst name init c).state.constants := by
  obtain ⟨hvalue, hint⟩ := (cEval_exact hc init hi).1 hfits
  have hcode := cEval_code init ((cEval_defined_iff hc hi).mpr hfits)
  have hsame : evalConstExpr c init = exact c.constants init := by
    rw [hvalue] at hcode
    cases hx : exact c.constants init <;> cases hy : evalConstExpr c init <;>
      rw [hx, hy] at hcode <;> cases hcode <;> rfl
  rw [compileConst_constants, hsame]
  exact ⟨rfl, tableInt_append hc hint name⟩

/-- **Only defined arithmetic is performed exactly when the values over the integers fit**: for the
initializers of the constants, one after another, and for an expression after them. -/
theorem consts_defined_iff (c : Compiler) (hc : TableInt c.constants) (ds : List (String × Expr))
    (hds : ∀ d ∈ ds, LitsInt d.2) (e : Expr) (he : LitsInt e) :
    (DeclsDefined c ds ∧ cEval (compileConsts ds c).state e ≠ .undefined) ↔
      FitsDecls c.constants ds ∧ Fits (exactDecls c.constants ds) e := by
  induction ds generalizing c with
  | nil => exact and_congr_right fun _ => cEval_defined_iff hc he
  | cons d ds ih =>
    obtain ⟨name, init⟩ := d
    have hi : LitsInt init := hds _ List.mem_cons_self
    have hrest : (compileConsts ((name, init) :: ds) c).state =
      (compileConsts ds (compileConst name init c).state).state := rfl
    rw [hrest]
    simp only [DeclsDefined, FitsDecls, exactDecls, and_assoc]
    rw [cEval_defined_iff hc hi]
    refine and_congr_right fun hfits => ?_
    obtain ⟨htable, hint⟩ := compileConst_exact hc hi hfits name
    rw [ih _ hint fun d hd => hds d (List.mem_cons_of_mem _ hd), htable]

/-- Two constants, of which the second is computed from the first. -/
theorem consts_defined_iff_chain :
    let ds : List (String × Expr) := [("A", .litInt 65536), ("B", .binop .mul (.ident "A")
      (.litInt 32767))]
    (DeclsDefined {} ds ∧ cEval (compileConsts ds {}).state (.ident "B") ≠ .undefined) ↔
      FitsDecls [] ds ∧ Fits (exactDecls [] ds) (.ident "B") := by
  refine consts_defined_iff {} nofun _ ?_ _ trivial
  simp [LitsInt, isInt]

/-- The largest `int` plus 1, the smallest divided by -1 and its remainder, and a shift by 32: the
evaluation refuses none of them. -/
theorem cEval_undefined :
    let least : Expr := .binop .sub (.unop .neg (.litInt 2147483647)) (.litInt 1)
    cEval {} (.binop .add (.litInt 2147483647) (.litInt 1)) = .undefined ∧
      cEval {} (.binop .div least (.unop .neg (.litInt 1))) = .undefined ∧
      cEval {} (.binop .mod least (.unop .neg (.litInt 1))) = .undefined ∧
      cEval {} (.binop .shl (.litInt 1) (.litInt 32)) = .undefined ∧
      ¬∀ e, LitsInt e → cEval {} e ≠ .undefined :=
  ⟨by decide, by decide, by decide, by decide, fun h =>
    h (.binop .add (.litInt 2147483647) (.litInt 1)) ⟨rfl, rfl⟩ (by decide)⟩

end Nib.Compile
