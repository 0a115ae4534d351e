import Nib.Compile.Properties.Scopes

/-!
# Every emission keeps the vregs of variables apart

* `emitExpr_growing` — expressions, by induction over the tree
* `emitStmts_growing` — statements, by induction over the statements
-/

namespace Nib.Compile

open Compile

/-! ## Types and memory operands -/

@[simp] theorem growing_tv (vreg : Int) (type : Option Ty) : Growing (tv vreg type) := by
  unfold tv
  repeat' first | with_reducible refine growing_bind ?_ fun _ => ?_ | split
  all_goals simp

@[simp] theorem growing_tvFar (off seg : Int) : Growing (tvFar off seg) := growing_pure _

@[simp] theorem growing_tvPin (vreg : Int) (type : Option Ty) (pin : String) :
    Growing (tvPin vreg type pin) := by
  simp [tvPin]

@[simp] theorem growing_structFieldLayout (structType : Option Ty) (fieldName : String)
    (rawAccess : Bool) : Growing (structFieldLayout structType fieldName rawAccess) := by
  unfold structFieldLayout
  repeat' first | with_reducible refine growing_bind ?_ fun _ => ?_ | split
  all_goals simp

@[simp] theorem growing_checkArith (l r : Option Ty) (op : OpKind) :
    Growing (checkArith l r op) := by
  unfold checkArith
  repeat' first | with_reducible refine growing_bind ?_ fun _ => ?_ | split
  all_goals simp

@[simp] theorem growing_checkCompare (l r : Option Ty) : Growing (checkCompare l r) := by
  unfold checkCompare
  repeat' first | with_reducible refine growing_bind ?_ fun _ => ?_ | split
  all_goals simp

@[simp] theorem growing_requireConstExpr (e : Expr) (what : String) :
    Growing (requireConstExpr e what) := by
  unfold requireConstExpr
  repeat' first | with_reducible refine growing_bind ?_ fun _ => ?_ | split
  all_goals simp

@[simp] theorem growing_derefTypeError (type : Option Ty) : Growing (derefTypeError type) :=
  growing_cerr _

@[simp] theorem growing_emitFarHalves (vreg : Int) : Growing (emitFarHalves vreg) := by
  unfold emitFarHalves
  repeat' first | with_reducible refine growing_bind ?_ fun _ => ?_ | split
  all_goals simp

@[simp] theorem growing_emitDerefAccess (op : Op) (operands : List Arg → List Arg)
    (seg : Option Nat) (ptr : TypedVreg) : Growing (emitDerefAccess op operands seg ptr) := by
  unfold emitDerefAccess
  repeat' first | with_reducible refine growing_bind ?_ fun _ => ?_ | split
  all_goals simp

@[simp] theorem growing_emitDerefLoad (ptrExpr : Expr) (seg : Option Nat)
    {emitPtr : Compile TypedVreg} (h : Growing emitPtr) (target : Option Ty) :
    Growing (emitDerefLoad ptrExpr seg emitPtr target) := by
  unfold emitDerefLoad
  repeat' first | with_reducible refine growing_bind ?_ fun _ => ?_ | split
  all_goals simp [h]

@[simp] theorem growing_emitDerefStore (ptrExpr : Expr) (seg : Option Nat)
    {emitPtr : Compile TypedVreg} (h : Growing emitPtr) (val : TypedVreg) :
    Growing (emitDerefStore ptrExpr seg emitPtr val) := by
  unfold emitDerefStore
  repeat' first | with_reducible refine growing_bind ?_ fun _ => ?_ | split
  all_goals simp [h]

@[simp] theorem growing_emitStackAddr (sym : Symbol) : Growing (emitStackAddr sym) := by
  unfold emitStackAddr
  repeat' first | with_reducible refine growing_bind ?_ fun _ => ?_ | split
  all_goals simp

@[simp] theorem growing_emitStackLocalValue (sym : Symbol) :
    Growing (emitStackLocalValue sym) := by
  unfold emitStackLocalValue
  repeat' first | with_reducible refine growing_bind ?_ fun _ => ?_ | split
  all_goals simp

@[simp] theorem growing_emitSegMove (seg segTmp : Int) : Growing (emitSegMove seg segTmp) := by
  unfold emitSegMove
  repeat' first | with_reducible refine growing_bind ?_ fun _ => ?_ | split
  all_goals simp

@[simp] theorem growing_emitStackFarAddr (sym : Symbol) : Growing (emitStackFarAddr sym) := by
  unfold emitStackFarAddr
  repeat' first | with_reducible refine growing_bind ?_ fun _ => ?_ | split
  all_goals simp

@[simp] theorem growing_emitFarLabel (name : String) : Growing (emitFarLabel name) := by
  unfold emitFarLabel
  repeat' first | with_reducible refine growing_bind ?_ fun _ => ?_ | split
  all_goals simp

@[simp] theorem growing_emitAddrPlusConst (base offset : Int) :
    Growing (emitAddrPlusConst base offset) := by
  unfold emitAddrPlusConst
  repeat' first | with_reducible refine growing_bind ?_ fun _ => ?_ | split
  all_goals simp

@[simp] theorem growing_emitStructFieldValue (obj : TypedVreg) (fieldName : String)
    (rawAccess : Bool) : Growing (emitStructFieldValue obj fieldName rawAccess) := by
  unfold emitStructFieldValue
  repeat' first | with_reducible refine growing_bind ?_ fun _ => ?_ | split
  all_goals simp

@[simp] theorem growing_emitStructFieldStore {emitObject : Compile TypedVreg}
    (h : Growing emitObject) (fieldName : String) (val : TypedVreg) :
    Growing (emitStructFieldStore emitObject fieldName val) := by
  unfold emitStructFieldStore
  repeat' first | with_reducible refine growing_bind ?_ fun _ => ?_ | split
  all_goals simp [h]

/-! ## Expressions -/

/-- Both emissions of an expression. -/
structure ExprGrowing (e : ExprEmit) : Prop where
  typed : Growing e.typed
  typedFor : ∀ target, Growing (e.typedFor target)

@[simp] theorem growing_adoptTarget {emit : Compile TypedVreg} (h : Growing emit)
    (target : Option Ty) : Growing (adoptTarget emit target) := by
  unfold adoptTarget
  refine growing_bind h fun val => ?_
  split <;> simp

theorem exprGrowing_plain {emit : Compile TypedVreg} (h : Growing emit) :
    ExprGrowing (.plain emit) := ⟨h, fun target => growing_adoptTarget h target⟩

theorem exprGrowing_emitLitInt (value : Int) : ExprGrowing (emitLitInt value) := by
  constructor
  · simp [emitLitInt]
  · intro target
    unfold emitLitInt
    refine growing_bind growing_allocVreg fun r => ?_
    simp

@[simp] theorem growing_nextConst :
    Growing (modifyState fun c => { c with nextConst := c.nextConst + 1 }) := fun _ =>
  .of_eq rfl rfl (Nat.le_refl _)

@[simp] theorem growing_emitLitStr (bytes : List Nat) :
    Growing (emitLitStr bytes) := by
  unfold emitLitStr
  repeat' first | with_reducible refine growing_bind ?_ fun _ => ?_ | split
  all_goals simp

@[simp] theorem growing_emitGlobalValue (sym : Symbol) :
    Growing (emitGlobalValue sym) := by
  unfold emitGlobalValue
  repeat' first | with_reducible refine growing_bind ?_ fun _ => ?_ | split
  all_goals simp

@[simp] theorem growing_emitIdent (name : String) :
    Growing (emitIdent name) := by
  unfold emitIdent
  repeat' first | with_reducible refine growing_bind ?_ fun _ => ?_ | split
  all_goals simp

@[simp] theorem growing_regSymbol (id : Nat) (rclass : RegClass) :
    Growing (regSymbol id rclass) := by
  unfold regSymbol
  repeat' first | with_reducible refine growing_bind ?_ fun _ => ?_ | split
  all_goals simp

@[simp] theorem growing_emitReg (id : Nat) (rclass : RegClass) :
    Growing (emitReg id rclass) := by
  unfold emitReg
  repeat' first | with_reducible refine growing_bind ?_ fun _ => ?_ | split
  all_goals simp

@[simp] theorem growing_emitFlag (id : Flag) :
    Growing (emitFlag id) := by
  unfold emitFlag
  repeat' first | with_reducible refine growing_bind ?_ fun _ => ?_ | split
  all_goals simp

@[simp] theorem growing_emitFarLit (seg off : Int) :
    Growing (emitFarLit seg off) := by
  unfold emitFarLit
  repeat' first | with_reducible refine growing_bind ?_ fun _ => ?_ | split
  all_goals simp

@[simp] theorem growing_emitRight (right : Expr) {emit : Compile TypedVreg} (h : Growing emit) :
    Growing (emitRight right emit) := by
  unfold emitRight
  repeat' first | with_reducible refine growing_bind ?_ fun _ => ?_ | split
  all_goals simp [h]

@[simp] theorem growing_shiftTypeError (type : Option Ty) :
    Growing (shiftTypeError type) := by
  unfold shiftTypeError
  repeat' first | with_reducible refine growing_bind ?_ fun _ => ?_ | split
  all_goals simp

@[simp] theorem growing_binopType (op : OpKind) (l r : Option Ty) :
    Growing (binopType op l r) := by
  unfold binopType
  repeat' first | with_reducible refine growing_bind ?_ fun _ => ?_ | split
  all_goals simp

@[simp] theorem growing_emitByteMul (op : OpKind) (dst : Int) (l : TypedVreg) (r : Arg)
    (resultType : Option Ty) : Growing (emitByteMul op dst l r resultType) := by
  unfold emitByteMul
  repeat' first | with_reducible refine growing_bind ?_ fun _ => ?_ | split
  all_goals simp

@[simp] theorem growing_binopTypeFor (op : OpKind) (l r target : Option Ty) :
    Growing (binopTypeFor op l r target) := by
  unfold binopTypeFor
  repeat' first | with_reducible refine growing_bind ?_ fun _ => ?_ | split
  all_goals simp

theorem exprGrowing_emitBinop (op : OpKind) (right : Expr) {l r : ExprEmit} (hl : ExprGrowing l)
    (hr : ExprGrowing r) : ExprGrowing (emitBinop op right l r) := by
  have htyped : Growing (emitBinopTyped op right l r) := by
    unfold emitBinopTyped
    repeat' first | with_reducible refine growing_bind ?_ fun _ => ?_ | split
    all_goals simp [hl.typed, hr.typed]
  refine ⟨htyped, fun target => ?_⟩
  show Growing (if _ then emitBinopFor op right l r target else _)
  refine growing_ite ?_ (growing_adoptTarget htyped target)
  unfold emitBinopFor
  repeat' first | with_reducible refine growing_bind ?_ fun _ => ?_ | split
  all_goals simp [hl.typedFor, hr.typedFor]

@[simp] theorem growing_negTypeError (type : Option Ty) :
    Growing (negTypeError type) := by
  unfold negTypeError
  repeat' first | with_reducible refine growing_bind ?_ fun _ => ?_ | split
  all_goals simp

@[simp] theorem growing_notTypeError (type : Option Ty) :
    Growing (notTypeError type) := by
  unfold notTypeError
  repeat' first | with_reducible refine growing_bind ?_ fun _ => ?_ | split
  all_goals simp

@[simp] theorem growing_emitNameAddr (op : UnopKind) (name : String) :
    Growing (emitNameAddr op name) := by
  unfold emitNameAddr
  repeat' first | with_reducible refine growing_bind ?_ fun _ => ?_ | split
  all_goals simp

@[simp] theorem growing_emitUnopValue (op : UnopKind) {emit : Compile TypedVreg}
    (h : Growing emit) : Growing (emitUnopValue op emit) := by
  unfold emitUnopValue
  repeat' first | with_reducible refine growing_bind ?_ fun _ => ?_ | split
  all_goals simp [h]

theorem exprGrowing_emitUnop (op : UnopKind) (operand : Expr) {emit : ExprEmit}
    (h : ExprGrowing emit) : ExprGrowing (emitUnop op operand emit) := by
  have htyped : Growing (emitUnopTyped op operand emit) := by
    unfold emitUnopTyped
    repeat' first | with_reducible refine growing_bind ?_ fun _ => ?_ | split
    all_goals simp [h.typed]
  refine ⟨htyped, fun target => ?_⟩
  show Growing (if _ then emitUnopFor op emit target else _)
  refine growing_ite ?_ (growing_adoptTarget htyped target)
  unfold emitUnopFor
  repeat' first | with_reducible refine growing_bind ?_ fun _ => ?_ | split
  all_goals simp [h.typedFor]

@[simp] theorem growing_emitScaledIndex (idx shift : Int) :
    Growing (emitScaledIndex idx shift) := by
  unfold emitScaledIndex
  repeat' first | with_reducible refine growing_bind ?_ fun _ => ?_ | split
  all_goals simp

@[simp] theorem growing_indexTypeErrors (arr idx : Option Ty) :
    Growing (indexTypeErrors arr idx) := by
  unfold indexTypeErrors
  repeat' first | with_reducible refine growing_bind ?_ fun _ => ?_ | split
  all_goals simp

@[simp] theorem growing_emitIndex {array index : ExprEmit} (ha : ExprGrowing array)
    (hi : ExprGrowing index) : Growing (emitIndex array index) := by
  unfold emitIndex
  repeat' first | with_reducible refine growing_bind ?_ fun _ => ?_ | split
  all_goals simp [ha.typed, hi.typed]

@[simp] theorem growing_emitCheckedIndex {array index : ExprEmit} (ha : ExprGrowing array)
    (hi : ExprGrowing index) :
    Growing (emitCheckedIndex array index) := by
  unfold emitCheckedIndex
  repeat' first | with_reducible refine growing_bind ?_ fun _ => ?_ | split
  all_goals simp [ha.typed, hi.typed]

@[simp] theorem growing_emitField {object : ExprEmit} (h : ExprGrowing object)
    (fieldName : String) : Growing (emitField object fieldName) := by
  unfold emitField
  repeat' first | with_reducible refine growing_bind ?_ fun _ => ?_ | split
  all_goals simp [h.typed]

@[simp] theorem growing_farHalf (off seg : Int) (fieldName : String) :
    Growing (farHalf off seg fieldName) := by
  unfold farHalf
  repeat' first | with_reducible refine growing_bind ?_ fun _ => ?_ | split
  all_goals simp

@[simp] theorem growing_emitFarComponent (obj : TypedVreg) (fieldName : String) :
    Growing (emitFarComponent obj fieldName) := by
  unfold emitFarComponent
  repeat' first | with_reducible refine growing_bind ?_ fun _ => ?_ | split
  all_goals simp

@[simp] theorem growing_emitRawField (objectExpr : Expr) {object : ExprEmit}
    (h : ExprGrowing object) (fieldName : String) :
    Growing (emitRawField objectExpr object fieldName) := by
  unfold emitRawField
  repeat' first | with_reducible refine growing_bind ?_ fun _ => ?_ | split
  all_goals simp [h.typed]

/-! ## Calls -/

@[simp] theorem growing_emitArgs : ∀ (params : List Ty) {emits : List ExprEmit},
    (∀ e ∈ emits, ExprGrowing e) → Growing (emitArgs params emits)
  | _, [], _ => growing_pure _
  | params, e :: rest, h => by
    have he := (h e (List.mem_cons_self ..)).typedFor params.head?
    have hrest := growing_emitArgs params.tail fun e he => h e (List.mem_cons_of_mem _ he)
    exact growing_bind he fun _ => growing_bind hrest fun _ => growing_pure _

@[simp] theorem growing_splitFarArgs : ∀ (params : List Ty) (args : List (Expr × TypedVreg)),
    Growing (splitFarArgs params args)
  | _, [] => growing_pure _
  | params, (argExpr, v) :: rest => by
    have hrest := growing_splitFarArgs params.tail rest
    unfold splitFarArgs
    repeat' first | with_reducible refine growing_bind ?_ fun _ => ?_ | split
    all_goals simp [hrest]

@[simp] theorem growing_emitPort (port : Expr) {emit : ExprEmit} (h : ExprGrowing emit) :
    Growing (emitPort port emit) := by
  unfold emitPort
  repeat' first | with_reducible refine growing_bind ?_ fun _ => ?_ | split
  all_goals simp [h.typed]

section Builtins

variable {args : List (Expr × ExprEmit)} (h : ∀ a ∈ args, ExprGrowing a.2)

include h

theorem growing_emitPortIn (op : Op) (type : Ty) : Growing (emitPortIn op type args) := by
  unfold emitPortIn
  repeat' first | with_reducible refine growing_bind ?_ fun _ => ?_ | split
  all_goals simp_all

theorem growing_emitPortOut (checkWord : Bool) : Growing (emitPortOut checkWord args) := by
  unfold emitPortOut
  repeat' first | with_reducible refine growing_bind ?_ fun _ => ?_ | split
  all_goals simp_all [ExprGrowing.typed]

theorem growing_emitAssume : Growing (emitAssume args) := by
  unfold emitAssume
  repeat' first | with_reducible refine growing_bind ?_ fun _ => ?_ | split
  all_goals simp_all [ExprGrowing.typed]

theorem growing_emitEarlyBuiltin {name : String} {m : Compile TypedVreg}
    (hm : emitEarlyBuiltin name args = some m) : Growing m := by
  unfold emitEarlyBuiltin at hm
  split_ifs at hm
  · cases hm
    exact growing_emitAssume h
  · cases hm
    exact growing_emitPortIn h _ _
  · cases hm
    exact growing_emitPortIn h _ _
  · cases hm
    exact growing_emitPortOut h _
  · cases hm
    exact growing_emitPortOut h _

end Builtins

@[simp] theorem growing_emitStringOp (op : Op) :
    Growing (emitStringOp op) := by
  unfold emitStringOp
  repeat' first | with_reducible refine growing_bind ?_ fun _ => ?_ | split
  all_goals simp

@[simp] theorem growing_emitBlockOp (op : Op) (second : String) (secondIsByte : Bool)
    (size a b : Int) :
    Growing (emitBlockOp op second secondIsByte size a b) := by
  unfold emitBlockOp
  repeat' first | with_reducible refine growing_bind ?_ fun _ => ?_ | split
  all_goals simp

@[simp] theorem growing_frameBuiltin (name : String) (op : Op) (dst : Int) :
    Growing (frameBuiltin name op dst) := by
  unfold frameBuiltin
  repeat' first | with_reducible refine growing_bind ?_ fun _ => ?_ | split
  all_goals simp

/-- A built-in function that prints something and returns a value. -/
theorem growing_result {m : Compile Unit} (h : Growing m) (dst : Int) (type : Ty) :
    Growing (do
      m
      tv dst (some type)) := growing_bind h fun _ => growing_tv _ _

/-- An expansion, if there is one. -/
def ExpansionGrowing (o : Option (Compile TypedVreg)) : Prop := ∀ m, o = some m → Growing m

theorem expansionGrowing_some {m : Compile TypedVreg} (h : Growing m) :
    ExpansionGrowing (some m) := fun _ hm => Option.some.inj hm ▸ h

theorem expansionGrowing_none : ExpansionGrowing none := fun _ hm => nomatch hm

theorem expansionGrowing_ite {p : Prop} [Decidable p] {o o' : Option (Compile TypedVreg)}
    (h : ExpansionGrowing o) (h' : ExpansionGrowing o') :
    ExpansionGrowing (if p then o else o') := by
  split_ifs
  · exact h
  · exact h'

theorem expansionGrowing_emitBuiltin (c : Compiler) (name : String) (dst : Int)
    (args : List TypedVreg) : ExpansionGrowing (emitBuiltin c name dst args) := by
  unfold emitBuiltin
  split
  · exact expansionGrowing_some (growing_result (growing_emitOp _ _) _ _)
  · dsimp only
    repeat' refine expansionGrowing_ite ?_ ?_
    all_goals first | exact expansionGrowing_none | refine expansionGrowing_some ?_
    all_goals try refine growing_result ?_ _ _
    all_goals repeat' first | with_reducible refine growing_bind ?_ fun _ => ?_ | split
    all_goals simp

@[simp] theorem growing_callErrors (fn : FunctionSig) (argc : Nat) :
    Growing (callErrors fn argc) := by
  unfold callErrors
  repeat' first | with_reducible refine growing_bind ?_ fun _ => ?_ | split
  all_goals simp

theorem growing_emitCall (func : Expr) (args : List Expr) {emits : List ExprEmit}
    (h : ∀ e ∈ emits, ExprGrowing e) : Growing (emitCall func args emits) := by
  have hzip : ∀ a ∈ args.zip emits, ExprGrowing a.2 := fun a ha => h _ (List.of_mem_zip ha).2
  unfold emitCall
  dsimp only
  split
  · rename_i m hm
    exact growing_emitEarlyBuiltin hzip hm
  · refine growing_bind growing_getState fun c => ?_
    refine growing_bind (growing_emitArgs _ h) fun vals => ?_
    refine growing_bind growing_allocVreg fun dst => ?_
    split
    · rename_i m hm
      exact expansionGrowing_emitBuiltin _ _ _ _ m hm
    · repeat' first | with_reducible refine growing_bind ?_ fun _ => ?_ | split
      all_goals simp

theorem growing_emitIndirectCall {addr : ExprEmit} (ha : ExprGrowing addr)
    (externName moduleName : String) (args : List Expr) {emits : List ExprEmit}
    (h : ∀ e ∈ emits, ExprGrowing e) :
    Growing (emitIndirectCall addr externName moduleName args emits) := by
  unfold emitIndirectCall
  repeat' first | with_reducible refine growing_bind ?_ fun _ => ?_ | split
  all_goals simp [ha.typed, growing_emitArgs _ h]

theorem growing_emitNearIndirectCall {addr : ExprEmit} (ha : ExprGrowing addr)
    (externName : String) (args : List Expr) {emits : List ExprEmit}
    (h : ∀ e ∈ emits, ExprGrowing e) :
    Growing (emitNearIndirectCall addr externName args emits) := by
  unfold emitNearIndirectCall
  repeat' first | with_reducible refine growing_bind ?_ fun _ => ?_ | split
  all_goals simp [ha.typed, growing_emitArgs _ h]

/-! ## All expressions -/

theorem exprGrowing_emitCast (targetType : Ty) {operand : ExprEmit} (h : ExprGrowing operand) :
    ExprGrowing (emitCast targetType operand) := by
  have hcast := growing_bind (h.typedFor (some targetType)) fun val =>
    growing_tv val.vreg (some targetType)
  refine ⟨hcast, fun target => ?_⟩
  unfold emitCast
  dsimp only
  split
  · exact growing_bind (h.typedFor _) fun _ => growing_pure _
  · exact growing_adoptTarget hcast target

mutual

/-- **Expressions keep the vregs of variables apart.** -/
theorem emitExpr_growing : ∀ e : Expr, ExprGrowing (emitExpr e)
  | .litInt value => exprGrowing_emitLitInt value
  | .litStr bytes => exprGrowing_plain (growing_emitLitStr bytes)
  | .ident name => exprGrowing_plain (growing_emitIdent name)
  | .reg id _ => exprGrowing_plain (growing_emitReg id _)
  | .sreg id => exprGrowing_plain (growing_emitReg id _)
  | .flag id => exprGrowing_plain (growing_emitFlag id)
  | .binop op left right =>
    exprGrowing_emitBinop op right (emitExpr_growing left) (emitExpr_growing right)
  | .unop op operand => exprGrowing_emitUnop op operand (emitExpr_growing operand)
  | .call func args => exprGrowing_plain (growing_emitCall func args (emitExprs_growing args))
  | .index array index =>
    exprGrowing_plain (growing_emitIndex (emitExpr_growing array) (emitExpr_growing index))
  | .checkedIndex array index =>
    exprGrowing_plain (growing_emitCheckedIndex (emitExpr_growing array) (emitExpr_growing index))
  | .field object fieldName =>
    exprGrowing_plain (growing_emitField (emitExpr_growing object) fieldName)
  | .rawField object fieldName =>
    exprGrowing_plain (growing_emitRawField object (emitExpr_growing object) fieldName)
  | .farLit seg off => exprGrowing_plain (growing_emitFarLit seg off)
  | .cast operand targetType => exprGrowing_emitCast targetType (emitExpr_growing operand)
  | .indirectCall addr externName moduleName args =>
    exprGrowing_plain (growing_emitIndirectCall (emitExpr_growing addr) externName moduleName args
      (emitExprs_growing args))
  | .nearIndirectCall addr externName args =>
    exprGrowing_plain (growing_emitNearIndirectCall (emitExpr_growing addr) externName args
      (emitExprs_growing args))
  | .deref ptr seg =>
    ⟨growing_emitDerefLoad ptr seg (emitExpr_growing ptr).typed none,
      fun target => growing_emitDerefLoad ptr seg (emitExpr_growing ptr).typed target⟩

theorem emitExprs_growing : ∀ es : List Expr, ∀ e ∈ emitExprs es, ExprGrowing e
  | [], _, h => absurd h List.not_mem_nil
  | e :: es, e', h => by
    rw [emitExprs, List.mem_cons] at h
    rcases h with rfl | h
    · exact emitExpr_growing e
    · exact emitExprs_growing es e' h

end

@[simp] theorem growing_emitExprTyped (e : Expr) : Growing (emitExprTyped e) :=
  (emitExpr_growing e).typed

@[simp] theorem growing_emitExprTypedFor (e : Expr) (target : Option Ty) :
    Growing (emitExprTypedFor e target) := (emitExpr_growing e).typedFor target

@[simp] theorem growing_emitInitializerExprTyped (e : Expr) (target : Option Ty) :
    Growing (emitInitializerExprTyped e target) := by
  unfold emitInitializerExprTyped
  repeat' first | with_reducible refine growing_bind ?_ fun _ => ?_ | split
  all_goals simp

/-! ## Declarations and assignments -/

@[simp] theorem growing_declare (type : Ty) (name : DeclName) (isConst : Bool) :
    Growing (declare type name isConst) := by
  unfold declare
  refine growing_bind growing_getState fun c => ?_
  refine growing_newSymbol (fun _ => rfl) (fun _ => rfl) fun v _ => ?_
  repeat' first | with_reducible refine growing_bind ?_ fun _ => ?_ | split
  all_goals simp

@[simp] theorem growing_emitDeclDirectives (sym : Symbol) (type : Ty) (hasInit : Bool) :
    Growing (emitDeclDirectives sym type hasInit) := by
  unfold emitDeclDirectives
  repeat' first | with_reducible refine growing_bind ?_ fun _ => ?_ | split
  all_goals simp

@[simp] theorem growing_emitInitStore (sym : Symbol) (type : Ty) (val : TypedVreg) :
    Growing (emitInitStore sym type val) := by
  unfold emitInitStore
  split
  · repeat' first | with_reducible refine growing_bind ?_ fun _ => ?_ | split
    all_goals simp
  · refine growing_bind (growing_emitOp _ _) fun _ => ?_
    split
    · split
      · refine growing_newSeg _ fun seg _ => ?_
        simp
      · simp
    · simp

@[simp] theorem growing_setType (vreg : Int) (type : Ty) :
    Growing (modifyState (updateSymbol vreg fun s => { s with type := some type })) :=
  fun c => grows_updateSymbol vreg (f := fun s => { s with type := some type }) (fun _ => rfl) c

@[simp] theorem growing_emitVardecl (type : Ty) (name : DeclName) (init : Option Expr)
    (isConst : Bool) : Growing (emitVardecl type name init isConst) := by
  unfold emitVardecl
  repeat' first | with_reducible refine growing_bind ?_ fun _ => ?_ | split
  all_goals simp

@[simp] theorem growing_emitGlobalStore (sym : Symbol) (vreg : Int) :
    Growing (emitGlobalStore sym vreg) := by
  unfold emitGlobalStore
  repeat' first | with_reducible refine growing_bind ?_ fun _ => ?_ | split
  all_goals simp

@[simp] theorem growing_assignTypeError (name : String) (type valType : Option Ty) :
    Growing (assignTypeError name type valType) := growing_cerr _

@[simp] theorem growing_checkAssign (name : String) (type valType : Option Ty) :
    Growing (checkAssign name type valType) := by
  unfold checkAssign
  repeat' first | with_reducible refine growing_bind ?_ fun _ => ?_ | split
  all_goals simp

@[simp] theorem growing_regTarget (id : Nat) (rclass : RegClass) :
    Growing (regTarget id rclass) := by
  unfold regTarget
  repeat' first | with_reducible refine growing_bind ?_ fun _ => ?_ | split
  all_goals simp

@[simp] theorem growing_emitLiteralStore (sym : Symbol) (value : Int) :
    Growing (emitLiteralStore sym value) := by
  unfold emitLiteralStore
  repeat' first | with_reducible refine growing_bind ?_ fun _ => ?_ | split
  all_goals simp

@[simp] theorem growing_emitValueStore (sym : Symbol) (val : TypedVreg) :
    Growing (emitValueStore sym val) := by
  unfold emitValueStore
  repeat' first | with_reducible refine growing_bind ?_ fun _ => ?_ | split
  all_goals simp

@[simp] theorem growing_emitAssignSimple (t : Expr) (val : TypedVreg) :
    Growing (emitAssignSimple t val) := by
  unfold emitAssignSimple
  repeat' first | with_reducible refine growing_bind ?_ fun _ => ?_ | split
  all_goals simp

@[simp] theorem growing_allocVregs : ∀ n, Growing (allocVregs n)
  | 0 => growing_pure _
  | n + 1 =>
    growing_bind growing_allocVreg fun _ => growing_bind (growing_allocVregs n) fun _ =>
      growing_pure _

@[simp] theorem growing_emitReturnTypes : ∀ l : List (Int × Option Ty),
    Growing (emitReturnTypes l)
  | [] => growing_pure _
  | (v, type) :: rest => by
    have hrest := growing_emitReturnTypes rest
    unfold emitReturnTypes
    repeat' first | with_reducible refine growing_bind ?_ fun _ => ?_ | split
    all_goals simp [hrest]

@[simp] theorem growing_emitTargets : ∀ l : List (Expr × Int × Option Ty),
    Growing (emitTargets l)
  | [] => growing_pure _
  | (t, v, type) :: rest =>
    growing_bind (growing_tv v type) fun val => growing_bind (growing_emitAssignSimple t val)
      fun _ => growing_emitTargets rest

/-- The arguments of a call. -/
@[simp] theorem growing_callArgs (params : List Ty) (args : List Expr) :
    Growing (emitArgs params (emitExprs args)) := growing_emitArgs _ (emitExprs_growing args)

@[simp] theorem growing_emitMultiCallAssign (targets : List Expr) (value : Expr) :
    Growing (emitMultiCallAssign targets value) := by
  unfold emitMultiCallAssign
  repeat' first | with_reducible refine growing_bind ?_ fun _ => ?_ | split
  all_goals simp

@[simp] theorem growing_literalTarget (t : Expr) :
    Growing (literalTarget t) := by
  unfold literalTarget
  repeat' first | with_reducible refine growing_bind ?_ fun _ => ?_ | split
  all_goals simp

@[simp] theorem growing_emitIndexStore (array index : Expr) (val : TypedVreg) :
    Growing (emitIndexStore array index val) := by
  unfold emitIndexStore
  repeat' first | with_reducible refine growing_bind ?_ fun _ => ?_ | split
  all_goals simp

@[simp] theorem growing_emitTargetStore (t : Expr) (val : TypedVreg) :
    Growing (emitTargetStore t val) := by
  unfold emitTargetStore
  repeat' first | with_reducible refine growing_bind ?_ fun _ => ?_ | split
  all_goals simp

@[simp] theorem growing_emitGeneralAssign (t value : Expr) :
    Growing (emitGeneralAssign t value) := by
  unfold emitGeneralAssign
  repeat' first | with_reducible refine growing_bind ?_ fun _ => ?_ | split
  all_goals simp

@[simp] theorem growing_emitAssignOne (t value : Expr) :
    Growing (emitAssignOne t value) := by
  unfold emitAssignOne
  repeat' first | with_reducible refine growing_bind ?_ fun _ => ?_ | split
  all_goals simp

@[simp] theorem growing_emitAssign (targets : List Expr) (value : Expr) :
    Growing (emitAssign targets value) := by
  unfold emitAssign
  repeat' first | with_reducible refine growing_bind ?_ fun _ => ?_ | split
  all_goals simp

@[simp] theorem growing_emitToggleAssign (target value : Expr) :
    Growing (emitToggleAssign target value) := by
  unfold emitToggleAssign
  repeat' first | with_reducible refine growing_bind ?_ fun _ => ?_ | split
  all_goals simp

/-! ## Statements -/

/-- The emission of a statement leads from every state to a later one. -/
def StmtGrowing {α : Type} (m : EmitStmt α) : Prop := ∀ s, Grows s.comp (m s).state.comp

section StmtGrowing

open EmitStmt

variable {α β : Type}

@[simp] theorem stmtGrowing_pure (a : α) : StmtGrowing (pure a) := fun s => .refl s.comp

@[simp] theorem stmtGrowing_bind {m : EmitStmt α} {f : α → EmitStmt β} (hm : StmtGrowing m)
    (hf : ∀ a, StmtGrowing (f a)) : StmtGrowing (m >>= f) := fun s => (hm s).trans (hf _ _)

@[simp] theorem stmtGrowing_printLine (l : Line) : StmtGrowing (printLine l) := fun s =>
  .refl s.comp

@[simp] theorem stmtGrowing_lift {m : Compile α} (h : Growing m) : StmtGrowing (lift m) := fun s =>
  h s.comp

@[simp] theorem stmtGrowing_allocLabel : StmtGrowing allocLabel := fun s => .refl s.comp

@[simp] theorem stmtGrowing_getFnState : StmtGrowing getFnState := fun s => .refl s.comp

@[simp] theorem stmtGrowing_jumpTo (j : Jump) (label : Nat) : StmtGrowing (jumpTo j label) :=
  stmtGrowing_printLine _

@[simp] theorem stmtGrowing_placeLabel (label : Nat) : StmtGrowing (placeLabel label) :=
  stmtGrowing_printLine _

theorem stmtGrowing_inLoop (b c : Nat) {m : EmitStmt Unit} (h : StmtGrowing m) :
    StmtGrowing (inLoop b c m) := fun s =>
  h { s with loopDepth := s.loopDepth + 1, loopBreakLabel := b, loopContinueLabel := c }

theorem stmtGrowing_inScope {m : EmitStmt Unit} (h : StmtGrowing m) : StmtGrowing (inScope m) :=
  stmtGrowing_bind (fun s => grows_pushScope s.comp) fun _ =>
    stmtGrowing_bind h fun _ s => grows_popScope s.comp

@[simp] theorem growing_emitLineNote (line : Nat) : Growing (emitLineNote line) := by
  unfold emitLineNote
  refine growing_bind growing_getState fun c => ?_
  split
  · exact growing_bind (growing_print _) fun _ _ => .of_eq rfl rfl (Nat.le_refl _)
  · exact growing_pure _

@[simp] theorem growing_emitCond (what : String) (cond : Expr) : Growing (emitCond what cond) := by
  unfold emitCond
  repeat' first | with_reducible refine growing_bind ?_ fun _ => ?_ | split
  all_goals simp

@[simp] theorem growing_emitReturnValues : ∀ (types : List Ty) (i : Nat) (es : List Expr),
    Growing (emitReturnValues types i es)
  | _, _, [] => growing_pure _
  | types, i, e :: rest => by
    have hrest := growing_emitReturnValues types.tail (i + 1) rest
    unfold emitReturnValues
    repeat' first | with_reducible refine growing_bind ?_ fun _ => ?_ | split
    all_goals simp [hrest]

@[simp] theorem growing_emitReturn (exprs : List Expr) : Growing (emitReturn exprs) := by
  unfold emitReturn
  refine growing_bind growing_getState fun c => ?_
  dsimp only
  split
  · split <;> simp
  · repeat' first | with_reducible refine growing_bind ?_ fun _ => ?_ | split
    all_goals simp

@[simp] theorem growing_checkForEnd (stop : Expr) : Growing (checkForEnd stop) := by
  unfold checkForEnd
  repeat' first | with_reducible refine growing_bind ?_ fun _ => ?_ | split
  all_goals simp

/-- The counter of a `for` is a new vreg, and it is no variable yet. -/
theorem emitForStart_grows (start : Expr) (c : Compiler) :
    Grows c (emitForStart start c).state ∧
      (emitForStart start c).value = c.nextVreg ∧
      c.nextVreg < (emitForStart start c).state.nextVreg ∧
      (WellScoped c → c.nextVreg ∉ (emitForStart start c).state.localVregs) := by
  have hstate : (emitForStart start c).value = c.nextVreg ∧
      Grows { c with nextVreg := c.nextVreg + 1 } (emitForStart start c).state := by
    unfold emitForStart
    cases litIntValue start with
    | some n => exact ⟨rfl, .refl _⟩
    | none => exact ⟨rfl, growing_emitExprTyped start _⟩
  obtain ⟨hvalue, hrest⟩ := hstate
  refine ⟨(growing_allocVreg c).trans hrest, hvalue, ?_, ?_⟩
  · have hnext : c.nextVreg + 1 ≤ (emitForStart start c).state.nextVreg := hrest.next
    omega
  · intro h hv
    rcases hrest.new _ hv with hv | hv
    · exact h.next_notMem hv
    · have : c.nextVreg + 1 ≤ c.nextVreg := hv
      omega

theorem emitTailcall_growing (e : Expr) : StmtGrowing (emitTailcall e) := by
  unfold emitTailcall
  refine stmtGrowing_bind stmtGrowing_getFnState fun s => ?_
  split
  · simp
  · refine stmtGrowing_bind (stmtGrowing_lift ?_) fun _ => ?_
    · repeat' first | with_reducible refine growing_bind ?_ fun _ => ?_ | split
      all_goals simp
    · split
      simp
  · simp

theorem emitGoto_growing (label : String) : StmtGrowing (emitGoto label) := by
  unfold emitGoto
  refine stmtGrowing_bind stmtGrowing_getFnState fun s => ?_
  split <;> simp

theorem emitLoopJump_growing (what : String) (label : FnState → Nat) :
    StmtGrowing (emitLoopJump what label) := by
  unfold emitLoopJump
  refine stmtGrowing_bind stmtGrowing_getFnState fun s => ?_
  split <;> simp

theorem emitFlagTest_growing (condition : FlagExpr) (skip : Nat) :
    StmtGrowing (emitFlagTest condition skip) := by
  have hjump : ∀ e set label, StmtGrowing (jumpOnFlag e set label) := by
    intro e set label
    unfold jumpOnFlag
    split <;> simp
  unfold emitFlagTest
  split
  · simp
  · simp
  · simp
  · repeat' refine stmtGrowing_bind ?_ fun _ => ?_
    all_goals simp [hjump]
  · repeat' refine stmtGrowing_bind ?_ fun _ => ?_
    all_goals simp [hjump]
  · repeat' refine stmtGrowing_bind ?_ fun _ => ?_
    all_goals simp [hjump]

theorem emitTrap_growing (condition : FlagExpr) : StmtGrowing (emitTrap condition) := by
  unfold emitTrap
  split <;> simp

mutual

theorem emitStmt_growing : ∀ st : Stmt, StmtGrowing (emitStmt st)
  | .vardecl .. => by
    unfold emitStmt
    exact stmtGrowing_bind (by simp) fun _ => by simp
  | .assign _ _ _ flagChecks => by
    unfold emitStmt
    refine stmtGrowing_bind (by simp) fun _ => stmtGrowing_bind (by simp) fun hasChecks => ?_
    split
    · exact emitFlagChecks_growing flagChecks
    · simp
  | .toggleAssign _ _ _ flagChecks => by
    unfold emitStmt
    exact stmtGrowing_bind (by simp) fun _ => stmtGrowing_bind (by simp) fun _ =>
      emitFlagChecks_growing flagChecks
  | .expr .. => by
    unfold emitStmt
    exact stmtGrowing_bind (by simp) fun _ => stmtGrowing_bind (by simp) fun _ => by simp
  | .ifStmt _ _ thenBody elseBody => by
    have hthen := stmtGrowing_inScope (emitStmts_growing thenBody)
    have helse := stmtGrowing_inScope (emitStmts_growing elseBody)
    unfold emitStmt
    repeat' first | with_reducible refine stmtGrowing_bind ?_ fun _ => ?_ | split
    all_goals simp [hthen, helse]
  | .whileStmt _ _ body => by
    have hbody := fun b c => stmtGrowing_inLoop b c (stmtGrowing_inScope (emitStmts_growing body))
    unfold emitStmt
    repeat' first | with_reducible refine stmtGrowing_bind ?_ fun _ => ?_ | split
    all_goals simp [hbody]
  | .forStmt _ start _ body => by
    unfold emitStmt
    refine stmtGrowing_bind (by simp) fun _ => stmtGrowing_bind (by simp) fun _ => ?_
    refine stmtGrowing_bind (by simp) fun top => stmtGrowing_bind (by simp) fun e s => ?_
    -- the counter becomes a variable of the body
    obtain ⟨hstart, hvalue, hlt, hnew⟩ := emitForStart_grows start s.comp
    let c := (emitForStart start s.comp).state
    have hadd : Grows s.comp (addSymbol (cxSymbol s.comp.nextVreg) (pushScope c)) := by
      refine (hstart.trans (grows_pushScope c)).addSymbol rfl ?_ hlt (Int.le_refl _)
      exact hnew
    have hbody := emitStmts_growing body { s with
      comp := addSymbol (cxSymbol s.comp.nextVreg) (pushScope c)
      loopDepth := s.loopDepth + 1
      loopBreakLabel := e
      loopContinueLabel := top }
    have hall := (hadd.trans hbody).trans (grows_popScope _)
    rw [← hvalue] at hall
    exact hall
  | .ret .. => by
    unfold emitStmt
    exact stmtGrowing_bind (by simp) fun _ => stmtGrowing_bind (by simp) fun _ => by simp
  | .breakStmt _ => by
    unfold emitStmt
    exact stmtGrowing_bind (by simp) fun _ => emitLoopJump_growing _ _
  | .continueStmt _ => by
    unfold emitStmt
    exact stmtGrowing_bind (by simp) fun _ => emitLoopJump_growing _ _
  | .goto _ label => by
    unfold emitStmt
    exact stmtGrowing_bind (by simp) fun _ => emitGoto_growing label
  | .tailcall _ e => by
    unfold emitStmt
    exact stmtGrowing_bind (by simp) fun _ => emitTailcall_growing e
  | .label .. => by
    unfold emitStmt
    exact stmtGrowing_bind (by simp) fun _ => by simp
  | .asm .. => by
    unfold emitStmt
    exact stmtGrowing_bind (by simp) fun _ => by simp

/-- **Statements keep the vregs of variables apart.** -/
theorem emitStmts_growing : ∀ sts : List Stmt, StmtGrowing (emitStmts sts)
  | [] => stmtGrowing_pure ()
  | st :: rest => stmtGrowing_bind (emitStmt_growing st) fun _ => emitStmts_growing rest

theorem emitFlagChecks_growing : ∀ cases : List (FlagCase Stmt),
    StmtGrowing (emitFlagChecks cases)
  | [] => stmtGrowing_pure ()
  | c :: rest => stmtGrowing_bind (emitFlagCase_growing c) fun _ => emitFlagChecks_growing rest

theorem emitFlagCase_growing : ∀ c : FlagCase Stmt, StmtGrowing (emitFlagCase c)
  | ⟨condition, none⟩ =>
    stmtGrowing_bind (by simp) fun skip =>
      stmtGrowing_bind (emitFlagTest_growing condition skip) fun _ =>
        stmtGrowing_bind (emitTrap_growing condition) fun _ => by simp
  | ⟨condition, some body⟩ =>
    stmtGrowing_bind (by simp) fun skip =>
      stmtGrowing_bind (emitFlagTest_growing condition skip) fun _ =>
        stmtGrowing_bind (stmtGrowing_inScope (emitStmts_growing body)) fun _ => by simp

end

end StmtGrowing

end Nib.Compile
