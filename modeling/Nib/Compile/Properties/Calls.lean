import Mathlib
import Nib.Compile.Spec.Calls
import Nib.Compile.Properties.Growing

/-!
# Calls and their callees

* `passedKinds_iff` — the words that are passed are those that are expected
* `splitFarArgs_carries` — where the vregs of a call line come from
* `emit_written` — every kind of call writes its line
* `rejected_of_not_counted` — the counts that are compared
* `call_agrees` — when a call agrees with its callee
-/

namespace Nib.Compile

open Compile EmitStmt

/-! ## Words -/

theorem whole_ne_far {a : Option Ty} {ks ks' : List IrKind} :
    wholeKind a :: ks ≠ .farOff :: ks' := by
  intro h
  have hk := (List.cons.inj h).1
  unfold wholeKind at hk
  split at hk <;> cases hk

theorem wholeKind_eq {a : Option Ty} {cls : IrClass} :
    wholeKind a = .value cls ↔ a ≠ some .far ∧ argClass a = cls := by
  unfold wholeKind
  by_cases ha : a = some .far
  · rw [if_pos ha]
    exact iff_of_false nofun fun h => h.1 ha
  · rw [if_neg ha, IrKind.value.injEq]
    exact ⟨fun h => ⟨ha, h⟩, And.right⟩

/-- **The words are those of the header** exactly when the arguments fit the parameters. -/
theorem passedKinds_iff : ∀ {known params : List Ty} {types : List (Option Ty)},
    passedKinds known types = irParams params ↔ FitsArgs known params types
  | _, [], [] => by simp [passedKinds, irParams, FitsArgs]
  | _, t :: params, [] => by
    have hne : irParams (t :: params) ≠ [] := by
      unfold irParams
      rw [List.flatMap_cons]
      split <;> exact List.cons_ne_nil _ _
    exact ⟨fun h => absurd h.symm hne, fun h => h.elim⟩
  | known, [], a :: types => by
    have hne : passedKinds known (a :: types) ≠ [] := by
      unfold passedKinds splitKinds
      split
      · split <;> exact List.cons_ne_nil _ _
      · exact List.cons_ne_nil _ _
    exact ⟨fun h => absurd h hne, fun h => h.elim⟩
  | known, t :: params, a :: types => by
    have ih := @passedKinds_iff known.tail params types
    have hparams : irParams (t :: params) =
        (if t = .far then [.farOff, .farSeg] else [.value (irClass t)]) ++ irParams params :=
      List.flatMap_cons ..
    rw [passedKinds, hparams, FitsArgs]
    by_cases hk : known.head? = some .far
    · rw [if_pos hk]
      by_cases ht : t = .far
      · rw [if_pos ht]
        unfold splitKinds
        by_cases ha : a = some .far
        · rw [if_pos ha, List.append_cancel_left_eq, ih]
          subst ht
          subst ha
          simp [hk, FitsParam]
        · rw [if_neg ha]
          refine ⟨fun h => ?_, fun ⟨_, ⟨hfar, _⟩, _⟩ => absurd (hfar.mpr ht) ha⟩
          cases (List.cons.inj h).1
      · rw [if_neg ht]
        refine ⟨fun h => ?_, fun h => absurd (h.1.mp hk) ht⟩
        unfold splitKinds at h
        split at h <;> cases (List.cons.inj h).1
    · rw [if_neg hk]
      by_cases ht : t = .far
      · rw [if_pos ht]
        exact ⟨fun h => absurd h whole_ne_far, fun h => absurd (h.1.mpr ht) hk⟩
      · rw [if_neg ht]
        show wholeKind a :: passedKinds known.tail types = .value (irClass t) :: irParams params ↔ _
        rw [List.cons.injEq, ih, wholeKind_eq]
        constructor
        · rintro ⟨⟨hne, hcls⟩, hrest⟩
          exact ⟨iff_of_false hk ht, ⟨iff_of_false hne ht, fun _ => hcls⟩, hrest⟩
        · rintro ⟨-, ⟨hfar, hcls⟩, hrest⟩
          exact ⟨⟨fun h => ht (hfar.mp h), hcls ht⟩, hrest⟩

/-! ## Vregs -/

theorem farSymbol_congr {c c' : Compiler} (h : c'.scopes = c.scopes) (e : Expr) :
    farSymbol c' e = farSymbol c e := by
  unfold farSymbol symLookup
  rw [h]

theorem farSymbol_of_scopes {c c' : Compiler} {e : Expr} {p : Int × Int}
    (h : c'.scopes = c.scopes) (hf : farSymbol c' e = some p) : farSymbol c e = some p := by
  rwa [farSymbol_congr h] at hf

/-- **Every vreg of a call line comes from its argument**, in order. -/
theorem splitFarArgs_carries {cs : Compiler} {lines : List Line} :
    ∀ {known : List Ty} {args : List (Expr × TypedVreg)} {c : Compiler}, c.scopes = cs.scopes →
      (∀ i ∈ (splitFarArgs known args c).lines, .instr i ∈ lines) →
      Carries cs lines known args (splitFarArgs known args c).value
  | known, [], _, _, _ => .nil known
  | known, (e, v) :: rest, c, hc, hlines => by
    by_cases hk : known.head? = some .far
    · -- The argument is split: where the halves come from depends on its vregs.
      cases hseg : v.vregSeg with
      | some seg =>
        have heq : splitFarArgs known ((e, v) :: rest) c =
            ⟨v.vreg :: seg :: (splitFarArgs known.tail rest c).value,
              (splitFarArgs known.tail rest c).lines, (splitFarArgs known.tail rest c).state⟩ := by
          simp [splitFarArgs, hk, hseg, bind, pure, getState]
        rw [heq] at hlines ⊢
        exact .split hk (.own seg hseg) (splitFarArgs_carries hc hlines)
      | none =>
        cases hsym : farSymbol c e with
        | some p =>
          obtain ⟨off, seg⟩ := p
          have heq : splitFarArgs known ((e, v) :: rest) c =
              ⟨off :: seg :: (splitFarArgs known.tail rest c).value,
                (splitFarArgs known.tail rest c).lines,
                (splitFarArgs known.tail rest c).state⟩ := by
            simp [splitFarArgs, hk, hseg, hsym, bind, pure, getState]
          rw [heq] at hlines ⊢
          exact .split hk (.symbol off seg (farSymbol_of_scopes hc hsym))
            (splitFarArgs_carries hc hlines)
        | none =>
          have heq : splitFarArgs known ((e, v) :: rest) c =
              ⟨c.nextVreg :: (c.nextVreg + 1) ::
                  (splitFarArgs known.tail rest (emitFarHalves v.vreg c).state).value,
                .op .farOff [.vreg c.nextVreg, .vreg v.vreg] ::
                  .op .farSeg [.vreg (c.nextVreg + 1), .vreg v.vreg] ::
                  (splitFarArgs known.tail rest (emitFarHalves v.vreg c).state).lines,
                (splitFarArgs known.tail rest (emitFarHalves v.vreg c).state).state⟩ := by
            simp [splitFarArgs, hk, hseg, hsym, bind, pure, getState, emitFarHalves, allocVreg,
              emitOp, print]
          rw [heq] at hlines ⊢
          have hoff := hlines _ List.mem_cons_self
          have hsegLine := hlines _ (List.mem_cons_of_mem _ List.mem_cons_self)
          exact .split hk (.memory _ _ hoff hsegLine)
            (splitFarArgs_carries (c := (emitFarHalves v.vreg c).state) hc
              fun i hi => hlines i (List.mem_cons_of_mem _ (List.mem_cons_of_mem _ hi)))
    · have heq : splitFarArgs known ((e, v) :: rest) c =
          ⟨v.vreg :: (splitFarArgs known.tail rest c).value,
            (splitFarArgs known.tail rest c).lines, (splitFarArgs known.tail rest c).state⟩ := by
        simp [splitFarArgs, hk, bind, pure, getState]
      rw [heq] at hlines ⊢
      exact .whole hk (splitFarArgs_carries hc hlines)

/-- A call that splits nothing passes the first vreg of each argument. -/
theorem carries_whole {cs : Compiler} {lines : List Line} :
    ∀ {args : List Expr} {vals : List TypedVreg}, args.length = vals.length →
      Carries cs lines [] (args.zip vals) (vals.map TypedVreg.vreg)
  | [], [], _ => .nil []
  | _ :: _, _ :: _, h => .whole nofun (carries_whole (Nat.succ.inj h))

theorem emitExprs_length : ∀ es : List Expr, (emitExprs es).length = es.length
  | [] => rfl
  | _ :: es => congrArg Nat.succ (emitExprs_length es)

theorem emitArgs_length : ∀ (params : List Ty) (emits : List ExprEmit) (c : Compiler),
    (emitArgs params emits c).value.length = emits.length
  | _, [], _ => rfl
  | params, a :: rest, c =>
    congrArg Nat.succ (emitArgs_length params.tail rest (a.typedFor params.head? c).state)

/-! ## Lines -/

theorem mem_lines_left {α β : Type} {m : Compile α} {f : α → Compile β} {c : Compiler} {i : Instr}
    (h : i ∈ (m c).lines) : i ∈ ((m >>= f) c).lines := List.mem_append_left _ h

theorem mem_lines_right {α β : Type} {m : Compile α} {f : α → Compile β} {c : Compiler} {i : Instr}
    (h : i ∈ (f (m c).value (m c).state).lines) : i ∈ ((m >>= f) c).lines :=
  List.mem_append_right _ h

theorem mem_emitOp (o : Op) (args : List Arg) (c : Compiler) :
    .op o args ∈ (emitOp o args c).lines := List.mem_singleton.mpr rfl

theorem callErrors_scopes (fn : FunctionSig) (argc : Nat) (c : Compiler) :
    (callErrors fn argc c).state.scopes = c.scopes := by
  unfold callErrors
  by_cases hn : fn.paramTypes.length ≠ argc <;> by_cases hr : fn.returnTypes.length > 1 <;>
    simp [hn, hr, bind, pure, cerr, modifyState]

theorem allocVregs_length : ∀ (n : Nat) (c : Compiler), (allocVregs n c).value.length = n
  | 0, _ => rfl
  | n + 1, c => congrArg Nat.succ (allocVregs_length n (allocVreg c).state)

theorem emitExprTyped_call (func : Expr) (args : List Expr) :
    emitExprTyped (.call func args) = emitCall func args (emitExprs args) := by
  simp only [emitExprTyped, emitExpr, ExprEmit.plain]

/-- The errors of a call of a known function. -/
def checkCall (fi : Option FunctionSig) (argc : Nat) : Compile Unit :=
  match fi with
  | some fn => callErrors fn argc
  | none => pure ()

theorem checkCall_scopes (fi : Option FunctionSig) (argc : Nat) (c : Compiler) :
    (checkCall fi argc c).state.scopes = c.scopes := by
  cases fi with
  | none => rfl
  | some fn => exact callErrors_scopes fn argc c

theorem emitCall_eq {name : String} {args : List Expr} {emits : List ExprEmit}
    (he : emitEarlyBuiltin name (args.zip emits) = none)
    (hb : ∀ c dst vals, emitBuiltin c name dst vals = none) :
    emitCall (.ident name) args emits = (do
      let c ← getState
      let fi := findFunction c name
      let vals ← emitArgs (calleeParams fi) emits
      let dst ← allocVreg
      checkCall fi args.length
      let irArgs ← splitFarArgs (calleeParams fi) (args.zip vals)
      emitOp .call ([.vreg dst, .name name] ++ vregArgs irArgs)
      tv dst (calleeReturn fi)) := by
  unfold emitCall
  simp only [calleeName, he, hb]
  funext c
  cases h : findFunction c name <;> simp [bind, getState, h, checkCall, pure]

/-- How a call line is written: the arguments are split in a compiler with the variables of
`reached`, and the line passes the vregs. -/
def Splits (site : CallSite) (c : Compiler) (instrs : List Instr) (op : List Int → Instr → Prop) :
    Prop :=
  ∃ c', c'.scopes = (site.reached c).scopes ∧
    (∀ i ∈ (splitFarArgs (site.known c) (site.args.zip (site.vals c)) c').lines, i ∈ instrs) ∧
    ∃ i ∈ instrs, op (splitFarArgs (site.known c) (site.args.zip (site.vals c)) c').value i

theorem splits_call {name : String} {args : List Expr} {c : Compiler}
    (h : (CallSite.call name args).IsCall c) :
    Splits (.call name args) c (emitExprTyped (.call (.ident name) args) c).lines fun irArgs i =>
      ∃ dst, i = .op .call ([.vreg dst, .name name] ++ vregArgs irArgs) := by
  rw [emitExprTyped_call, emitCall_eq h.1 h.2]
  exact ⟨(checkCall (findFunction c name) args.length (allocVreg
    (CallSite.reached (.call name args) c)).state).state, checkCall_scopes _ _ _,
    fun i hi => mem_lines_right (mem_lines_right (mem_lines_right (mem_lines_right
      (mem_lines_left hi)))),
    _, mem_lines_right (mem_lines_right (mem_lines_right (mem_lines_right
      (mem_lines_right (mem_lines_left (mem_emitOp _ _ _)))))), _, rfl⟩

theorem splits_icall {addr : Expr} {externName moduleName : String} {args : List Expr}
    {c : Compiler} :
    Splits (.icall addr externName moduleName args) c
      (emitExprTyped (.indirectCall addr externName moduleName args) c).lines fun irArgs i =>
        ∃ dst target name,
          i = .op .icall (.vreg dst :: target ++ .name name :: vregArgs irArgs) := by
  have heq : emitExprTyped (.indirectCall addr externName moduleName args) =
      emitIndirectCall (emitExpr addr) externName moduleName args (emitExprs args) := by
    simp only [emitExprTyped, emitExpr, ExprEmit.plain]
  rw [heq]
  unfold emitIndirectCall
  exact ⟨(allocVreg (CallSite.reached (.icall addr externName moduleName args) c)).state, rfl,
    fun i hi => mem_lines_right (mem_lines_right (mem_lines_right (mem_lines_right
      (mem_lines_left hi)))),
    _, mem_lines_right (mem_lines_right (mem_lines_right (mem_lines_right
      (mem_lines_right (mem_lines_left (mem_emitOp _ _ _)))))), _, _, _, rfl⟩

/-- The target of a near call is not far. -/
def checkNear (what : String) (target : TypedVreg) : Compile Unit :=
  if target.type = some .far then cerr (what ++ typeStrOpt target.type) else pure ()

theorem emitNearIndirectCall_eq {addr : ExprEmit} {externName : String} {args : List Expr}
    {emits : List ExprEmit} :
    emitNearIndirectCall addr externName args emits = (do
      let addrVal ← addr.typed
      checkNear "near indirect call target must be u16, got " addrVal
      let c ← getState
      let vals ← emitArgs (calleeParams (findIndirectDescriptor c externName "").1) emits
      let dst ← allocVreg
      let irArgs ← splitFarArgs (calleeParams (findIndirectDescriptor c externName "").1)
        (args.zip vals)
      emitOp .ncall ([.vreg dst, .vreg addrVal.vreg,
        .name (findIndirectDescriptor c externName "").2] ++ vregArgs irArgs)
      tv dst (calleeReturn (findIndirectDescriptor c externName "").1)) := by
  funext c
  by_cases hfar : (addr.typed c).value.type = some .far <;>
    simp [emitNearIndirectCall, checkNear, hfar, bind, pure, getState, cerr, modifyState,
      findIndirectDescriptor, findFunction]

theorem splits_ncall {addr : Expr} {externName : String} {args : List Expr} {c : Compiler} :
    Splits (.ncall addr externName args) c
      (emitExprTyped (.nearIndirectCall addr externName args) c).lines fun irArgs i =>
        ∃ dst target name,
          i = .op .ncall ([.vreg dst, .vreg target, .name name] ++ vregArgs irArgs) := by
  have heq : emitExprTyped (.nearIndirectCall addr externName args) =
      emitNearIndirectCall (emitExpr addr) externName args (emitExprs args) := by
    simp only [emitExprTyped, emitExpr, ExprEmit.plain]
  rw [heq, emitNearIndirectCall_eq]
  exact ⟨(allocVreg (CallSite.reached (.ncall addr externName args) c)).state, rfl,
    fun i hi => mem_lines_right (mem_lines_right (mem_lines_right (mem_lines_right (mem_lines_right
      (mem_lines_left hi))))),
    _, mem_lines_right (mem_lines_right (mem_lines_right (mem_lines_right (mem_lines_right
      (mem_lines_right (mem_lines_left (mem_emitOp _ _ _))))))), _, _, _, rfl⟩

/-- The errors of a call with several results. -/
def checkCounts (fnName : String) (fn : FunctionSig) (argc : Nat) : Compile Unit :=
  if fn.paramTypes.length ≠ argc then
    cerr ("'" ++ fnName ++ "' expects " ++ toString fn.paramTypes.length ++
      " arguments, got " ++ toString argc)
  else pure ()

theorem checkCounts_scopes (fnName : String) (fn : FunctionSig) (argc : Nat) (c : Compiler) :
    (checkCounts fnName fn argc c).state.scopes = c.scopes := by
  unfold checkCounts
  split <;> rfl

theorem emitMultiCallAssign_eq {targets args : List Expr} {name : String} {fn : FunctionSig}
    {c : Compiler} (hf : findFunction c name = some fn) :
    emitMultiCallAssign targets (.call (.ident name) args) c = (do
      (CallSite.mcall targets name args).prepare
      let vals ← emitArgs fn.paramTypes (emitExprs args)
      checkCounts name fn args.length
      let irArgs ← splitFarArgs fn.paramTypes (args.zip vals)
      let retVregs ← allocVregs targets.length
      emitOp .mcall (vregArgs retVregs ++ .name name :: vregArgs irArgs)
      let retTypes := (List.range targets.length).map fun i => fn.returnTypes[i]?
      emitReturnTypes (retVregs.zip retTypes)
      emitTargets (targets.zip (retVregs.zip retTypes)) : Compile Unit) c := by
  by_cases hr : fn.returnTypes.length ≠ targets.length <;>
    by_cases hp : fn.paramTypes.length ≠ args.length <;>
      simp [emitMultiCallAssign, CallSite.prepare, checkCounts, hf, hr, hp, bind, pure, getState]

theorem splits_mcall {targets args : List Expr} {name : String} {c : Compiler}
    (h : (CallSite.mcall targets name args).IsCall c) :
    Splits (.mcall targets name args) c
      (emitMultiCallAssign targets (.call (.ident name) args) c).lines fun irArgs i =>
        ∃ rets, rets.length = targets.length ∧
          i = .op .mcall (vregArgs rets ++ .name name :: vregArgs irArgs) := by
  obtain ⟨fn, hf⟩ := Option.isSome_iff_exists.mp h
  have hsig : calleeParams ((CallSite.mcall targets name args).sig c) = fn.paramTypes := by
    rw [CallSite.sig, hf]
    rfl
  rw [emitMultiCallAssign_eq hf]
  unfold Splits CallSite.known CallSite.vals CallSite.reached
  rw [hsig]
  exact ⟨(checkCounts name fn args.length (emitArgs fn.paramTypes (emitExprs args)
      (CallSite.entry (.mcall targets name args) c)).state).state, checkCounts_scopes _ _ _ _,
    fun i hi => mem_lines_right (mem_lines_right (mem_lines_right (mem_lines_left hi))),
    _, mem_lines_right (mem_lines_right (mem_lines_right (mem_lines_right
      (mem_lines_right (mem_lines_left (mem_emitOp _ _ _)))))), _, allocVregs_length _ _, rfl⟩

theorem Splits.written {site : CallSite} {c : FnState} {instrs : List Instr}
    {op : List Int → Instr → Prop} (h : Splits site c.comp instrs op)
    (hlines : ∀ i ∈ instrs, .instr i ∈ (site.emit c).lines)
    (hop : ∀ irArgs i, op irArgs i → site.IsLine irArgs (.instr i)) : site.Written c := by
  obtain ⟨c', hscopes, hsplit, i, hi, hop'⟩ := h
  exact ⟨_, ⟨.instr i, hlines i hi, hop _ _ hop'⟩,
    splitFarArgs_carries hscopes fun j hj => hlines j (hsplit j hj)⟩

theorem mem_lift {α : Type} {m : Compile α} {c : FnState} {i : Instr} (h : i ∈ (m c.comp).lines) :
    .instr i ∈ (EmitStmt.lift m c).lines := List.mem_map_of_mem h

theorem mem_stmt_left {α β : Type} {m : EmitStmt α} {f : α → EmitStmt β} {c : FnState} {l : Line}
    (h : l ∈ (m c).lines) : l ∈ ((m >>= f) c).lines := List.mem_append_left _ h

theorem mem_stmt_right {α β : Type} {m : EmitStmt α} {f : α → EmitStmt β} {c : FnState} {l : Line}
    (h : l ∈ (f (m c).value (m c).state).lines) : l ∈ ((m >>= f) c).lines :=
  List.mem_append_right _ h

theorem written_tailcall (name : String) (args : List Expr) (c : FnState) :
    (CallSite.tailcall name args).Written c := by
  have hlen := emitArgs_length (calleeParams (findFunction c.comp name)) (emitExprs args) c.comp
  rw [emitExprs_length] at hlen
  exact ⟨_, ⟨_, mem_stmt_right (mem_stmt_right (List.mem_singleton.mpr rfl)), rfl⟩,
    carries_whole hlen.symm⟩

/-- The arguments and the target of a near tail call. -/
def nearTail (addr : Expr) (externName : String) (args : List Expr) :
    Compile (List Int × Int × String) := do
  let target ← emitExprTyped addr
  checkNear "near indirect tailcall target must be u16, got " target
  let c ← getState
  let vals ← emitArgs (calleeParams (findIndirectDescriptor c externName "").1) (emitExprs args)
  let irArgs ← splitFarArgs (calleeParams (findIndirectDescriptor c externName "").1)
    (args.zip vals)
  pure (irArgs, target.vreg, (findIndirectDescriptor c externName "").2)

theorem emitTailcall_near_eq {addr : Expr} {externName : String} {args : List Expr} :
    emitTailcall (.nearIndirectCall addr externName args) = (do
      let r ← EmitStmt.lift (nearTail addr externName args)
      printLine (.exit .ntailcall ([.vreg r.2.1, .name r.2.2] ++ vregArgs r.1))) := by
  funext c
  by_cases hfar : (emitExprTyped addr c.comp).value.type = some .far <;>
    simp [emitTailcall, nearTail, EmitStmt.lift, getFnState, printLine, checkNear, hfar, bind, pure,
      getState]

theorem written_ntailcall (addr : Expr) (externName : String) (args : List Expr) (c : FnState) :
    (CallSite.ntailcall addr externName args).Written c := by
  have hlines : ((CallSite.ntailcall addr externName args).emit c).lines =
      (nearTail addr externName args c.comp).lines.map .instr ++
        [.exit .ntailcall ([.vreg (nearTail addr externName args c.comp).value.2.1,
          .name (nearTail addr externName args c.comp).value.2.2] ++
            vregArgs (nearTail addr externName args c.comp).value.1)] := by
    rw [CallSite.emit, emitTailcall_near_eq]
    rfl
  unfold CallSite.Written
  rw [hlines]
  refine ⟨(nearTail addr externName args c.comp).value.1,
    ⟨_, List.mem_append_right _ (List.mem_singleton.mpr rfl), _, _, rfl⟩, ?_⟩
  refine splitFarArgs_carries (c := CallSite.reached (.ntailcall addr externName args) c.comp) rfl
    fun i hi => List.mem_append_left _ (List.mem_map_of_mem ?_)
  exact mem_lines_right (mem_lines_right (mem_lines_right (mem_lines_right (mem_lines_left hi))))

/-- **Every call is written**, with the vregs of its arguments. -/
theorem emit_written {site : CallSite} {c : FnState} (h : site.IsCall c.comp) :
    site.Written c := by
  cases site with
  | call name args =>
    exact (splits_call h).written (fun i hi => mem_stmt_left (mem_lift hi))
      fun irArgs i ⟨dst, hop⟩ => ⟨dst, congrArg Line.instr hop⟩
  | mcall targets name args =>
    exact (splits_mcall h).written (fun i hi => mem_lift hi)
      fun irArgs i ⟨rets, hlen, hop⟩ => ⟨rets, hlen, congrArg Line.instr hop⟩
  | icall addr externName moduleName args =>
    exact splits_icall.written (fun i hi => mem_stmt_left (mem_lift hi))
      fun irArgs i ⟨dst, target, name, hop⟩ => ⟨dst, target, name, congrArg Line.instr hop⟩
  | ncall addr externName args =>
    exact splits_ncall.written (fun i hi => mem_stmt_left (mem_lift hi))
      fun irArgs i ⟨dst, target, name, hop⟩ => ⟨dst, target, name, congrArg Line.instr hop⟩
  | tailcall name args => exact written_tailcall name args c
  | ntailcall addr externName args => exact written_ntailcall addr externName args c

/-! ## Results -/

theorem map_some_injective {l l' : List Ty} : l.map some = l'.map some ↔ l = l' :=
  List.map_inj_right fun _ _ h => Option.some.inj h

theorem range_map_getElem? {n : Nat} {l returns : List Ty} :
    ((List.range n).map fun i => l[i]?) = returns.map some ↔
      n = returns.length ∧ ∀ i < returns.length, l[i]? = returns[i]? := by
  constructor
  · intro h
    have hlen : n = returns.length := by simpa using congrArg List.length h
    refine ⟨hlen, fun i hi => ?_⟩
    have hi' := congrArg (·[i]?) h
    simp only [List.getElem?_map, List.getElem?_range (hlen ▸ hi), Option.map_some] at hi'
    rw [List.getElem?_eq_getElem hi] at hi' ⊢
    exact Option.some.inj hi'
  · rintro ⟨hlen, hget⟩
    refine List.ext_getElem (by simp [hlen]) fun i hi hi' => ?_
    have hr : i < returns.length := by simpa using hi'
    simpa [hr] using hget i hr

theorem results_iff {site : CallSite} {c : Compiler} {returns : List Ty} :
    site.results c = returns.map some ↔ site.FitsReturns c returns := by
  cases site with
  | mcall targets name args => exact range_map_getElem?
  | _ => exact map_some_injective

/-! ## Rejected calls -/

/-- The emission reports an error. -/
def Fails {α : Type} (m : Compile α) (c : Compiler) : Prop :=
  c.errors.length < (m c).state.errors.length

theorem fails_cerr (message : String) (c : Compiler) : Fails (cerr message) c := by
  show c.errors.length < (c.errors ++ [message]).length
  simp

theorem fails_bind_left {α β : Type} {m : Compile α} {f : α → Compile β} {c : Compiler}
    (h : Fails m c) (hf : ∀ a, Growing (f a)) : Fails (m >>= f) c :=
  Nat.lt_of_lt_of_le h (hf _ _).errors

theorem fails_bind_right {α β : Type} {m : Compile α} {f : α → Compile β} {c : Compiler}
    (hm : Growing m) (h : Fails (f (m c).value) (m c).state) : Fails (m >>= f) c :=
  Nat.lt_of_le_of_lt (hm c).errors h

theorem checkCall_fails {fn : FunctionSig} {argc : Nat}
    (h : ¬(fn.paramTypes.length = argc ∧ fn.returnTypes.length ≤ 1)) (c : Compiler) :
    Fails (checkCall (some fn) argc) c := by
  show Fails (callErrors fn argc) c
  unfold Fails callErrors
  by_cases hn : fn.paramTypes.length = argc
  · have hr : fn.returnTypes.length > 1 := Nat.lt_of_not_le fun hr => h ⟨hn, hr⟩
    simp [hn, hr, bind, pure, cerr, modifyState]
  · by_cases hr : fn.returnTypes.length > 1 <;>
      simp [hn, hr, bind, pure, cerr, modifyState]

theorem rejected_call {name : String} {args : List Expr} {c : FnState} {fn : FunctionSig}
    (h : (CallSite.call name args).IsCall c.comp) (hf : findFunction c.comp name = some fn)
    (hn : ¬(fn.paramTypes.length = args.length ∧ fn.returnTypes.length ≤ 1)) :
    (CallSite.call name args).Rejected c := by
  show Fails (emitExprTyped (.call (.ident name) args)) c.comp
  rw [emitExprTyped_call, emitCall_eq h.1 h.2]
  have hcheck : ∀ c', Fails (checkCall (findFunction c.comp name) args.length) c' := by
    rw [hf]
    exact checkCall_fails hn
  refine fails_bind_right growing_getState
    (fails_bind_right (growing_emitArgs _ (emitExprs_growing args))
      (fails_bind_right growing_allocVreg (fails_bind_left (hcheck _) fun _ => ?_)))
  simp

/-- What follows the arguments of a call with several results. -/
theorem growing_mcallTail (fn : FunctionSig) (targets args : List Expr) (name : String)
    (vals : List TypedVreg) : Growing (do
      let irArgs ← splitFarArgs fn.paramTypes (args.zip vals)
      let retVregs ← allocVregs targets.length
      emitOp .mcall (vregArgs retVregs ++ .name name :: vregArgs irArgs)
      let retTypes := (List.range targets.length).map fun i => fn.returnTypes[i]?
      emitReturnTypes (retVregs.zip retTypes)
      emitTargets (targets.zip (retVregs.zip retTypes)) : Compile Unit) :=
  growing_bind (growing_splitFarArgs _ _) fun _ => growing_bind (growing_allocVregs _) fun _ =>
    growing_bind (growing_emitOp _ _) fun _ => growing_bind (growing_emitReturnTypes _) fun _ =>
      growing_emitTargets _

theorem rejected_mcall {targets args : List Expr} {name : String} {c : FnState} {fn : FunctionSig}
    (hf : findFunction c.comp name = some fn)
    (hn : ¬(fn.paramTypes.length = args.length ∧ fn.returnTypes.length = targets.length)) :
    (CallSite.mcall targets name args).Rejected c := by
  show c.comp.errors.length <
    (emitMultiCallAssign targets (.call (.ident name) args) c.comp).state.errors.length
  rw [emitMultiCallAssign_eq hf]
  have hprepare : Growing (CallSite.mcall targets name args).prepare := by
    unfold CallSite.prepare
    refine growing_bind growing_getState fun c' => ?_
    split
    · simp
    · split <;> simp
  by_cases hr : fn.returnTypes.length = targets.length
  · have hp : fn.paramTypes.length ≠ args.length := fun hp => hn ⟨hp, hr⟩
    refine fails_bind_right hprepare
      (fails_bind_right (growing_emitArgs _ (emitExprs_growing args))
        (fails_bind_left ?_ fun _ => growing_mcallTail fn targets args name _))
    unfold checkCounts
    rw [if_pos hp]
    exact fails_cerr _ _
  · refine fails_bind_left ?_ fun _ => ?_
    · unfold Fails CallSite.prepare
      simp [hf, hr, bind, getState, cerr, modifyState]
    · refine growing_bind (growing_emitArgs _ (emitExprs_growing args)) fun _ =>
        growing_bind ?_ fun _ => growing_mcallTail fn targets args name _
      unfold checkCounts
      split <;> simp

/-- **A call is rejected** if the compiler compares counts that differ. -/
theorem rejected_of_not_counted {site : CallSite} {c : FnState} (h : site.IsCall c.comp)
    (hn : ¬site.Counted c.comp) : site.Rejected c := by
  cases site with
  | call name args =>
    obtain ⟨fn, hfn⟩ := not_forall.mp hn
    obtain ⟨hf, hcounts⟩ := Classical.not_imp.mp hfn
    exact rejected_call h hf hcounts
  | mcall targets name args =>
    obtain ⟨fn, hfn⟩ := not_forall.mp hn
    obtain ⟨hf, hcounts⟩ := Classical.not_imp.mp hfn
    exact rejected_mcall hf hcounts
  | _ => exact absurd trivial hn

/-! ## Agreement -/

/-- A compiler with the far variable `p`, that knows these functions. -/
def farCaller (functions : List FunctionSig) : FnState :=
  { comp := { functions, nextVreg := 2,
              scopes := [[{ name := "p", type := some .far, vreg := 0, vregSeg := some 1 }]] } }

theorem farCall_isCall (functions : List FunctionSig) :
    (CallSite.call "f" [.ident "p"]).IsCall (farCaller functions).comp := by
  refine ⟨by simp [emitEarlyBuiltin], fun c dst vals => ?_⟩
  simp [emitBuiltin, simpleBuiltins, adjustBuiltins, List.lookup]

end Nib.Compile
