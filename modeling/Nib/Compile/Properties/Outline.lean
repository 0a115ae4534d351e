import Nib.Compile.Spec.Source

/-!
# The lines of a statement are the lines of its tree

`Tree.lines` lists the lines a tree stands for. The compiler prints exactly these.

* `Lowers` — an emission prints the lines of an outline and leaves the same state
* `emitStmts_lowers` — every list of statements does, by induction over the statements
-/

namespace Nib.Compile

open EmitStmt

/-! ## The lines of a tree -/

/-- The labels `break` and `continue` jump to. -/
abbrev LoopLabels : Type := Option (Nat × Nat)

/-- The jump of an operand of a flag test. -/
def operandJump (e : FlagExpr) (set : Bool) (label : Nat) : List Line :=
  match e with
  | .flag id => [.jump (.onFlag id set) (.auto label)]
  | _ => []

/-- The lines of a flag test. The label after `skip` is the one the test has taken for itself. -/
def testLines (condition : FlagExpr) (skip : Nat) : List Line :=
  match condition with
  | .flag id => operandJump (.flag id) false skip
  | .not (.flag id) => operandJump (.flag id) true skip
  | .not _ => []
  | .or l r =>
    operandJump l true (skip + 1) ++ operandJump r true (skip + 1) ++
      [.jump .always (.auto skip), .label (.auto (skip + 1))]
  | .and l r => operandJump l false skip ++ operandJump r false skip
  | .xor l r =>
    operandJump l true (skip + 1) ++ operandJump r false skip ++
      ([.jump .always (.auto (skip + 1)), .label (.auto (skip + 1))] ++ operandJump r true skip)

mutual

def Tree.lines (ctx : LoopLabels) : Tree → List Line
  | .code is => is.map .instr
  | .exit e args => [.exit e args]
  | .label name => [.label (.user name)]
  | .goto name => [.jump .always (.user name)]
  | .brk =>
    match ctx with
    | some (b, _) => [.jump .always (.auto b)]
    | none => []
  | .cont =>
    match ctx with
    | some (_, c) => [.jump .always (.auto c)]
    | none => []
  | .ite cond v lblElse lblEnd thenBody elseBody =>
    cond.map .instr ++ (.jump (.ifZero v) (.auto lblElse) :: treesLines ctx thenBody) ++
      elseLines ctx lblElse lblEnd elseBody
  | .while cond v lblTop lblEnd body =>
    .label (.auto lblTop) :: (cond.map .instr ++ (.jump (.ifZero v) (.auto lblEnd) ::
      (treesLines (some (lblEnd, lblTop)) body ++
        [.jump .always (.auto lblTop), .label (.auto lblEnd)])))
  | .for start cx lblTop lblEnd body =>
    start.map .instr ++ (.label (.auto lblTop) ::
      (treesLines (some (lblEnd, lblTop)) body ++
        [.jump (.loop cx) (.auto lblTop), .label (.auto lblEnd)]))
  | .check condition skip body =>
    testLines condition skip ++ (treesLines ctx body ++ [.label (.auto skip)])
  | .dropped _ => []

def treesLines (ctx : LoopLabels) : List Tree → List Line
  | [] => []
  | t :: rest => t.lines ctx ++ treesLines ctx rest

/-- From the end of the `then` branch on. -/
def elseLines (ctx : LoopLabels) (lblElse lblEnd : Nat) : Option (List Tree) → List Line
  | none => [.label (.auto lblElse)]
  | some elseBody =>
    .jump .always (.auto lblEnd) :: .label (.auto lblElse) ::
      (treesLines ctx elseBody ++ [.label (.auto lblEnd)])

end

theorem treesLines_append (ctx : LoopLabels) : ∀ ts us : List Tree,
    treesLines ctx (ts ++ us) = treesLines ctx ts ++ treesLines ctx us
  | [], _ => rfl
  | t :: ts, us => by
    rw [List.cons_append, treesLines, treesLines, treesLines_append ctx ts us, List.append_assoc]

theorem treesLines_singleton (ctx : LoopLabels) (t : Tree) :
    treesLines ctx [t] = t.lines ctx := List.append_nil _

/-! ## The labels of lines -/

/-- The labels of the compiler that stand in the lines. -/
def autoLabels (lines : List Line) : List Nat :=
  lines.filterMap fun
    | .label (.auto n) => some n
    | _ => none

@[simp] theorem autoLabels_append (a b : List Line) :
    autoLabels (a ++ b) = autoLabels a ++ autoLabels b :=
  List.filterMap_append

@[simp] theorem autoLabels_nil : autoLabels [] = [] := rfl

@[simp] theorem autoLabels_label (n : Nat) (ls : List Line) :
    autoLabels (.label (.auto n) :: ls) = n :: autoLabels ls := rfl

@[simp] theorem autoLabels_jump (j : Jump) (l : Lbl) (ls : List Line) :
    autoLabels (.jump j l :: ls) = autoLabels ls := rfl

@[simp] theorem autoLabels_instrs (is : List Instr) : autoLabels (is.map .instr) = [] := by
  induction is with
  | nil => rfl
  | cons i is ih => exact ih

/-- Different labels, all of them between two counts. -/
structure LabelsIn (lo hi : Nat) (lines : List Line) : Prop where
  le : lo ≤ hi
  nodup : (autoLabels lines).Nodup
  mem : ∀ n ∈ autoLabels lines, lo ≤ n ∧ n < hi

theorem LabelsIn.of_none {lines : List Line} (h : autoLabels lines = []) (n : Nat) :
    LabelsIn n n lines := by
  refine ⟨Nat.le_refl n, ?_, ?_⟩
  · rw [h]
    exact List.nodup_nil
  · intro m hm
    rw [h] at hm
    cases hm

theorem LabelsIn.append {a b c : Nat} {l l' : List Line} (h : LabelsIn a b l)
    (h' : LabelsIn b c l') : LabelsIn a c (l ++ l') := by
  refine ⟨Nat.le_trans h.le h'.le, ?_, ?_⟩
  · rw [autoLabels_append]
    refine List.nodup_append.mpr ⟨h.nodup, h'.nodup, ?_⟩
    intro n hn m hm hnm
    have := (h.mem n hn).2
    have := (h'.mem m hm).1
    omega
  · intro n hn
    rw [autoLabels_append, List.mem_append] at hn
    have := h.le
    have := h'.le
    rcases hn with hn | hn
    · have := h.mem n hn
      omega
    · have := h'.mem n hn
      omega

/-- Lines around those of a body, whose own labels come before the labels of the body. -/
theorem LabelsIn.around {lo mid hi : Nat} {body lines : List Line} (h : LabelsIn mid hi body)
    (own : List Nat) (hlo : lo ≤ mid)
    (hperm : (autoLabels lines).Perm (own ++ autoLabels body)) (hown : own.Nodup)
    (hmem : ∀ n ∈ own, lo ≤ n ∧ n < mid) : LabelsIn lo hi lines := by
  have hle := h.le
  refine ⟨Nat.le_trans hlo h.le, ?_, ?_⟩
  · rw [hperm.nodup_iff]
    refine List.nodup_append.mpr ⟨hown, h.nodup, ?_⟩
    intro n hn m hm hnm
    have := (hmem n hn).2
    have := (h.mem m hm).1
    omega
  · intro n hn
    rw [hperm.mem_iff, List.mem_append] at hn
    rcases hn with hn | hn
    · have := hmem n hn
      omega
    · have := h.mem n hn
      omega

/-- Two labels of a statement with two bodies. -/
theorem perm_own (a b : Nat) (l l' : List Nat) :
    (l ++ a :: (l' ++ [b])).Perm ([a, b] ++ (l ++ l')) := by
  rw [List.perm_iff_count]
  intro n
  simp only [List.count_append, List.count_cons, List.count_nil]
  omega

/-! ## Emissions and outlines -/

/-- The state is inside of a loop with these labels, or of no loop. -/
def InLoop (ctx : LoopLabels) (s : FnState) : Prop :=
  match ctx with
  | none => s.loopDepth = 0
  | some (b, c) => s.loopDepth ≠ 0 ∧ s.loopBreakLabel = b ∧ s.loopContinueLabel = c

/-- The emission prints the lines of the outline, with new labels, and nothing else tells the two
apart. -/
structure LowersAt {α : Type} (ctx : LoopLabels) (s : FnState) (r : Printed α) (o : Outlined α) :
    Prop where
  value : r.value = o.value
  lines : r.lines = treesLines ctx o.trees
  state : r.state = o.state
  inLoop : InLoop ctx r.state
  labels : LabelsIn s.nextLabel r.state.nextLabel r.lines

def Lowers {α : Type} (m : EmitStmt α) (o : Outline α) : Prop :=
  ∀ (ctx : LoopLabels) (s : FnState), InLoop ctx s → LowersAt ctx s (m s) (o s)

section

variable {α β : Type}

theorem lowers_pure (a : α) : Lowers (pure a) (pure a) := fun _ _ h =>
  ⟨rfl, rfl, rfl, h, .of_none rfl _⟩

theorem lowers_bind {m : EmitStmt α} {o : Outline α} {f : α → EmitStmt β} {g : α → Outline β}
    (h : Lowers m o) (hf : ∀ a, Lowers (f a) (g a)) : Lowers (m >>= f) (o >>= g) := by
  intro ctx s hs
  obtain ⟨hv, hl, hst, hin, hlab⟩ := h ctx s hs
  obtain ⟨hv', hl', hst', hin', hlab'⟩ := hf (m s).value ctx (m s).state hin
  refine ⟨?_, ?_, ?_, hin', hlab.append hlab'⟩
  · show (f (m s).value (m s).state).value = (g (o s).value (o s).state).value
    rw [← hv, ← hst, hv']
  · show (m s).lines ++ (f (m s).value (m s).state).lines =
      treesLines ctx ((o s).trees ++ (g (o s).value (o s).state).trees)
    rw [treesLines_append, ← hv, ← hst, hl, hl']
  · show (f (m s).value (m s).state).state = (g (o s).value (o s).state).state
    rw [← hv, ← hst, hst']

theorem lowers_code (m : Compile α) : Lowers (lift m) (Outline.code m) := fun ctx s hs =>
  ⟨rfl, (treesLines_singleton ctx (.code (m s.comp).lines)).symm, rfl, by cases ctx <;> exact hs,
    .of_none (autoLabels_instrs _) _⟩

theorem lowers_getFnState : Lowers getFnState Outline.getFnState := fun _ _ h =>
  ⟨rfl, rfl, rfl, h, .of_none rfl _⟩

theorem lowers_line {l : Line} {t : Tree} (h : ∀ ctx, t.lines ctx = [l])
    (hl : autoLabels [l] = []) : Lowers (printLine l) (Outline.tree t) := by
  intro ctx s hs
  refine ⟨rfl, ?_, rfl, hs, .of_none hl _⟩
  show [l] = treesLines ctx [t]
  rw [treesLines_singleton, h]

theorem lowers_ite {c : Prop} [Decidable c] {m m' : EmitStmt α} {o o' : Outline α}
    (h : Lowers m o) (h' : Lowers m' o') :
    Lowers (if c then m else m') (if c then o else o') := by
  by_cases hc : c
  · rw [if_pos hc, if_pos hc]
    exact h
  · rw [if_neg hc, if_neg hc]
    exact h'

theorem lowers_modifyComp (f : Compiler → Compiler) :
    Lowers (modifyComp f) (Outline.modifyComp f) := fun ctx _ hs =>
  ⟨rfl, rfl, rfl, by cases ctx <;> exact hs, .of_none rfl _⟩

theorem lowers_inScope {m : EmitStmt Unit} {o : Outline Unit} (h : Lowers m o) :
    Lowers (inScope m) (Outline.inScope o) :=
  lowers_bind (lowers_modifyComp _) fun _ => lowers_bind h fun _ => lowers_modifyComp _

end

/-! ## Leaving the function, and jumping out of a loop -/

theorem emitTailcall_lowers (e : Expr) : Lowers (emitTailcall e) (outlineTailcall e) := by
  refine lowers_bind lowers_getFnState fun s => ?_
  cases e with
  | call func args => exact lowers_bind (lowers_code _) fun _ => lowers_line (fun _ => rfl) rfl
  | nearIndirectCall addr externName args =>
    exact lowers_bind (lowers_code _) fun _ => lowers_line (fun _ => rfl) rfl
  | _ => exact lowers_code _

theorem emitGoto_lowers (label : String) : Lowers (emitGoto label) (outlineGoto label) :=
  lowers_bind lowers_getFnState fun _ =>
    lowers_ite (lowers_line (fun _ => rfl) rfl) (lowers_line (fun _ => rfl) rfl)

/-- `break` and `continue` print the jump of their tree, or report that there is no loop. -/
theorem emitLoopJump_lowers (what : String) (label : FnState → Nat) (t : Tree)
    (h : ∀ b c s, InLoop (some (b, c)) s →
      t.lines (some (b, c)) = [.jump .always (.auto (label s))]) :
    Lowers (emitLoopJump what label) (outlineLoopJump what t) := by
  intro ctx s hs
  cases ctx with
  | none =>
    have h0 : s.loopDepth = 0 := hs
    have hm : emitLoopJump what label s = lift (cerr (what ++ " outside loop")) s := by
      show (if s.loopDepth = 0 then _ else _ : EmitStmt Unit) s = _
      rw [if_pos h0]
    have ho : outlineLoopJump what t s = Outline.code (cerr (what ++ " outside loop")) s := by
      show (if s.loopDepth = 0 then _ else _ : Outline Unit) s = _
      rw [if_pos h0]
    rw [hm, ho]
    exact lowers_code _ none s hs
  | some p =>
    obtain ⟨b, c⟩ := p
    have h0 : ¬s.loopDepth = 0 := hs.1
    have hm : emitLoopJump what label s = jumpTo .always (label s) s := by
      show (if s.loopDepth = 0 then _ else _ : EmitStmt Unit) s = _
      rw [if_neg h0]
      rfl
    have ho : outlineLoopJump what t s = Outline.tree t s := by
      show (if s.loopDepth = 0 then _ else _ : Outline Unit) s = _
      rw [if_neg h0]
    rw [hm, ho]
    refine ⟨rfl, ?_, rfl, hs, .of_none rfl _⟩
    show [Line.jump .always (.auto (label s))] = treesLines (some (b, c)) [t]
    rw [treesLines_singleton, h b c s hs]

/-! ## Conditions and loops -/

section

variable {m m' : EmitStmt Unit} {o o' : Outline Unit}

theorem lowers_if (cond : Compile Int) (noElse : Bool) (h : Lowers m o) (h' : Lowers m' o') :
    Lowers
      (do
        let v ← lift cond
        let lblElse ← allocLabel
        let lblEnd ← allocLabel
        jumpTo (.ifZero v) lblElse
        m
        if noElse then placeLabel lblElse
        else do
          jumpTo .always lblEnd
          placeLabel lblElse
          m'
          placeLabel lblEnd)
      (do
        let (v, condLines) ← Outline.part cond
        let lblElse ← Outline.allocLabel
        let lblEnd ← Outline.allocLabel
        let thenTrees ← Outline.block o
        if noElse then Outline.tree (.ite condLines v lblElse lblEnd thenTrees none)
        else do
          let elseTrees ← Outline.block o'
          Outline.tree (.ite condLines v lblElse lblEnd thenTrees (some elseTrees))) := by
  intro ctx s hs
  let r := cond s.comp
  let s1 : FnState := { s with comp := r.state, nextLabel := s.nextLabel + 2 }
  have hs1 : InLoop ctx s1 := by cases ctx <;> exact hs
  obtain ⟨-, hl, hst, hin, hlab⟩ := h ctx s1 hs1
  cases noElse with
  | true =>
    refine ⟨rfl, ?_, hst, hin, hlab.around [s.nextLabel] (Nat.le_add_right _ 2) ?_ (by simp)
      (by simp [s1])⟩
    rotate_left
    · show (autoLabels (r.lines.map .instr ++ (.jump (.ifZero r.value) (.auto s.nextLabel) ::
        ((m s1).lines ++ [.label (.auto s.nextLabel)])))).Perm _
      simp only [autoLabels_instrs, autoLabels_jump, autoLabels_append, autoLabels_label,
        autoLabels_nil, List.nil_append]
      exact List.perm_append_comm
    show r.lines.map .instr ++ (.jump (.ifZero r.value) (.auto s.nextLabel) ::
      ((m s1).lines ++ [.label (.auto s.nextLabel)])) =
        treesLines ctx [.ite r.lines r.value s.nextLabel (s.nextLabel + 1) (o s1).trees none]
    rw [treesLines_singleton, Tree.lines, elseLines, hl, List.append_assoc, List.cons_append]
  | false =>
    obtain ⟨-, hl', hst', hin', hlab'⟩ := h' ctx (m s1).state hin
    have hstate : (m' (m s1).state).state = (o' (o s1).state).state := by rw [← hst, hst']
    refine ⟨rfl, ?_, hstate, hin', (hlab.append hlab').around [s.nextLabel, s.nextLabel + 1]
      (Nat.le_add_right _ 2) ?_ (by simp) (by simp [s1])⟩
    rotate_left
    · show (autoLabels (r.lines.map .instr ++ (.jump (.ifZero r.value) (.auto s.nextLabel) ::
        ((m s1).lines ++ (.jump .always (.auto (s.nextLabel + 1)) :: .label (.auto s.nextLabel) ::
          ((m' (m s1).state).lines ++ [.label (.auto (s.nextLabel + 1))])))))).Perm _
      simp only [autoLabels_instrs, autoLabels_jump, autoLabels_append, autoLabels_label,
        autoLabels_nil, List.nil_append]
      exact perm_own _ _ _ _
    show r.lines.map .instr ++ (.jump (.ifZero r.value) (.auto s.nextLabel) ::
      ((m s1).lines ++ (.jump .always (.auto (s.nextLabel + 1)) ::
        .label (.auto s.nextLabel) ::
          ((m' (m s1).state).lines ++ [.label (.auto (s.nextLabel + 1))])))) =
        treesLines ctx [.ite r.lines r.value s.nextLabel (s.nextLabel + 1) (o s1).trees
          (some (o' (o s1).state).trees)]
    rw [treesLines_singleton, Tree.lines, elseLines, hl, hl', hst, List.append_assoc,
      List.cons_append]

/-- The state in which the body of a loop is compiled. -/
theorem lowersAt_inLoop (h : Lowers m o) (b c : Nat) {ctx : LoopLabels} {s : FnState}
    (hs : InLoop ctx s) :
    (inLoop b c m s).lines = treesLines (some (b, c)) (Outline.inLoop b c o s).trees ∧
      (inLoop b c m s).state = (Outline.inLoop b c o s).state ∧
      InLoop ctx (inLoop b c m s).state ∧
      LabelsIn s.nextLabel (inLoop b c m s).state.nextLabel (inLoop b c m s).lines := by
  let s1 : FnState := { s with
    loopDepth := s.loopDepth + 1, loopBreakLabel := b, loopContinueLabel := c }
  have hs1 : InLoop (some (b, c)) s1 := ⟨Nat.succ_ne_zero _, rfl, rfl⟩
  obtain ⟨-, hl, hst, -, hlab⟩ := h (some (b, c)) s1 hs1
  refine ⟨hl, ?_, by cases ctx <;> exact hs, hlab⟩
  show ({ (m s1).state with
    loopDepth := s.loopDepth
    loopBreakLabel := s.loopBreakLabel
    loopContinueLabel := s.loopContinueLabel } : FnState) = _
  rw [hst]
  rfl

theorem lowers_while (cond : Compile Int) (h : Lowers m o) :
    Lowers
      (do
        let lblTop ← allocLabel
        let lblEnd ← allocLabel
        placeLabel lblTop
        let v ← lift cond
        jumpTo (.ifZero v) lblEnd
        inLoop lblEnd lblTop m
        jumpTo .always lblTop
        placeLabel lblEnd)
      (do
        let lblTop ← Outline.allocLabel
        let lblEnd ← Outline.allocLabel
        let (v, condLines) ← Outline.part cond
        let trees ← Outline.block (Outline.inLoop lblEnd lblTop o)
        Outline.tree (.while condLines v lblTop lblEnd trees)) := by
  intro ctx s hs
  let r := cond s.comp
  let s1 : FnState := { s with comp := r.state, nextLabel := s.nextLabel + 2 }
  have hs1 : InLoop ctx s1 := by cases ctx <;> exact hs
  obtain ⟨hl, hst, hin, hlab⟩ := lowersAt_inLoop h (s.nextLabel + 1) s.nextLabel hs1
  refine ⟨rfl, ?_, hst, hin, hlab.around [s.nextLabel, s.nextLabel + 1] (Nat.le_add_right _ 2) ?_
    (by simp) (by simp [s1])⟩
  rotate_left
  · show (autoLabels (.label (.auto s.nextLabel) :: (r.lines.map .instr ++
      (.jump (.ifZero r.value) (.auto (s.nextLabel + 1)) ::
        ((inLoop (s.nextLabel + 1) s.nextLabel m s1).lines ++
          [.jump .always (.auto s.nextLabel), .label (.auto (s.nextLabel + 1))]))))).Perm _
    simp only [autoLabels_instrs, autoLabels_jump, autoLabels_append, autoLabels_label,
      autoLabels_nil, List.nil_append]
    exact perm_own _ _ [] _
  show .label (.auto s.nextLabel) :: (r.lines.map .instr ++
    (.jump (.ifZero r.value) (.auto (s.nextLabel + 1)) ::
      ((inLoop (s.nextLabel + 1) s.nextLabel m s1).lines ++
        [.jump .always (.auto s.nextLabel), .label (.auto (s.nextLabel + 1))]))) =
    treesLines ctx [.while r.lines r.value s.nextLabel (s.nextLabel + 1)
      (Outline.inLoop (s.nextLabel + 1) s.nextLabel o s1).trees]
  rw [treesLines_singleton, Tree.lines, hl]

theorem lowers_for (start : Compile Int) (mb : Int → EmitStmt Unit) (ob : Int → Outline Unit)
    (h : ∀ cx, Lowers (mb cx) (ob cx)) :
    Lowers
      (do
        let lblTop ← allocLabel
        let lblEnd ← allocLabel
        let cx ← lift start
        placeLabel lblTop
        inLoop lblEnd lblTop (mb cx)
        jumpTo (.loop cx) lblTop
        placeLabel lblEnd)
      (do
        let lblTop ← Outline.allocLabel
        let lblEnd ← Outline.allocLabel
        let (cx, startLines) ← Outline.part start
        let trees ← Outline.block (Outline.inLoop lblEnd lblTop (ob cx))
        Outline.tree (.for startLines cx lblTop lblEnd trees)) := by
  intro ctx s hs
  let r := start s.comp
  let s1 : FnState := { s with comp := r.state, nextLabel := s.nextLabel + 2 }
  have hs1 : InLoop ctx s1 := by cases ctx <;> exact hs
  obtain ⟨hl, hst, hin, hlab⟩ := lowersAt_inLoop (h r.value) (s.nextLabel + 1) s.nextLabel hs1
  refine ⟨rfl, ?_, hst, hin, hlab.around [s.nextLabel, s.nextLabel + 1] (Nat.le_add_right _ 2) ?_
    (by simp) (by simp [s1])⟩
  rotate_left
  · show (autoLabels (r.lines.map .instr ++ (.label (.auto s.nextLabel) ::
      ((inLoop (s.nextLabel + 1) s.nextLabel (mb r.value) s1).lines ++
        [.jump (.loop r.value) (.auto s.nextLabel),
          .label (.auto (s.nextLabel + 1))])))).Perm _
    simp only [autoLabels_instrs, autoLabels_jump, autoLabels_append, autoLabels_label,
      autoLabels_nil, List.nil_append]
    exact perm_own _ _ [] _
  show r.lines.map .instr ++ (.label (.auto s.nextLabel) ::
      ((inLoop (s.nextLabel + 1) s.nextLabel (mb r.value) s1).lines ++
        [.jump (.loop r.value) (.auto s.nextLabel), .label (.auto (s.nextLabel + 1))])) =
    treesLines ctx [.for r.lines r.value s.nextLabel (s.nextLabel + 1)
      (Outline.inLoop (s.nextLabel + 1) s.nextLabel (ob r.value) s1).trees]
  rw [treesLines_singleton, Tree.lines, hl]

end

/-! ## Flag checks -/

/-- The number of labels a flag test takes for itself. -/
def testLabels : FlagExpr → Nat
  | .or _ _ => 1
  | .xor _ _ => 2
  | _ => 0

theorem jumpOnFlag_eq (e : FlagExpr) (set : Bool) (label : Nat) (s : FnState) :
    jumpOnFlag e set label s = ⟨(), operandJump e set label, s⟩ := by
  cases e <;> rfl

/-- A flag test prints its lines and takes its labels. -/
theorem emitFlagTest_eq (condition : FlagExpr) (s : FnState) :
    emitFlagTest condition s.nextLabel { s with nextLabel := s.nextLabel + 1 } =
      ⟨(), testLines condition s.nextLabel,
        { s with nextLabel := s.nextLabel + 1 + testLabels condition }⟩ := by
  cases condition with
  | flag id => rfl
  | not e => cases e <;> rfl
  | or l r =>
    simp only [emitFlagTest, bind, jumpOnFlag_eq, allocLabel, testLines, testLabels, jumpTo,
      placeLabel, printLine, List.nil_append, List.append_assoc, List.cons_append]
  | and l r =>
    simp only [emitFlagTest, bind, jumpOnFlag_eq, testLines, testLabels, Nat.add_zero]
  | xor l r =>
    simp only [emitFlagTest, bind, jumpOnFlag_eq, allocLabel, testLines, testLabels, jumpTo,
      placeLabel, printLine, List.nil_append, List.append_assoc, List.cons_append, List.append_nil,
      pure]

theorem allocTestLabels_eq (condition : FlagExpr) (s : FnState) :
    allocTestLabels condition s =
      ⟨(), [], { s with nextLabel := s.nextLabel + testLabels condition }⟩ := by
  cases condition <;> rfl

theorem autoLabels_operandJump (e : FlagExpr) (set : Bool) (label : Nat) :
    autoLabels (operandJump e set label) = [] := by
  cases e <;> rfl

theorem testLines_labels (condition : FlagExpr) (skip : Nat) :
    LabelsIn (skip + 1) (skip + 1 + testLabels condition) (testLines condition skip) := by
  cases condition with
  | flag id => exact .of_none rfl _
  | not e => cases e <;> exact .of_none rfl _
  | and l r => exact .of_none (by simp [testLines, autoLabels_operandJump]) _
  | or l r =>
    have h : autoLabels (testLines (.or l r) skip) = [skip + 1] := by
      simp [testLines, autoLabels_operandJump]
    exact ⟨by simp [testLabels], by simp [h], by simp [h, testLabels]⟩
  | xor l r =>
    have h : autoLabels (testLines (.xor l r) skip) = [skip + 1] := by
      simp [testLines, autoLabels_operandJump]
    exact ⟨by simp [testLabels], by simp [h], by simp [h, testLabels]⟩

theorem lowers_flagCase (condition : FlagExpr) {m : EmitStmt Unit} {o : Outline Unit}
    (h : Lowers m o) :
    Lowers
      (do
        let skip ← allocLabel
        emitFlagTest condition skip
        m
        placeLabel skip)
      (do
        let skip ← Outline.allocLabel
        allocTestLabels condition
        let trees ← Outline.block o
        Outline.tree (.check condition skip trees)) := by
  intro ctx s hs
  let s1 : FnState := { s with nextLabel := s.nextLabel + 1 + testLabels condition }
  have hs1 : InLoop ctx s1 := by cases ctx <;> exact hs
  obtain ⟨-, hl, hst, hin, hlab⟩ := h ctx s1 hs1
  have hm : (do
        let skip ← allocLabel
        emitFlagTest condition skip
        m
        placeLabel skip : EmitStmt Unit) s =
      ⟨(), testLines condition s.nextLabel ++ ((m s1).lines ++ [.label (.auto s.nextLabel)]),
        (m s1).state⟩ := by
    simp only [bind, allocLabel, emitFlagTest_eq, List.nil_append]
    rfl
  have ho : (do
        let skip ← Outline.allocLabel
        allocTestLabels condition
        let trees ← Outline.block o
        Outline.tree (.check condition skip trees) : Outline Unit) s =
      ⟨(), [.check condition s.nextLabel (o s1).trees], (o s1).state⟩ := by
    simp only [bind, Outline.allocLabel, allocTestLabels_eq, List.nil_append]
    rfl
  rw [hm, ho]
  have hall := (testLines_labels condition s.nextLabel).append hlab
  refine ⟨rfl, ?_, hst, hin, hall.around [s.nextLabel] (Nat.le_succ _) ?_ (by simp) (by simp)⟩
  · show _ = treesLines ctx [.check condition s.nextLabel (o s1).trees]
    rw [treesLines_singleton, Tree.lines, hl]
  · simp only [autoLabels_append, autoLabels_label, autoLabels_nil]
    rw [← List.append_assoc]
    exact List.perm_append_comm

/-! ## Statements -/

theorem emitTrap_lowers (condition : FlagExpr) :
    Lowers (emitTrap condition) (Outline.code (trapLines condition)) := by
  unfold emitTrap trapLines
  split_ifs
  · exact lowers_code _
  · exact lowers_code _

mutual

theorem emitStmt_lowers : ∀ st : Stmt, Lowers (emitStmt st) (outlineStmt st)
  | .vardecl .. => lowers_bind (lowers_code _) fun _ => lowers_code _
  | .assign _ _ _ flagChecks => by
    refine lowers_bind (lowers_code _) fun _ => lowers_bind (lowers_code _) fun hasChecks => ?_
    refine lowers_ite (emitFlagChecks_lowers flagChecks) ?_
    exact fun ctx s hs => ⟨rfl, rfl, rfl, hs, .of_none rfl _⟩
  | .toggleAssign _ _ _ flagChecks =>
    lowers_bind (lowers_code _) fun _ => lowers_bind (lowers_code _) fun _ =>
      emitFlagChecks_lowers flagChecks
  | .expr .. =>
    lowers_bind (lowers_code _) fun _ => lowers_bind (lowers_code _) fun _ => lowers_pure ()
  | .ifStmt _ _ thenBody elseBody =>
    lowers_bind (lowers_code _) fun _ =>
      lowers_if _ _ (lowers_inScope (emitStmts_lowers thenBody))
        (lowers_inScope (emitStmts_lowers elseBody))
  | .whileStmt _ _ body =>
    lowers_bind (lowers_code _) fun _ => lowers_while _ (lowers_inScope (emitStmts_lowers body))
  | .forStmt _ _ _ body =>
    lowers_bind (lowers_code _) fun _ => lowers_bind (lowers_code _) fun _ =>
      lowers_for _
        (fun cx => inScope do
          modifyComp (addSymbol (cxSymbol cx))
          emitStmts body)
        (fun cx => Outline.inScope do
          Outline.modifyComp (addSymbol (cxSymbol cx))
          outlineStmts body)
        fun _ => lowers_inScope <|
          lowers_bind (lowers_modifyComp _) fun _ => emitStmts_lowers body
  | .ret .. =>
    lowers_bind (lowers_code _) fun _ => lowers_bind (lowers_code _) fun _ =>
      lowers_line (fun _ => rfl) rfl
  | .breakStmt _ =>
    lowers_bind (lowers_code _) fun _ => emitLoopJump_lowers _ _ _ fun _ _ _ h => by
      rw [h.2.1, Tree.lines]
  | .continueStmt _ =>
    lowers_bind (lowers_code _) fun _ => emitLoopJump_lowers _ _ _ fun _ _ _ h => by
      rw [h.2.2, Tree.lines]
  | .goto _ label => lowers_bind (lowers_code _) fun _ => emitGoto_lowers label
  | .tailcall _ e => lowers_bind (lowers_code _) fun _ => emitTailcall_lowers e
  | .label .. => lowers_bind (lowers_code _) fun _ => lowers_line (fun _ => rfl) rfl
  | .asm .. => lowers_bind (lowers_code _) fun _ => lowers_code _

/-- **The lines of a list of statements are the lines of its trees.** -/
theorem emitStmts_lowers : ∀ sts : List Stmt, Lowers (emitStmts sts) (outlineStmts sts)
  | [] => lowers_pure ()
  | st :: rest => lowers_bind (emitStmt_lowers st) fun _ => emitStmts_lowers rest

theorem emitFlagChecks_lowers : ∀ cases : List (FlagCase Stmt),
    Lowers (emitFlagChecks cases) (outlineFlagChecks cases)
  | [] => lowers_pure ()
  | c :: rest => lowers_bind (emitFlagCase_lowers c) fun _ => emitFlagChecks_lowers rest

theorem emitFlagCase_lowers : ∀ c : FlagCase Stmt, Lowers (emitFlagCase c) (outlineFlagCase c)
  | ⟨condition, none⟩ => lowers_flagCase condition (emitTrap_lowers condition)
  | ⟨condition, some body⟩ =>
    lowers_flagCase condition (lowers_inScope (emitStmts_lowers body))

end

end Nib.Compile
