import Nib.Compile.Properties.Outline

/-!
# Where the lines of the trees stand

The blocks and loops around the current tree tell where the run goes on after it.

* `At` — the lines at a position are those of the current trees and of the frames around them
* `At.while_body`, `At.ite_then`, … — the positions of the parts of a tree
* `findTrees_at` — a label of the program stands where the search of the trees finds it
-/

namespace Nib.Compile

open Nib.Infra

/-! ## Positions -/

/-- The lines stand at a position. -/
def Sits (prog : List Line) (pc : Nat) (lines : List Line) : Prop :=
  ∃ before after, prog = before ++ (lines ++ after) ∧ before.length = pc

section Sits

variable {prog : List Line} {pc : Nat} {l : Line} {lines rest : List Line}

theorem Sits.left (h : Sits prog pc (lines ++ rest)) : Sits prog pc lines := by
  obtain ⟨before, after, hp, hlen⟩ := h
  exact ⟨before, rest ++ after, by rw [hp, List.append_assoc], hlen⟩

theorem Sits.right (h : Sits prog pc (lines ++ rest)) : Sits prog (pc + lines.length) rest := by
  obtain ⟨before, after, hp, hlen⟩ := h
  refine ⟨before ++ lines, after, ?_, by rw [List.length_append, hlen]⟩
  rw [hp, List.append_assoc, List.append_assoc]

theorem Sits.tail (h : Sits prog pc (l :: rest)) : Sits prog (pc + 1) rest :=
  @Sits.right prog pc [l] rest h

theorem Sits.getElem? (h : Sits prog pc (l :: rest)) : prog[pc]? = some l := by
  obtain ⟨before, after, rfl, rfl⟩ := h
  simp

theorem Sits.nil (h : Sits prog pc lines) : Sits prog pc [] := by
  obtain ⟨before, after, hp, hlen⟩ := h
  exact ⟨before, lines ++ after, hp, hlen⟩

/-- The position after the last line. -/
theorem sits_end (prog : List Line) : Sits prog prog.length [] := ⟨prog, [], by simp, rfl⟩

theorem labelIndex_append (a b : List Line) (l : Lbl) :
    labelIndex (a ++ b) l =
      (labelIndex a l).or ((labelIndex b l).map fun i => i + a.length) :=
  List.findIdx?_append

theorem labelIndex_cons_self (l : Lbl) (rest : List Line) :
    labelIndex (.label l :: rest) l = some 0 := by
  simp [labelIndex, List.findIdx?_cons]

/-- A label that stands before the position is not the label there. -/
theorem labelIndex_none {n : Nat} : ∀ {lines : List Line}, n ∉ autoLabels lines →
    labelIndex lines (.auto n) = none
  | [], _ => rfl
  | l :: rest, h => by
    have hrest : n ∉ autoLabels rest := by
      intro hn
      apply h
      show n ∈ autoLabels ([l] ++ rest)
      rw [autoLabels_append]
      exact List.mem_append_right _ hn
    have hl : ¬(l == .label (.auto n)) = true := by
      intro he
      rw [beq_iff_eq] at he
      subst he
      exact h (List.mem_cons_self ..)
    have ih := labelIndex_none hrest
    unfold labelIndex at ih ⊢
    rw [List.findIdx?_cons, if_neg hl, ih]
    rfl

/-- The labels of the compiler are where they stand, since no two are the same. -/
theorem Sits.labelIndex {n : Nat} (hnodup : (autoLabels prog).Nodup)
    (h : Sits prog pc (.label (.auto n) :: rest)) : labelIndex prog (.auto n) = some pc := by
  obtain ⟨before, after, rfl, rfl⟩ := h
  have hn : n ∉ autoLabels before := by
    rw [autoLabels_append] at hnodup
    intro hn
    exact (List.nodup_append.mp hnodup).2.2 n hn n (by simp) rfl
  rw [labelIndex_append, labelIndex_none hn, List.cons_append, labelIndex_cons_self]
  simp

end Sits

/-! ## Steps of the lines -/

section Steps

variable {ρ : Type} (exec : Exec ρ) {prog : List Line} {pc : Nat} {rest : List Line}

theorem step_label {l : Lbl} (h : Sits prog pc (.label l :: rest)) (s : MachState ρ) :
    Steps (lineStep exec prog) 1 ⟨pc, s⟩ [] ⟨pc + 1, s⟩ := by
  refine .single ?_
  simp only [lineStep, h.getElem?]

theorem step_jump {j : Jump} {l : Lbl} (h : Sits prog pc (.jump j l :: rest)) {s s' : MachState ρ}
    (hj : takeJump j s = some (true, s')) {i : Nat} (hi : labelIndex prog l = some i) :
    Steps (lineStep exec prog) 1 ⟨pc, s⟩ [] ⟨i, s'⟩ := by
  refine .single ?_
  simp only [lineStep, h.getElem?, hj, hi, Option.map_some]

theorem step_noJump {j : Jump} {l : Lbl} (h : Sits prog pc (.jump j l :: rest))
    {s s' : MachState ρ} (hj : takeJump j s = some (false, s')) :
    Steps (lineStep exec prog) 1 ⟨pc, s⟩ [] ⟨pc + 1, s'⟩ := by
  refine .single ?_
  simp only [lineStep, h.getElem?, hj]

theorem steps_instrs : ∀ (is : List Instr) {pc : Nat}, Sits prog pc (is.map .instr ++ rest) →
    ∀ s : MachState ρ, Steps (lineStep exec prog) is.length ⟨pc, s⟩ (is.map .instr)
      ⟨pc + is.length, execAll exec is s⟩
  | [], _, _, s => .refl _
  | i :: is, pc, h, s => by
    have h' : Sits prog pc (.instr i :: (is.map .instr ++ rest)) := h
    have hstep : lineStep exec prog ⟨pc, s⟩ = some (⟨pc + 1, exec i s⟩, [.instr i]) := by
      simp only [lineStep, h'.getElem?]
    have := Steps.head hstep (steps_instrs is h'.tail (exec i s))
    rw [show pc + (i :: is).length = pc + 1 + is.length by simp; omega]
    exact this

end Steps

/-! ## Frames -/

/-- The labels of the innermost loop. -/
def loopLabels : List Frame → LoopLabels
  | [] => none
  | .block _ :: k => loopLabels k
  | .while _ _ lblTop lblEnd _ _ :: _ => some (lblEnd, lblTop)
  | .for _ lblTop lblEnd _ _ :: _ => some (lblEnd, lblTop)

section Frames

variable {ρ : Type} (exec : Exec ρ) (prog : List Line)

/-- Lines without events lead from a position to another one. -/
def Silent (pc pc' : Nat) : Prop :=
  ∀ s : MachState ρ, ∃ n, 0 < n ∧ Steps (lineStep exec prog) n ⟨pc, s⟩ [] ⟨pc', s⟩

/-- The run leaves the innermost frame at a position. -/
inductive FrameEnd : List Frame → Nat → Prop
  | done : FrameEnd [] prog.length
  | block {rest : List Tree} {k : List Frame} {pc pc' : Nat} : Silent exec prog pc pc' →
      Sits prog pc' (treesLines (loopLabels k) rest) →
      FrameEnd k (pc' + (treesLines (loopLabels k) rest).length) →
      FrameEnd (.block rest :: k) pc
  | while {cond : List Instr} {v : Int} {lblTop lblEnd : Nat} {body rest : List Tree}
      {k : List Frame} {pct pc : Nat} :
      Sits prog pct (treesLines (loopLabels k) (.while cond v lblTop lblEnd body :: rest)) →
      FrameEnd k (pct +
        (treesLines (loopLabels k) (.while cond v lblTop lblEnd body :: rest)).length) →
      pct + ((Tree.while cond v lblTop lblEnd body).lines (loopLabels k)).length = pc + 2 →
      FrameEnd (.while cond v lblTop lblEnd body rest :: k) pc
  | for {start : List Instr} {cx : Int} {lblTop lblEnd : Nat} {body rest : List Tree}
      {k : List Frame} {pct pc : Nat} :
      Sits prog pct (treesLines (loopLabels k) (.for start cx lblTop lblEnd body :: rest)) →
      FrameEnd k (pct +
        (treesLines (loopLabels k) (.for start cx lblTop lblEnd body :: rest)).length) →
      pct + ((Tree.for start cx lblTop lblEnd body).lines (loopLabels k)).length = pc + 2 →
      FrameEnd (.for cx lblTop lblEnd body rest :: k) pc

/-- The lines at a position are those of the trees, and after them those of the frames. -/
structure At (ts : List Tree) (k : List Frame) (pc : Nat) : Prop where
  sits : Sits prog pc (treesLines (loopLabels k) ts)
  frames : FrameEnd exec prog k (pc + (treesLines (loopLabels k) ts).length)

end Frames

section Positions

variable {ρ : Type} {exec : Exec ρ} {prog : List Line} {ctx : LoopLabels} {pc : Nat}
  {k : List Frame} {ts rest body : List Tree} {cond start : List Instr} {v cx : Int}
  {lblTop lblEnd : Nat}

theorem At.tail {t : Tree} (h : At exec prog (t :: rest) k pc) :
    At exec prog rest k (pc + (t.lines (loopLabels k)).length) := by
  obtain ⟨hs, hf⟩ := h
  rw [treesLines] at hs hf
  rw [List.length_append, ← Nat.add_assoc] at hf
  exact ⟨hs.right, hf⟩

/-- The first lines of the first tree. -/
theorem At.sits_head {t : Tree} (h : At exec prog (t :: rest) k pc) :
    Sits prog pc (t.lines (loopLabels k) ++ treesLines (loopLabels k) rest) := by
  have := h.sits
  rwa [treesLines] at this

/-- The lines of a `while`, in one piece. -/
theorem At.while_lines (h : At exec prog (.while cond v lblTop lblEnd body :: rest) k pc) :
    Sits prog pc (.label (.auto lblTop) :: (cond.map .instr ++ (.jump (.ifZero v) (.auto lblEnd) ::
      (treesLines (some (lblEnd, lblTop)) body ++
        (.jump .always (.auto lblTop) :: .label (.auto lblEnd) ::
          treesLines (loopLabels k) rest))))) := by
  have := h.sits_head
  simpa only [Tree.lines, List.cons_append, List.append_assoc, List.nil_append] using this

theorem while_length : ((Tree.while cond v lblTop lblEnd body).lines ctx).length =
    cond.length + (treesLines (some (lblEnd, lblTop)) body).length + 4 := by
  simp only [Tree.lines, List.length_cons, List.length_append, List.length_map, List.length_nil]
  omega

theorem At.while_body (h : At exec prog (.while cond v lblTop lblEnd body :: rest) k pc) :
    At exec prog body (.while cond v lblTop lblEnd body rest :: k) (pc + 1 + cond.length + 1) := by
  have hbody := h.while_lines.tail.right.tail.left
  rw [List.length_map] at hbody
  refine ⟨hbody, .while h.sits h.frames ?_⟩
  rw [while_length, loopLabels]
  omega

theorem At.while_rest (h : At exec prog (.while cond v lblTop lblEnd body :: rest) k pc) :
    At exec prog rest k
      (pc + 1 + cond.length + 1 + (treesLines (some (lblEnd, lblTop)) body).length + 1 + 1) := by
  have hrest := h.tail
  rw [while_length] at hrest
  convert hrest using 1
  omega

/-- The lines of a `for`, in one piece. -/
theorem At.for_lines (h : At exec prog (.for start cx lblTop lblEnd body :: rest) k pc) :
    Sits prog pc (start.map .instr ++ (.label (.auto lblTop) ::
      (treesLines (some (lblEnd, lblTop)) body ++
        (.jump (.loop cx) (.auto lblTop) :: .label (.auto lblEnd) ::
          treesLines (loopLabels k) rest)))) := by
  have := h.sits_head
  simpa only [Tree.lines, List.cons_append, List.append_assoc, List.nil_append] using this

theorem for_length : ((Tree.for start cx lblTop lblEnd body).lines ctx).length =
    start.length + (treesLines (some (lblEnd, lblTop)) body).length + 3 := by
  simp only [Tree.lines, List.length_cons, List.length_append, List.length_map, List.length_nil]
  omega

theorem At.for_body (h : At exec prog (.for start cx lblTop lblEnd body :: rest) k pc) :
    At exec prog body (.for cx lblTop lblEnd body rest :: k) (pc + start.length + 1) := by
  have hbody := h.for_lines.right.tail.left
  rw [List.length_map] at hbody
  refine ⟨hbody, .for h.sits h.frames ?_⟩
  rw [for_length, loopLabels]
  omega

theorem At.for_rest (h : At exec prog (.for start cx lblTop lblEnd body :: rest) k pc) :
    At exec prog rest k
      (pc + start.length + 1 + (treesLines (some (lblEnd, lblTop)) body).length + 1 + 1) := by
  have hrest := h.tail
  rw [for_length] at hrest
  convert hrest using 1
  omega

end Positions

/-! ## Branches -/

section Branches

variable {ρ : Type} {exec : Exec ρ} {prog : List Line} {pc i : Nat} {k : List Frame}
  {cond : List Instr} {v : Int} {lblElse lblEnd skip : Nat} {condition : FlagExpr}
  {thenBody elseTrees body rest : List Tree} {elseBody : Option (List Tree)}

theorem silent_label {l : Lbl} {ls : List Line} (h : Sits prog pc (.label l :: ls)) :
    Silent exec prog pc (pc + 1) := fun s => ⟨1, Nat.one_pos, step_label exec h s⟩

theorem silent_jump {l : Lbl} {ls ls' : List Line} (h : Sits prog pc (.jump .always l :: ls))
    (hi : labelIndex prog l = some i) (h' : Sits prog i (.label l :: ls')) :
    Silent exec prog pc (i + 1) := fun s =>
  ⟨1 + 1, Nat.two_pos, (step_jump exec h rfl hi).then_silent (step_label exec h' s)⟩

/-- The lines of an `if` up to the end of its `then` branch. -/
theorem At.ite_lines
    (h : At exec prog (.ite cond v lblElse lblEnd thenBody elseBody :: rest) k pc) :
    Sits prog pc (cond.map .instr ++ (.jump (.ifZero v) (.auto lblElse) ::
      (treesLines (loopLabels k) thenBody ++ (elseLines (loopLabels k) lblElse lblEnd elseBody ++
        treesLines (loopLabels k) rest)))) := by
  have := h.sits_head
  simpa only [Tree.lines, List.cons_append, List.append_assoc, List.nil_append] using this

theorem At.ite_rest (h : At exec prog (.ite cond v lblElse lblEnd thenBody elseBody :: rest) k pc) :
    At exec prog rest k (pc + cond.length + 1 + (treesLines (loopLabels k) thenBody).length +
      (elseLines (loopLabels k) lblElse lblEnd elseBody).length) := by
  have hrest := h.tail
  convert hrest using 1
  simp only [Tree.lines, List.length_append, List.length_map, List.length_cons]
  omega

/-- The lines of the `else` branch. -/
theorem At.ite_sits_else
    (h : At exec prog (.ite cond v lblElse lblEnd thenBody elseBody :: rest) k pc) :
    Sits prog (pc + cond.length + 1 + (treesLines (loopLabels k) thenBody).length)
      (elseLines (loopLabels k) lblElse lblEnd elseBody ++ treesLines (loopLabels k) rest) := by
  have helse := h.ite_lines.right.tail.right
  rwa [List.length_map] at helse

/-- At the end of the `then` branch without an `else`. -/
theorem At.ite_noElse (h : At exec prog (.ite cond v lblElse lblEnd thenBody none :: rest) k pc) :
    FrameEnd exec prog (.block rest :: k)
      (pc + cond.length + 1 + (treesLines (loopLabels k) thenBody).length) :=
  .block (silent_label h.ite_sits_else) h.ite_rest.sits h.ite_rest.frames

theorem At.ite_else
    (h : At exec prog (.ite cond v lblElse lblEnd thenBody (some elseTrees) :: rest) k pc) :
    At exec prog elseTrees (.block rest :: k)
      (pc + cond.length + 1 + (treesLines (loopLabels k) thenBody).length + 1 + 1) := by
  have helse := h.ite_sits_else
  simp only [elseLines, List.cons_append, List.append_assoc, List.nil_append] at helse
  have hrest := h.ite_rest
  simp only [elseLines, List.length_cons, List.length_append, List.length_nil] at hrest
  refine ⟨helse.tail.tail.left, .block (silent_label helse.tail.tail.right) ?_ ?_⟩
  · convert hrest.sits using 1
    simp only [loopLabels]
    omega
  · convert hrest.frames using 1
    simp only [loopLabels]
    omega

/-- At the end of the `then` branch a jump leads over the `else` branch. -/
theorem At.ite_skipElse (hnodup : (autoLabels prog).Nodup)
    (h : At exec prog (.ite cond v lblElse lblEnd thenBody (some elseTrees) :: rest) k pc) :
    FrameEnd exec prog (.block rest :: k)
      (pc + cond.length + 1 + (treesLines (loopLabels k) thenBody).length) := by
  have helse := h.ite_sits_else
  simp only [elseLines, List.cons_append, List.append_assoc, List.nil_append] at helse
  have hend := helse.tail.tail.right
  have hrest := h.ite_rest
  simp only [elseLines, List.length_cons, List.length_append, List.length_nil] at hrest
  refine .block (silent_jump helse (hend.labelIndex hnodup) hend) ?_ ?_
  · convert hrest.sits using 1
    omega
  · convert hrest.frames using 1
    omega

theorem At.ite_then (hnodup : (autoLabels prog).Nodup)
    (h : At exec prog (.ite cond v lblElse lblEnd thenBody elseBody :: rest) k pc) :
    At exec prog thenBody (.block rest :: k) (pc + cond.length + 1) := by
  have hthen := h.ite_lines.right.tail.left
  rw [List.length_map] at hthen
  refine ⟨hthen, ?_⟩
  cases elseBody with
  | none => exact h.ite_noElse
  | some elseTrees => exact h.ite_skipElse hnodup


/-- The lines of a case of a flag check, in one piece. -/
theorem At.check_lines (h : At exec prog (.check condition skip body :: rest) k pc) :
    Sits prog pc (testLines condition skip ++ (treesLines (loopLabels k) body ++
      (.label (.auto skip) :: treesLines (loopLabels k) rest))) := by
  have := h.sits_head
  simpa only [Tree.lines, List.cons_append, List.append_assoc, List.nil_append] using this

theorem At.check_rest (h : At exec prog (.check condition skip body :: rest) k pc) :
    At exec prog rest k (pc + (testLines condition skip).length +
      (treesLines (loopLabels k) body).length + 1) := by
  have hrest := h.tail
  convert hrest using 1
  simp only [Tree.lines, List.length_append, List.length_cons, List.length_nil]
  omega

theorem At.check_body (h : At exec prog (.check condition skip body :: rest) k pc) :
    At exec prog body (.block rest :: k) (pc + (testLines condition skip).length) :=
  ⟨h.check_lines.right.left,
    .block (silent_label h.check_lines.right.right) h.check_rest.sits h.check_rest.frames⟩

end Branches

/-! ## Labels of the program -/

section Labels

variable {ρ : Type} {exec : Exec ρ} {prog : List Line} {name : String} {pc : Nat}

/-- A search of the trees that stand at a position, and the search of their lines. -/
def Finds (exec : Exec ρ) (prog : List Line) (name : String) (pc : Nat) (lines : List Line) :
    Option (List Tree × List Frame) → Prop
  | none => labelIndex lines (.user name) = none
  | some r => ∃ i, labelIndex lines (.user name) = some i ∧ At exec prog r.1 r.2 (pc + i)

theorem labelIndex_instrs (l : Lbl) : ∀ is : List Instr, labelIndex (is.map .instr) l = none
  | [] => rfl
  | i :: is => by
    have ih := labelIndex_instrs l is
    unfold labelIndex at ih ⊢
    rw [List.map_cons, List.findIdx?_cons, ih]
    rfl

theorem Finds.append {a b : List Line} {r r' : Option (List Tree × List Frame)}
    (h : Finds exec prog name pc a r) (h' : Finds exec prog name (pc + a.length) b r') :
    Finds exec prog name pc (a ++ b) (r.or r') := by
  cases r with
  | some r =>
    obtain ⟨i, hi, hat⟩ := h
    refine ⟨i, ?_, hat⟩
    rw [labelIndex_append, hi, Option.some_or]
  | none =>
    have hn : labelIndex a (.user name) = none := h
    cases r' with
    | none =>
      show labelIndex (a ++ b) (.user name) = none
      have hn' : labelIndex b (.user name) = none := h'
      rw [labelIndex_append, hn, hn']
      rfl
    | some r' =>
      obtain ⟨i, hi, hat⟩ := h'
      refine ⟨i + a.length, ?_, ?_⟩
      · rw [labelIndex_append, hn, hi]
        rfl
      · convert hat using 1
        omega

/-- Lines around a block that are no labels of the program. -/
theorem Finds.around {a b c : List Line} {r : Option (List Tree × List Frame)}
    (ha : labelIndex a (.user name) = none) (h : Finds exec prog name (pc + a.length) b r)
    (hc : labelIndex c (.user name) = none) : Finds exec prog name pc (a ++ (b ++ c)) r := by
  have hc' : Finds exec prog name (pc + a.length + b.length) c none := hc
  have hbc := Finds.append h hc'
  have ha' : Finds exec prog name pc a none := ha
  have := Finds.append ha' hbc
  rwa [Option.none_or, Option.or_none] at this

theorem labelIndex_testLines (condition : FlagExpr) (skip : Nat) :
    labelIndex (testLines condition skip) (.user name) = none := by
  have hop : ∀ e set label, labelIndex (operandJump e set label) (.user name) = none := by
    intro e set label
    cases e <;> rfl
  cases condition with
  | flag id => rfl
  | not e => cases e <;> rfl
  | and l r => simp only [testLines, labelIndex_append, hop, Option.map_none, Option.or_none]
  | or l r =>
    simp only [testLines, labelIndex_append, hop, Option.map_none, Option.or_none]
    rfl
  | xor l r =>
    simp only [testLines, labelIndex_append, hop, Option.map_none, Option.or_none]
    rfl

mutual

theorem findTree_at (hnodup : (autoLabels prog).Nodup) : ∀ (t : Tree) {rest : List Tree}
    {k : List Frame} {pc : Nat}, At exec prog (t :: rest) k pc →
    Finds exec prog name pc (t.lines (loopLabels k)) (findTree name t rest k)
  | .code is, _, _, _, _ => labelIndex_instrs _ is
  | .exit .., _, _, _, _ => rfl
  | .goto _, _, _, _, _ => rfl
  | .dropped _, _, _, _, _ => rfl
  | .brk, _, k, _, _ => by
    rcases loopLabels k with _ | ⟨b, c⟩ <;> rfl
  | .cont, _, k, _, _ => by
    rcases loopLabels k with _ | ⟨b, c⟩ <;> rfl
  | .label n, rest, k, pc, h => by
    rw [Tree.lines, findTree]
    by_cases hn : n = name
    · subst hn
      rw [if_pos rfl]
      exact ⟨0, labelIndex_cons_self _ _, h⟩
    · rw [if_neg hn]
      show labelIndex [.label (.user n)] (.user name) = none
      have hne : (Line.label (.user n) == Line.label (.user name)) = false := by
        rw [beq_eq_false_iff_ne]
        intro he
        cases he
        exact hn rfl
      rw [labelIndex, List.findIdx?_cons, hne]
      rfl
  | .ite cond v lblElse lblEnd thenBody elseBody, rest, k, pc, h => by
    have hthen := findTrees_at hnodup thenBody (h.ite_then hnodup)
    have helse : Finds exec prog name
        (pc + cond.length + 1 + (treesLines (loopLabels k) thenBody).length)
        (elseLines (loopLabels k) lblElse lblEnd elseBody)
        (findElse name elseBody (.block rest :: k)) := by
      refine findElse_at hnodup elseBody lblElse lblEnd ?_
      intro elseTrees he
      subst he
      exact h.ite_else
    have hbefore : labelIndex (cond.map .instr ++ [.jump (.ifZero v) (.auto lblElse)])
        (.user name) = none := by
      rw [labelIndex_append, labelIndex_instrs]
      rfl
    -- neither the condition nor the branch holds a label of the user, so the search goes on in the
    -- two bodies, in the order of the lines
    have hlen : pc + (cond.map Line.instr ++ [Line.jump (.ifZero v) (.auto lblElse)]).length =
        pc + cond.length + 1 := by
      simp only [List.length_cons, List.length_append, List.length_map, List.length_nil]
      omega
    rw [← hlen] at hthen helse
    have := Finds.append (r := none) hbefore (hthen.append helse)
    rw [Option.none_or, List.append_assoc, List.singleton_append] at this
    rw [Tree.lines, findTree, List.append_assoc, List.cons_append]
    cases hf : findTrees name thenBody (.block rest :: k) with
    | none => rwa [hf] at this
    | some r => rwa [hf] at this
  | .while cond v lblTop lblEnd body, rest, k, pc, h => by
    have hbody := findTrees_at hnodup body h.while_body
    have hbefore : labelIndex (.label (.auto lblTop) :: (cond.map .instr ++
        [.jump (.ifZero v) (.auto lblEnd)])) (.user name) = none := by
      rw [← List.singleton_append, labelIndex_append, labelIndex_append, labelIndex_instrs]
      rfl
    have hlen : pc + (Line.label (.auto lblTop) :: (cond.map .instr ++
        [.jump (.ifZero v) (.auto lblEnd)])).length = pc + 1 + cond.length + 1 := by
      simp only [List.length_cons, List.length_append, List.length_map, List.length_nil]
      omega
    rw [← hlen] at hbody
    have := Finds.around (c := [.jump .always (.auto lblTop), .label (.auto lblEnd)])
      hbefore hbody rfl
    rw [List.cons_append, List.append_assoc, List.singleton_append] at this
    rwa [Tree.lines, findTree]
  | .for start cx lblTop lblEnd body, rest, k, pc, h => by
    have hbody := findTrees_at hnodup body h.for_body
    have hbefore : labelIndex (start.map .instr ++ [.label (.auto lblTop)]) (.user name) =
        none := by
      rw [labelIndex_append, labelIndex_instrs]
      rfl
    have hlen : pc + (start.map Line.instr ++ [Line.label (.auto lblTop)]).length =
        pc + start.length + 1 := by
      simp only [List.length_cons, List.length_append, List.length_map, List.length_nil]
      omega
    rw [← hlen] at hbody
    have := Finds.around (c := [.jump (.loop cx) (.auto lblTop), .label (.auto lblEnd)])
      hbefore hbody rfl
    rw [List.append_assoc, List.singleton_append] at this
    rwa [Tree.lines, findTree]
  | .check condition skip body, rest, k, pc, h => by
    have hbody := findTrees_at hnodup body h.check_body
    rw [Tree.lines, findTree]
    exact .around (labelIndex_testLines condition skip) hbody rfl

theorem findTrees_at (hnodup : (autoLabels prog).Nodup) : ∀ (ts : List Tree)
    {k : List Frame} {pc : Nat}, At exec prog ts k pc →
    Finds exec prog name pc (treesLines (loopLabels k) ts) (findTrees name ts k)
  | [], _, _, _ => rfl
  | t :: rest, k, pc, h => by
    have ht := findTree_at hnodup t h
    have hrest := findTrees_at hnodup rest h.tail
    have := ht.append hrest
    rw [treesLines, findTrees]
    cases hf : findTree name t rest k with
    | none => rwa [hf] at this
    | some r => rwa [hf] at this

/-- The `else` branch, when there is one, starts after a jump and a label. -/
theorem findElse_at (hnodup : (autoLabels prog).Nodup) : ∀ (elseBody : Option (List Tree))
    (lblElse lblEnd : Nat) {k : List Frame} {pc : Nat},
    (∀ elseTrees, elseBody = some elseTrees → At exec prog elseTrees k (pc + 1 + 1)) →
    Finds exec prog name pc (elseLines (loopLabels k) lblElse lblEnd elseBody)
      (findElse name elseBody k)
  | none, _, _, _, _, _ => rfl
  | some elseTrees, lblElse, lblEnd, k, pc, h => by
    have htrees := findTrees_at hnodup elseTrees (h elseTrees rfl)
    rw [elseLines, findElse]
    exact .around (a := [.jump .always (.auto lblEnd), .label (.auto lblElse)]) rfl htrees rfl

end

end Labels

end Nib.Compile
