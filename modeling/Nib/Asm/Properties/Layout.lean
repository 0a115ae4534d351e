import Nib.Asm.Properties.Length
import Nib.Asm.Properties.Symbols

/-!
# The last run of pass 1 and pass 2 lay out the program alike

Two runs over the same lines are compared line by line. Their positions stay equal as long as
the lines are in the same forms, and so do the labels each of them has defined.

* `processLine_sync` — one line keeps the positions equal
* `processLines_layout` — all lines do, by induction
* `layout_agrees` — a program assembled without an error, whose lines are in the same forms in
  both passes, has its labels where pass 1 put them
-/

namespace Nib.Asm

namespace AsmState

/-! ## What the steps leave alone -/

@[simp] theorem emitByte_orgBase (s : AsmState) (b : Nat) : (s.emitByte b).orgBase = s.orgBase := by
  unfold emitByte
  split_ifs <;> rfl

@[simp] theorem emitByte_orgStack (s : AsmState) (b : Nat) :
    (s.emitByte b).orgStack = s.orgStack := by
  unfold emitByte
  split_ifs <;> rfl

@[simp] theorem emitByte_labels (s : AsmState) (b : Nat) : (s.emitByte b).labels = s.labels := by
  unfold emitByte
  split_ifs <;> rfl

@[simp] theorem emitByte_errors (s : AsmState) (b : Nat) : (s.emitByte b).errors = s.errors := by
  unfold emitByte
  split_ifs <;> rfl

@[simp] theorem emitByte_pass2 (s : AsmState) (b : Nat) : (s.emitByte b).pass2 = s.pass2 := by
  unfold emitByte
  split_ifs <;> rfl

/-- A byte that did not stop the run moved the position by one. -/
theorem emitByte_outPos {s : AsmState} {b : Nat} (h : (s.emitByte b).stopped = false) :
    s.stopped = false ∧ (s.emitByte b).outPos = s.outPos + 1 := by
  unfold emitByte at h ⊢
  by_cases h1 : s.stopped = true
  · rw [if_pos h1, h1] at h
    exact absurd h (by decide)
  · rw [if_neg h1] at h ⊢
    by_cases h2 : (s.pass2 && decide (s.pos ≥ maxOutput)) = true
    · rw [if_pos h2] at h
      exact absurd h Bool.noConfusion
    · rw [if_neg h2]
      exact ⟨by simpa using h1, rfl⟩

/-- A property that emitting a byte keeps. -/
theorem emitBytes_keeps {α : Type} (f : AsmState → α) (hf : ∀ s b, f (emitByte s b) = f s) :
    ∀ (bs : List Nat) (s : AsmState), f (s.emitBytes bs) = f s
  | [], _ => rfl
  | b :: bs, s => (emitBytes_keeps f hf bs (s.emitByte b)).trans (hf s b)

theorem emitBytes_outPos : ∀ (bs : List Nat) {s : AsmState}, (s.emitBytes bs).stopped = false →
    s.stopped = false ∧ (s.emitBytes bs).outPos = s.outPos + bs.length
  | [], _, h => ⟨h, by simp [emitBytes]⟩
  | b :: bs, s, h => by
    obtain ⟨hs, hpos⟩ := emitBytes_outPos bs (s := s.emitByte b) h
    obtain ⟨hs', hpos'⟩ := emitByte_outPos hs
    refine ⟨hs', ?_⟩
    rw [hpos'] at hpos
    show ((s.emitByte b).emitBytes bs).outPos = _
    rw [hpos, List.length_cons]
    push_cast
    omega

/-! ## One line, unfolded -/

/-- The state and the statement of a line after its label and its parse. -/
def afterLabel (s : AsmState) (text : List Char) : AsmState := s.defineLabel (splitLine text).1

def lineParse (s : AsmState) (text : List Char) : Statement × ParseState :=
  parseStatement (s.afterLabel text).env { ptr := (splitLine text).2 }

/-- The state in which the statement of a line is executed. -/
def beforeExec (s : AsmState) (text : List Char) : AsmState :=
  (s.afterLabel text).afterParse (s.lineParse text).2

/-- A line that did not stop the run has executed its statement. -/
theorem processLine_eq {s : AsmState} {line : Nat} {text : List Char}
    (h : (s.processLine line text).stopped = false) :
    s.stopped = false ∧ (s.beforeExec text).stopped = false ∧
      s.processLine line text = (s.beforeExec text).execStatement line (s.lineParse text).1 := by
  unfold processLine at h ⊢
  by_cases h1 : s.stopped = true
  · rw [if_pos h1, h1] at h
    exact absurd h (by decide)
  · rw [if_neg h1] at h ⊢
    simp only at h ⊢
    by_cases h2 : (s.defineLabel (splitLine text).1).stopped = true
    · rw [if_pos h2, h2] at h
      exact absurd h (by decide)
    · rw [if_neg h2] at h ⊢
      by_cases h3 : (s.beforeExec text).stopped = true
      · have h3' := h3
        unfold beforeExec lineParse afterLabel at h3'
        rw [if_pos h3', h3'] at h
        exact absurd h (by decide)
      · have h3' := h3
        unfold beforeExec lineParse afterLabel at h3'
        rw [if_neg h3']
        exact ⟨by simpa using h1, by simpa using h3, rfl⟩

/-- A label changes the table, the errors and nothing else of the layout. -/
theorem defineLabel_shape (s : AsmState) (d : LabelDef) : ∃ labels n stopped,
    s.defineLabel d =
      { s with labels := labels, errors := s.errors + n, stopped := s.stopped || stopped } := by
  cases d with
  | none => exact ⟨s.labels, 0, false, by simp [defineLabel]⟩
  | equ name expr =>
    simp only [defineLabel, addLabelTyped]
    split_ifs
    · exact ⟨s.labels, (parseExpr s.env { ptr := expr }).2.errors + 1, _, rfl⟩
    · exact ⟨_, (parseExpr s.env { ptr := expr }).2.errors, _, rfl⟩
  | pos name ltype =>
    simp only [defineLabel, addLabelTyped]
    split_ifs
    · exact ⟨s.labels, 1, false, by simp [addErrors]⟩
    · exact ⟨_, 0, false, by simp; rfl⟩

theorem markRelaxedLine_shape (s : AsmState) (line : Nat) : ∃ relaxed jcc,
    s.markRelaxedLine line = { s with relaxed := relaxed, jccRelaxed := jcc } := by
  unfold markRelaxedLine
  split_ifs
  · exact ⟨s.relaxed, s.jccRelaxed, rfl⟩
  · exact ⟨_, _, rfl⟩

/-- The bytes of an instruction are written after its errors and its relaxation. -/
theorem execInstr_shape (s : AsmState) (line : Nat) (i : Instr) : ∃ s' : AsmState,
    s.execStatement line (.instr i) = s'.emitBytes (encode (s.site line) i).bytes ∧
      s'.outPos = s.outPos ∧ s'.orgBase = s.orgBase ∧ s'.orgStack = s.orgStack ∧
      s'.labels = s.labels ∧ s'.errors = s.errors + (encode (s.site line) i).errors := by
  obtain ⟨relaxed, jcc, hm⟩ := s.markRelaxedLine_shape line
  simp only [execStatement]
  by_cases hr : (encode (s.site line) i).relax = true
  · rw [if_pos hr, hm]
    exact ⟨_, rfl, rfl, rfl, rfl, rfl, rfl⟩
  · rw [if_neg hr]
    exact ⟨_, rfl, rfl, rfl, rfl, rfl, rfl⟩

/-- A statement does not change the labels. -/
theorem execStatement_labels (s : AsmState) (line : Nat) (st : Statement) :
    (s.execStatement line st).labels = s.labels := by
  cases st with
  | data bytes => exact emitBytes_keeps labels emitByte_labels bytes s
  | instr i =>
    obtain ⟨s', he, -, -, -, hl, -⟩ := s.execInstr_shape line i
    rw [he, emitBytes_keeps labels emitByte_labels, hl]
  | endorg =>
    unfold execStatement
    cases s.orgStack <;> rfl
  | _ => rfl

/-- A statement does not take errors back. -/
theorem execStatement_errors (s : AsmState) (line : Nat) (st : Statement) :
    s.errors ≤ (s.execStatement line st).errors := by
  cases st with
  | data bytes => exact Nat.le_of_eq (emitBytes_keeps errors emitByte_errors bytes s).symm
  | instr i =>
    obtain ⟨s', he, -, -, -, -, herr⟩ := s.execInstr_shape line i
    rw [he, emitBytes_keeps errors emitByte_errors, herr]
    exact Nat.le_add_right _ _
  | endorg =>
    unfold execStatement
    cases s.orgStack <;> exact Nat.le_refl _
  | _ => exact Nat.le_refl _

/-! ## Runs without an error -/

/-- The run has not stopped and has reported no error. -/
structure Fine (s : AsmState) : Prop where
  running : s.stopped = false
  noErrors : s.errors = 0

theorem fine_of_afterLabel {s : AsmState} {text : List Char} (h : (s.beforeExec text).Fine) :
    (s.afterLabel text).Fine := by
  obtain ⟨hr, he⟩ := h
  have herr : (s.afterLabel text).errors + (s.lineParse text).2.errors = 0 := he
  have hstop : ((s.afterLabel text).stopped || (s.lineParse text).2.hung) = false := hr
  exact ⟨(Bool.or_eq_false_iff.mp hstop).1, by omega⟩

/-- A line without an error has executed its statement, in a state without an error. -/
theorem processLine_fine {s : AsmState} {line : Nat} {text : List Char}
    (h : (s.processLine line text).Fine) :
    s.Fine ∧ (s.beforeExec text).Fine ∧
      s.processLine line text = (s.beforeExec text).execStatement line (s.lineParse text).1 := by
  obtain ⟨hs, hb, heq⟩ := processLine_eq h.running
  have hb' : (s.beforeExec text).Fine := by
    refine ⟨hb, Nat.le_zero.mp ?_⟩
    rw [← h.noErrors, heq]
    exact execStatement_errors _ line _
  refine ⟨⟨hs, ?_⟩, hb', heq⟩
  have hl := (fine_of_afterLabel hb').noErrors
  obtain ⟨labels, n, stopped, hd⟩ := s.defineLabel_shape (splitLine text).1
  rw [afterLabel, hd] at hl
  exact Nat.eq_zero_of_add_eq_zero_right hl

theorem processLines_fine : ∀ (lines : List (List Char)) {line : Nat} {s : AsmState},
    (s.processLines line lines).Fine → s.Fine
  | [], _, _, h => h
  | _ :: rest, _, _, h => (processLine_fine (processLines_fine rest h)).1

/-! ## Positions -/

/-- The position a saved state of `org` returns to. -/
def savedPos (st : OrgState) : Int × Int := (st.orgBase, st.outPos)

/-- Two runs at the same position, now and after every `endorg`. -/
structure Sync (s t : AsmState) : Prop where
  outPos : s.outPos = t.outPos
  orgBase : s.orgBase = t.orgBase
  orgStack : s.orgStack.map savedPos = t.orgStack.map savedPos

theorem Sync.pos_eq {s t : AsmState} (h : Sync s t) : s.pos = t.pos := by
  rw [pos, pos, h.outPos, h.orgBase]

theorem sync_defineLabel {s t : AsmState} (h : Sync s t) (d : LabelDef) :
    Sync (s.defineLabel d) (t.defineLabel d) := by
  obtain ⟨_, _, _, hs⟩ := s.defineLabel_shape d
  obtain ⟨_, _, _, ht⟩ := t.defineLabel_shape d
  rw [hs, ht]
  exact ⟨h.outPos, h.orgBase, h.orgStack⟩

theorem sync_afterParse {s t : AsmState} (h : Sync s t) (p q : ParseState) :
    Sync (s.afterParse p) (t.afterParse q) := ⟨h.outPos, h.orgBase, h.orgStack⟩

theorem sync_emitBytes {s t : AsmState} (h : Sync s t) {bs cs : List Nat}
    (hlen : bs.length = cs.length) (hs : (s.emitBytes bs).stopped = false)
    (ht : (t.emitBytes cs).stopped = false) : Sync (s.emitBytes bs) (t.emitBytes cs) := by
  refine ⟨?_, ?_, ?_⟩
  · rw [(emitBytes_outPos bs hs).2, (emitBytes_outPos cs ht).2, h.outPos, hlen]
  · rw [emitBytes_keeps orgBase emitByte_orgBase, emitBytes_keeps orgBase emitByte_orgBase]
    exact h.orgBase
  · rw [emitBytes_keeps orgStack emitByte_orgStack, emitBytes_keeps orgStack emitByte_orgStack]
    exact h.orgStack

/-- Statements that differ in numbers only, in the same forms, move both runs alike. -/
theorem sync_execStatement {s t : AsmState} (h : Sync s t) {a b : Statement} (hab : a.Same b)
    (line : Nat) (hf : a.forms (s.site line) = b.forms (t.site line))
    (hs : (s.execStatement line a).stopped = false)
    (ht : (t.execStatement line b).stopped = false) :
    Sync (s.execStatement line a) (t.execStatement line b) := by
  cases hab with
  | empty => exact h
  | notInstr => exact h
  | org _ =>
    refine ⟨rfl, (List.cons.inj hf).1, ?_⟩
    show (s.orgBase, s.outPos) :: _ = (t.orgBase, t.outPos) :: _
    rw [h.orgBase, h.outPos, h.orgStack]
  | endorg =>
    obtain ⟨hp, hb, hstack⟩ := h
    unfold execStatement
    cases hss : s.orgStack with
    | nil =>
      cases htt : t.orgStack with
      | nil => exact ⟨hp, hb, hstack⟩
      | cons y ys =>
        rw [hss, htt] at hstack
        exact absurd hstack (by simp)
    | cons x xs =>
      cases htt : t.orgStack with
      | nil =>
        rw [hss, htt] at hstack
        exact absurd hstack (by simp)
      | cons y ys =>
        rw [hss, htt] at hstack
        obtain ⟨hxy, hrest⟩ := List.cons.inj hstack
        obtain ⟨hbase, hpos⟩ := Prod.mk.inj hxy
        exact ⟨hpos, hbase, hrest⟩
  | data hlen => exact sync_emitBytes h hlen hs ht
  | seg _ => exact ⟨h.outPos, h.orgBase, h.orgStack⟩
  | @instr i j hij =>
    obtain ⟨s', hes, hp, hb, hstk, -, -⟩ := s.execInstr_shape line i
    obtain ⟨t', het, hp', hb', hstk', -, -⟩ := t.execInstr_shape line j
    rw [hes] at hs ⊢
    rw [het] at ht ⊢
    refine sync_emitBytes ⟨?_, ?_, ?_⟩ (encode_length hij _ _ hf) hs ht
    · rw [hp, hp', h.outPos]
    · rw [hb, hb', h.orgBase]
    · rw [hstk, hstk', h.orgStack]

/-! ## Labels -/

/-- A label name that fits the buffer it is read into. -/
def ShortName : LabelDef → Prop
  | .none => True
  | .equ name _ => name.length ≤ 63
  | .pos name _ => name.length ≤ 63

theorem scanLabel_short {line name rest : List Char} (h : scanLabel line = some (name, rest)) :
    name.length ≤ 63 := by
  unfold scanLabel at h
  split at h
  · exact absurd h (by simp)
  · simp only at h
    split_ifs at h with h1 h2
    split at h
    · obtain ⟨rfl, -⟩ := Prod.mk.inj (Option.some.inj h)
      omega
    · split_ifs at h
      obtain ⟨rfl, -⟩ := Prod.mk.inj (Option.some.inj h)
      omega

theorem splitLine_short (line : List Char) : ShortName (splitLine line).1 := by
  unfold splitLine
  split_ifs
  · trivial
  · split
    · trivial
    · next name rest hscan =>
      have hlen := scanLabel_short hscan
      simp only
      split_ifs
      · exact hlen
      · exact hlen
      · exact hlen

/-- Equal types, and equal values unless the label is an `EQU`. -/
def SameEntry (a b : Option (LabelType × Int)) : Prop :=
  Option.Rel (fun x y => x.1 = y.1 ∧ (y.1 ≠ .equ → x.2 = y.2)) a b

theorem SameEntry.refl : ∀ a : Option (LabelType × Int), SameEntry a a
  | none => .none
  | some _ => .some ⟨rfl, fun _ => rfl⟩

/-- The tables of both runs agree on the labels both have passed; the second run still has the
entries of the table `final` for the others. -/
def LabelSync (final s t : List Label) : Prop :=
  ∀ n, SameEntry (entry s n) (entry t n) ∨ entry t n = entry final n

theorem labelSync_setLabel {final s t : List Label} (h : LabelSync final s t) {name : List Char}
    (hlen : name.length ≤ 63) {v w : Int} {ltype : LabelType} (hv : ltype ≠ .equ → v = w)
    (seg seg' : Int) :
    LabelSync final (setLabel s name v ltype seg) (setLabel t name w ltype seg') := by
  intro n
  rw [entry_setLabel hlen, entry_setLabel hlen]
  by_cases hn : sameName name n = true
  · rw [if_pos hn, if_pos hn]
    exact .inl (.some ⟨rfl, hv⟩)
  · rw [if_neg hn, if_neg hn]
    exact h n

/-- Without an error the label has been entered. -/
theorem addLabelTyped_fine {s : AsmState} {name : List Char} {value : Int} {ltype : LabelType}
    (h : (s.addLabelTyped name value ltype).Fine) :
    s.addLabelTyped name value ltype =
      { s with labels := setLabel s.labels name value ltype s.segBase } := by
  have herr := h.noErrors
  unfold addLabelTyped at herr ⊢
  split_ifs at herr ⊢
  · exact absurd herr (Nat.succ_ne_zero _)
  · rfl

/-- The label of a line is entered by both runs, and at the same position. -/
theorem labelSync_defineLabel {final : List Label} {s t : AsmState} (h : Sync s t)
    (hl : LabelSync final s.labels t.labels) {d : LabelDef} (hd : ShortName d)
    (hs : (s.defineLabel d).Fine) (ht : (t.defineLabel d).Fine) :
    LabelSync final (s.defineLabel d).labels (t.defineLabel d).labels := by
  cases d with
  | none => exact hl
  | equ name expr =>
    simp only [defineLabel] at hs ht ⊢
    rw [addLabelTyped_fine hs, addLabelTyped_fine ht]
    exact labelSync_setLabel hl hd (fun hne => absurd rfl hne) _ _
  | pos name ltype =>
    simp only [defineLabel] at hs ht ⊢
    rw [addLabelTyped_fine hs, addLabelTyped_fine ht]
    exact labelSync_setLabel hl hd (fun _ => h.pos_eq) _ _

/-! ## One line, and all lines -/

/-- **One line keeps two runs in step.** Both are at the same position and choose the same forms,
so they emit as many bytes and define its label alike. -/
theorem processLine_sync {final : List Label} {s t : AsmState} {line : Nat} {text : List Char}
    (h : Sync s t) (hl : LabelSync final s.labels t.labels)
    (hf : lineForms s line text = lineForms t line text) (hs : (s.processLine line text).Fine)
    (ht : (t.processLine line text).Fine) :
    lineLength s line text = lineLength t line text ∧
      Sync (s.processLine line text) (t.processLine line text) ∧
      LabelSync final (s.processLine line text).labels (t.processLine line text).labels := by
  obtain ⟨-, hsb, hse⟩ := processLine_fine hs
  obtain ⟨-, htb, hte⟩ := processLine_fine ht
  have hsame : (s.lineParse text).1.Same (t.lineParse text).1 :=
    (parseStatement_agree _ _ _ _ ⟨rfl, rfl, rfl⟩).1
  have hsync : Sync (s.beforeExec text) (t.beforeExec text) :=
    sync_afterParse (sync_defineLabel h _) _ _
  have hsr := hs.running
  have htr := ht.running
  refine ⟨Statement.length_eq hsame hf, ?_, ?_⟩
  · rw [hse] at hsr ⊢
    rw [hte] at htr ⊢
    exact sync_execStatement hsync hsame line hf hsr htr
  · rw [hse, hte, execStatement_labels, execStatement_labels]
    exact labelSync_defineLabel h hl (splitLine_short text) (fine_of_afterLabel hsb)
      (fine_of_afterLabel htb)

/-- All lines: by induction, each line in step with the other run. -/
theorem processLines_layout (final : List Label) :
    ∀ (lines : List (List Char)) {line : Nat} {s t : AsmState}, Sync s t →
      LabelSync final s.labels t.labels → FormsAgree s t line lines →
      (s.processLines line lines).Fine → (t.processLines line lines).Fine →
      SamePositions s t line lines ∧
        LabelSync final (s.processLines line lines).labels (t.processLines line lines).labels
  | [], _, _, _, h, hl, _, _, _ => ⟨h.pos_eq, hl⟩
  | text :: rest, line, s, t, h, hl, hf, hs, ht => by
    obtain ⟨hform, hrest⟩ := hf
    have hs1 := processLines_fine (s := s.processLine line text) rest hs
    have ht1 := processLines_fine (s := t.processLine line text) rest ht
    obtain ⟨hlen, h', hl'⟩ := processLine_sync h hl hform hs1 ht1
    obtain ⟨hpos, hend⟩ := processLines_layout final rest h' hl' hrest hs ht
    exact ⟨⟨h.pos_eq, hlen, hpos⟩, hend⟩

end AsmState

open AsmState

/-- **The labels of pass 1 are where pass 2 places them**, when no value that selects an encoding
differs between the last run of pass 1 and pass 2. -/
theorem layout_agrees (lines : List (List Char)) (h : Assembles lines)
    (hf : FormsAgree (lastPass1Start lines) (afterPass1 lines).startPass2 1 lines) :
    LayoutAgrees lines := by
  have ht : (assemble lines).Fine := ⟨h.1, h.2⟩
  -- pass 2 starts without clearing the errors, so the last run of pass 1 had none either
  have hs : (afterPass1 lines).Fine := by
    obtain ⟨hr, he⟩ := processLines_fine lines ht
    exact ⟨hr, he⟩
  have hsync : Sync (lastPass1Start lines) (afterPass1 lines).startPass2 := ⟨rfl, rfl, rfl⟩
  obtain ⟨hpos, hlabels⟩ := processLines_layout (afterPass1 lines).labels lines hsync
    (fun _ => .inr rfl) hf hs ht
  refine ⟨hpos, fun name l hfind hne => ?_⟩
  have hentry : entry (assemble lines).labels name = some (l.ltype, l.value) := by
    rw [entry, hfind]
    rfl
  have hsame : SameEntry (entry (afterPass1 lines).labels name)
      (entry (assemble lines).labels name) := by
    rcases hlabels name with hname | hname
    · exact hname
    · have hname' : entry (assemble lines).labels name = entry (afterPass1 lines).labels name :=
        hname
      rw [hname']
      exact SameEntry.refl _
  rw [hentry] at hsame
  cases hfind' : findLabel (afterPass1 lines).labels name with
  | none =>
    rw [entry, hfind'] at hsame
    cases hsame
  | some l' =>
    rw [entry, hfind'] at hsame
    cases hsame with
    | some hval => exact ⟨l', rfl, hval.2 hne⟩

/-- A forward branch takes the short form in both passes. -/
def forwardBranch : List (List Char) := ["jz fwd".toList, "nop".toList, "fwd: ret".toList]

set_option maxRecDepth 100000 in
theorem layout_agrees_forwardBranch : LayoutAgrees forwardBranch :=
  layout_agrees forwardBranch ⟨by decide +kernel, by decide +kernel⟩ (by decide +kernel)

/-- `fwd` is 0 in pass 1, which runs once because no branch is relaxed. The immediate then takes
one byte, and in pass 2 it takes two. -/
def forwardImm : List (List Char) :=
  ["add bx, fwd".toList, "mid:".toList, "org 300".toList, "fwd:".toList]

set_option maxRecDepth 100000 in
theorem forwardImm_moves_label : Assembles forwardImm ∧ ¬LayoutAgrees forwardImm := by
  refine ⟨⟨by decide +kernel, by decide +kernel⟩, fun h => ?_⟩
  have hpass2 : findLabel (assemble forwardImm).labels "mid".toList =
      some { name := "mid".toList, value := 4, ltype := .code, segment := 0 } := by
    decide +kernel
  have hpass1 : findLabel (afterPass1 forwardImm).labels "mid".toList =
      some { name := "mid".toList, value := 3, ltype := .code, segment := 0 } := by
    decide +kernel
  obtain ⟨l', hl', hval⟩ := h.2 _ _ hpass2 (by decide)
  rw [hpass1] at hl'
  cases hl'
  exact absurd hval (by decide)

end Nib.Asm
