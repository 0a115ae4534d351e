import Nib.Asm.Properties.Segments
import Nib.Asm.Spec.Duplicates

/-!
# Duplicate labels are reported as long as no branch is relaxed

* `processLine_stopped` — a line goes on exactly when it ends
* `processLine_relaxed` — a line marks itself exactly when it holds a branch that is relaxed
* `twice_errors` — a run of pass 1 that relaxes no branch counts a name that is declared twice
* `later_errors` — a run after a relaxed branch counts the other errors only
* `duplicates_rejected` — both together
-/

namespace Nib.Asm

/-! ## Only branches are relaxed -/

@[simp] theorem Enc.relax_append (a b : Enc) : (a ++ b).relax = (a.relax || b.relax) := rfl

@[simp] theorem relax_empty : ({} : Enc).relax = false := rfl

@[simp] theorem relax_emit (b : Int) : (emit b).relax = false := rfl

@[simp] theorem relax_emit16 (w : Int) : (emit16 w).relax = false := rfl

@[simp] theorem relax_encErr : encErr.relax = false := rfl

@[simp] theorem relax_emitSegOverride (op : Operand) : (emitSegOverride op).relax = false := by
  unfold emitSegOverride
  split <;> rfl

@[simp] theorem relax_emitMemOverride (op : Operand) : (emitMemOverride op).relax = false := by
  unfold emitMemOverride
  split_ifs <;> simp

@[simp] theorem relax_emitModrmMem (op : Operand) (regField : Nat) :
    (emitModrmMem op regField).relax = false := by
  unfold emitModrmMem
  split_ifs
  · rfl
  · split
    · rfl
    · simp only [Enc.relax_append, relax_emit]
      split_ifs <;> rfl

@[simp] theorem relax_emitRm (op : Operand) (regField : Nat) :
    (emitRm op regField).relax = false := by
  unfold emitRm
  split_ifs
  · rfl
  · simp

@[simp] theorem relax_emitModrm (op : Operand) (regField : Nat) :
    (emitModrm op regField).relax = false := by
  unfold emitModrm
  split_ifs
  · rfl
  · simp
  · rfl

@[simp] theorem relax_emitModrmReg (regField reg : Nat) :
    (emitModrmReg regField reg).relax = false := rfl

@[simp] theorem relax_emitImm (w : Nat) (imm : Int) : (emitImm w imm).relax = false := by
  unfold emitImm
  split_ifs <;> rfl

theorem asmAlu_relax (op : Nat) (dst src : Operand) : (asmAlu op dst src).relax = false := by
  unfold asmAlu
  split_ifs <;> simp

theorem asmShift_relax (op : Nat) (dst src : Operand) : (asmShift op dst src).relax = false := by
  unfold asmShift
  split_ifs <;> simp

theorem asmMov_relax (dst src : Operand) : (asmMov dst src).relax = false := by
  unfold asmMov
  split_ifs <;> simp

theorem asmXchg_relax (dst src : Operand) : (asmXchg dst src).relax = false := by
  unfold asmXchg
  split_ifs <;> simp

theorem asmTest_relax (dst src : Operand) : (asmTest dst src).relax = false := by
  unfold asmTest
  split_ifs <;> simp

theorem asmLea_relax (dst src : Operand) : (asmLea dst src).relax = false := by
  unfold asmLea
  split_ifs <;> simp

theorem asmIncDec_relax (op : Nat) (dst : Operand) : (asmIncDec op dst).relax = false := by
  unfold asmIncDec
  split_ifs <;> simp

theorem asmImulImm_relax (reg rm : Nat) (imm : Int) : (asmImulImm reg rm imm).relax = false := by
  unfold asmImulImm
  split_ifs <;> simp

theorem asmPushPop_relax (isPop : Bool) (op : Operand) :
    (asmPushPop isPop op).relax = false := by
  unfold asmPushPop
  split_ifs <;> simp

theorem asmRet_relax (isFar : Bool) (op : Option Operand) : (asmRet isFar op).relax = false := by
  unfold asmRet
  split <;> simp

theorem asmInt_relax (op : Operand) : (asmInt op).relax = false := by
  unfold asmInt
  split_ifs <;> simp

theorem asmInOut_relax (isOut : Bool) (dst src : Operand) :
    (asmInOut isOut dst src).relax = false := by
  unfold asmInOut
  simp only
  split_ifs <;> simp

theorem asmV20Bitop_relax (op : Nat) (dst src : Operand) :
    (asmV20Bitop op dst src).relax = false := by
  unfold asmV20Bitop
  split_ifs <;> simp

theorem asmV20BextBins_relax (isBext : Bool) (first : Operand) (second : Option Operand) :
    (asmV20BextBins isBext first second).relax = false := by
  unfold asmV20BextBins
  split <;> split_ifs <;> simp

theorem asmLoop_relax (site : Site) (opcode : Nat) (op : Operand) :
    (asmLoop site opcode op).relax = false := by
  unfold asmLoop
  split_ifs <;> simp

theorem asmJmpCall_relax {site : Site} {isCall : Bool} {op : Operand}
    (h : (asmJmpCall site isCall op).relax = true) : site.relaxed = false := by
  unfold asmJmpCall at h
  split_ifs at h
  all_goals simp_all

theorem asmJcc_relax {site : Site} {cc : Nat} {label : List Char} {op : Operand}
    (h : (asmJcc site cc label op).relax = true) : site.relaxed = false := by
  unfold asmJcc at h
  split_ifs at h
  · simpa using h
  · simp at h

/-- A line that is marked already is not relaxed again. -/
theorem encode_relax {i : Instr} : ∀ {site : Site}, (encode site i).relax = true →
    site.relaxed = false := by
  induction i with
  | jmpCall => exact fun h => asmJmpCall_relax h
  | jcc => exact fun h => asmJcc_relax h
  | prefixed byte rest ih => exact fun {site} h => @ih (site.advance 1) (by simpa [encode] using h)
  | _ =>
    intro site h
    simp [encode, asmAlu_relax, asmShift_relax, asmMov_relax, asmXchg_relax, asmTest_relax,
      asmLea_relax, asmLoadMem, asmIncDec_relax, asmGroup3, asmImulImm_relax, asmPushPop_relax,
      asmRet_relax, asmInt_relax, asmInOut_relax, asmEnter, asmV20Bitop_relax,
      asmV20BextBins_relax, asmBrkem, asmLoop_relax] at h

namespace AsmState

/-! ## What a line adds -/

theorem defineLabel_stopped (s : AsmState) (d : LabelDef) :
    (s.defineLabel d).stopped = (s.stopped || (d.parse s.env).hung) := by
  cases d with
  | none => simp [defineLabel, LabelDef.parse]
  | equ name expr =>
    simp only [defineLabel, addLabelTyped, LabelDef.parse]
    split_ifs <;> rfl
  | pos name ltype =>
    simp only [defineLabel, addLabelTyped, LabelDef.parse]
    split_ifs <;> simp [addErrors]

theorem emitBytes_of_stopped {s : AsmState} (bs : List Nat) (h : s.stopped = true) :
    (s.emitBytes bs).stopped = true := by
  by_contra hn
  rw [(emitBytes_outPos bs (Bool.eq_false_iff.mpr hn)).1] at h
  exact absurd h (by decide)

/-- Bytes are written to the end exactly when they have room. -/
theorem emitBytes_stopped : ∀ (bs : List Nat) {s : AsmState}, s.stopped = false →
    ((s.emitBytes bs).stopped = false ↔ s.HasRoom bs.length)
  | [], s, h => ⟨fun _ _ => .inl rfl, fun _ => h⟩
  | b :: bs, s, h => by
    show ((s.emitByte b).emitBytes bs).stopped = false ↔ _
    by_cases hfull : (s.pass2 && decide (s.pos ≥ maxOutput)) = true
    · have hstop : (s.emitByte b).stopped = true := by
        rw [emitByte, h, if_neg (by decide), if_pos hfull]
      obtain ⟨h2, hpos⟩ := Bool.and_eq_true_iff.mp hfull
      have hpos' := of_decide_eq_true hpos
      refine ⟨fun hn => ?_, fun hroom => ?_⟩
      · rw [emitBytes_of_stopped bs hstop] at hn
        exact absurd hn (by decide)
      · have hr : bs.length + 1 = 0 ∨ s.pos + (bs.length + 1 : Nat) ≤ maxOutput := hroom h2
        omega
    · have hgo : (s.emitByte b).stopped = false := by
        rw [emitByte, h, if_neg (by decide), if_neg hfull]
      have hpos : (s.emitByte b).pos = s.pos + 1 := by
        rw [pos, pos, emitByte_orgBase, (emitByte_outPos hgo).2]
        omega
      rw [emitBytes_stopped bs hgo]
      rw [HasRoom, HasRoom, emitByte_pass2, hpos, List.length_cons]
      refine forall_congr' fun h2 => ?_
      have hlt : ¬s.pos ≥ maxOutput := by simpa [h2] using hfull
      omega

theorem hasRoom_congr {s t : AsmState} (h2 : t.pass2 = s.pass2) (hp : t.pos = s.pos) (n : Nat) :
    t.HasRoom n ↔ s.HasRoom n := by
  rw [HasRoom, HasRoom, h2, hp]

theorem execStatement_stopped {s : AsmState} (h : s.stopped = false) (line : Nat)
    (st : Statement) :
    (s.execStatement line st).stopped = false ↔ s.HasRoom (st.bytes (s.site line)).length := by
  have hnone : s.HasRoom 0 := fun _ => .inl rfl
  cases st with
  | data bytes => exact emitBytes_stopped bytes h
  | instr i =>
    obtain ⟨relaxed, jcc, hm⟩ := s.markRelaxedLine_shape line
    simp only [execStatement, Statement.bytes]
    by_cases hr : (encode (s.site line) i).relax = true
    · rw [if_pos hr, hm, emitBytes_stopped _ (by exact h)]
      exact hasRoom_congr rfl rfl _
    · rw [if_neg hr, emitBytes_stopped _ (by exact h)]
      exact hasRoom_congr rfl rfl _
  | endorg =>
    unfold execStatement
    cases s.orgStack <;> exact ⟨fun _ => hnone, fun _ => h⟩
  | _ => exact ⟨fun _ => hnone, fun _ => h⟩

/-- **A line goes on to the next one exactly when it ends.** -/
theorem processLine_stopped (s : AsmState) (line : Nat) (text : List Char) :
    (s.processLine line text).stopped = false ↔ s.stopped = false ∧ LineEnds s line text := by
  obtain ⟨labels, n, stop, hshape⟩ := s.defineLabel_shape (splitLine text).1
  have hroom : ∀ k, (s.beforeExec text).HasRoom k ↔ s.HasRoom k := fun k => by
    refine hasRoom_congr ?_ ?_ k
    · show (s.defineLabel (splitLine text).1).pass2 = _
      rw [hshape]
    · show (s.defineLabel (splitLine text).1).pos = _
      rw [hshape]
      rfl
  have hstop : (s.beforeExec text).stopped = false ↔
      s.stopped = false ∧ ((splitLine text).1.parse s.env).hung = false ∧
        (lineStatement s text).2.hung = false := by
    show ((s.defineLabel (splitLine text).1).stopped || (lineStatement s text).2.hung) = false ↔ _
    rw [defineLabel_stopped, Bool.or_eq_false_iff, Bool.or_eq_false_iff, and_assoc]
  constructor
  · intro h
    obtain ⟨hs, hb, heq⟩ := processLine_eq h
    rw [heq, execStatement_stopped hb, hroom] at h
    obtain ⟨-, hl, hp⟩ := hstop.mp hb
    exact ⟨hs, hl, hp, h⟩
  · rintro ⟨hs, hl, hp, hr⟩
    have hb := hstop.mpr ⟨hs, hl, hp⟩
    have hd : (s.defineLabel (splitLine text).1).stopped = false := by
      rw [defineLabel_stopped, hs, hl]
      rfl
    have heq : s.processLine line text =
        (s.beforeExec text).execStatement line (s.lineParse text).1 := by
      unfold processLine
      simp only
      rw [if_neg (by rw [hs]; decide), if_neg (by rw [hd]; decide)]
      exact if_neg (Bool.eq_false_iff.mp hb)
    rw [heq, execStatement_stopped hb, hroom]
    exact hr

/-- What a line that goes on leaves behind: its statement executed after its label. -/
theorem processLine_exec {s : AsmState} {line : Nat} {text : List Char}
    (h : (s.processLine line text).stopped = false) :
    s.processLine line text = (s.beforeExec text).execStatement line (lineStatement s text).1 :=
  (processLine_eq h).2.2

theorem execStatement_errors_eq (s : AsmState) (line : Nat) (st : Statement) :
    (s.execStatement line st).errors = s.errors + st.errors (s.site line) := by
  cases st with
  | data bytes => exact emitBytes_keeps errors emitByte_errors bytes s
  | instr i =>
    obtain ⟨s', he, -, -, -, -, herr⟩ := s.execInstr_shape line i
    rw [he, emitBytes_keeps errors emitByte_errors, herr]
    rfl
  | endorg =>
    unfold execStatement
    cases s.orgStack <;> rfl
  | _ => rfl

theorem addLabelTyped_errors (s : AsmState) (name : List Char) (value : Int) (ltype : LabelType) :
    (s.addLabelTyped name value ltype).errors =
      s.errors + if (findLabel s.labels name).isSome && !s.pass2 && s.relaxed.isEmpty then 1
        else 0 := by
  unfold addLabelTyped
  split_ifs <;> rfl

/-- The line defines a label that is in the table, and this is noticed. -/
def repeatsLabel (s : AsmState) (text : List Char) : Bool :=
  (declaredName text).any fun n =>
    (findLabel s.labels n).isSome && !s.pass2 && s.relaxed.isEmpty

theorem defineLabel_errors (s : AsmState) (text : List Char) :
    (s.defineLabel (splitLine text).1).errors =
      s.errors + ((splitLine text).1.parse s.env).errors +
        if s.repeatsLabel text then 1 else 0 := by
  unfold repeatsLabel declaredName
  cases (splitLine text).1 with
  | none => rfl
  | equ name expr => exact addLabelTyped_errors (s.afterParse _) name _ _
  | pos name ltype => exact addLabelTyped_errors s name _ _

theorem processLine_errors {s : AsmState} {line : Nat} {text : List Char}
    (h : (s.processLine line text).stopped = false) :
    (s.processLine line text).errors =
      s.errors + lineErrors s line text + if s.repeatsLabel text then 1 else 0 := by
  rw [processLine_exec h, execStatement_errors_eq]
  show (s.defineLabel (splitLine text).1).errors + (lineStatement s text).2.errors +
    (lineStatement s text).1.errors (lineSite s line text) = _
  rw [defineLabel_errors, lineErrors]
  omega

/-! ## Marks -/

@[simp] theorem emitByte_relaxed (s : AsmState) (b : Nat) : (s.emitByte b).relaxed = s.relaxed := by
  unfold emitByte
  split_ifs <;> rfl

@[simp] theorem emitByte_jccRelaxed (s : AsmState) (b : Nat) :
    (s.emitByte b).jccRelaxed = s.jccRelaxed := by
  unfold emitByte
  split_ifs <;> rfl

/-- A line that holds a branch to relax is not marked yet. -/
theorem relaxes_unmarked {s : AsmState} {line : Nat} {st : Statement}
    (h : st.relaxes (s.site line) = true) : s.relaxed.contains line = false := by
  cases st with
  | instr i => exact @encode_relax i (s.site line) h
  | _ => cases h

theorem execStatement_marks (s : AsmState) (line : Nat) (st : Statement) :
    (s.execStatement line st).relaxed =
        (if st.relaxes (s.site line) then s.relaxed ++ [line] else s.relaxed) ∧
      (s.execStatement line st).jccRelaxed = (s.jccRelaxed || st.relaxes (s.site line)) := by
  cases st with
  | data bytes =>
    exact ⟨emitBytes_keeps relaxed emitByte_relaxed bytes s,
      (emitBytes_keeps jccRelaxed emitByte_jccRelaxed bytes s).trans (Bool.or_false _).symm⟩
  | instr i =>
    simp only [execStatement]
    rw [emitBytes_keeps relaxed emitByte_relaxed, emitBytes_keeps jccRelaxed emitByte_jccRelaxed]
    by_cases hr : (encode (s.site line) i).relax = true
    · have hm : s.markRelaxedLine line =
          { s with relaxed := s.relaxed ++ [line], jccRelaxed := true } :=
        if_neg (Bool.eq_false_iff.mp (@relaxes_unmarked s line (.instr i) hr))
      have hst : (Statement.instr i).relaxes (s.site line) = true := hr
      rw [if_pos hr, hm, hst, if_pos rfl, Bool.or_true]
      exact ⟨rfl, rfl⟩
    · have hst : (Statement.instr i).relaxes (s.site line) = false := Bool.eq_false_iff.mpr hr
      rw [if_neg hr, hst, if_neg (by decide), Bool.or_false]
      exact ⟨rfl, rfl⟩
  | endorg =>
    unfold execStatement
    cases s.orgStack <;> exact ⟨rfl, (Bool.or_false _).symm⟩
  | _ => exact ⟨rfl, (Bool.or_false _).symm⟩

/-- **A line is marked exactly when it holds a branch that is relaxed there.** -/
theorem processLine_marks {s : AsmState} {line : Nat} {text : List Char}
    (h : (s.processLine line text).stopped = false) :
    (s.processLine line text).relaxed =
        (if lineRelaxes s line text then s.relaxed ++ [line] else s.relaxed) ∧
      (s.processLine line text).jccRelaxed = (s.jccRelaxed || lineRelaxes s line text) := by
  obtain ⟨labels, n, stop, hshape⟩ := s.defineLabel_shape (splitLine text).1
  have hrel : (s.beforeExec text).relaxed = s.relaxed := by
    show (s.defineLabel (splitLine text).1).relaxed = _
    rw [hshape]
  have hjcc : (s.beforeExec text).jccRelaxed = s.jccRelaxed := by
    show (s.defineLabel (splitLine text).1).jccRelaxed = _
    rw [hshape]
  have hexec := (s.beforeExec text).execStatement_marks line (lineStatement s text).1
  rw [hrel, hjcc, ← processLine_exec h] at hexec
  exact hexec

/-! ## Runs -/

theorem processLines_stopped : ∀ (lines : List (List Char)) (s : AsmState) (line : Nat),
    (s.processLines line lines).stopped = false ↔ s.stopped = false ∧ LinesEnd s line lines
  | [], s, _ => by simp [processLines, LinesEnd]
  | text :: rest, s, line => by
    rw [processLines, processLines_stopped rest, processLine_stopped, LinesEnd, and_assoc]

theorem processLines_stopped_left {lines : List (List Char)} {s : AsmState} {line : Nat}
    (h : (s.processLines line lines).stopped = false) : s.stopped = false :=
  ((processLines_stopped lines s line).mp h).1

/-- The first of the lines went on. -/
theorem processLine_stopped_first {text : List Char} {rest : List (List Char)} {s : AsmState}
    {line : Nat} (h : (s.processLines line (text :: rest)).stopped = false) :
    (s.processLine line text).stopped = false :=
  processLines_stopped_left (s := s.processLine line text) h

theorem processLines_marks : ∀ (lines : List (List Char)) {s : AsmState} {line : Nat},
    (s.processLines line lines).stopped = false →
    ((s.processLines line lines).jccRelaxed = false ↔
      s.jccRelaxed = false ∧ RelaxesNone s line lines) ∧
    ((s.processLines line lines).relaxed = [] ↔ s.relaxed = [] ∧ RelaxesNone s line lines)
  | [], s, _, _ => by simp [processLines, RelaxesNone]
  | text :: rest, s, line, h => by
    obtain ⟨hj, hr⟩ := processLines_marks rest h
    obtain ⟨hrel, hjcc⟩ := processLine_marks (processLine_stopped_first h)
    rw [processLines, hj, hr, hrel, hjcc, RelaxesNone]
    cases lineRelaxes s line text <;> simp

/-! ## The table -/

theorem known_addLabelTyped {name : List Char} (hlen : name.length ≤ 63) (s : AsmState)
    (value : Int) (ltype : LabelType) (n : List Char) :
    (findLabel (s.addLabelTyped name value ltype).labels n).isSome =
      (sameName name n || (findLabel s.labels n).isSome) := by
  unfold addLabelTyped
  by_cases hd : ((findLabel s.labels name).isSome && !s.pass2 && s.relaxed.isEmpty) = true
  · rw [if_pos hd]
    show (findLabel s.labels n).isSome = _
    cases hn : sameName name n with
    | false => rfl
    | true =>
      rw [Bool.and_assoc, Bool.and_eq_true_iff, findLabel_congr hn] at hd
      rw [hd.1, Bool.or_true]
  · rw [if_neg hd]
    show (findLabel (setLabel s.labels name value ltype s.segBase) n).isSome = _
    have hmap := @map_findLabel_setLabel Unit (fun _ => ()) () name hlen s.labels value ltype
      s.segBase (fun _ => rfl) n
    rw [← Option.isSome_map, hmap]
    cases sameName name n
    · simp
    · rfl

/-- After a line the table has what it had and what the line declares. -/
theorem known_processLine {s : AsmState} {line : Nat} {text : List Char}
    (h : (s.processLine line text).stopped = false) (n : List Char) :
    (findLabel (s.processLine line text).labels n).isSome =
      (declares text n || (findLabel s.labels n).isSome) := by
  have hshort := splitLine_short text
  rw [processLine_exec h, execStatement_labels]
  show (findLabel (s.defineLabel (splitLine text).1).labels n).isSome = _
  unfold declares declaredName
  cases hd : (splitLine text).1 with
  | none => rfl
  | equ name expr =>
    rw [hd] at hshort
    exact known_addLabelTyped hshort (s.afterParse _) _ _ n
  | pos name ltype =>
    rw [hd] at hshort
    exact known_addLabelTyped hshort s _ _ n

@[simp] theorem execStatement_pass2 (s : AsmState) (line : Nat) (st : Statement) :
    (s.execStatement line st).pass2 = s.pass2 := by
  cases st with
  | data bytes => exact emitBytes_keeps pass2 emitByte_pass2 bytes s
  | instr i =>
    obtain ⟨relaxed, jcc, hm⟩ := s.markRelaxedLine_shape line
    simp only [execStatement]
    rw [emitBytes_keeps pass2 emitByte_pass2, hm]
    show (if _ then _ else _ : AsmState).pass2 = _
    split_ifs <;> rfl
  | endorg =>
    unfold execStatement
    cases s.orgStack <;> rfl
  | _ => rfl

theorem processLine_pass2 {s : AsmState} {line : Nat} {text : List Char}
    (h : (s.processLine line text).stopped = false) :
    (s.processLine line text).pass2 = s.pass2 := by
  obtain ⟨labels, n, stop, hshape⟩ := s.defineLabel_shape (splitLine text).1
  rw [processLine_exec h, execStatement_pass2]
  show (s.defineLabel (splitLine text).1).pass2 = _
  rw [hshape]

/-! ## Errors of a run -/

theorem processLines_errors : ∀ (lines : List (List Char)) {s : AsmState} {line : Nat},
    (s.processLines line lines).stopped = false → s.errors ≤ (s.processLines line lines).errors
  | [], _, _, _ => Nat.le_refl _
  | text :: rest, s, line, h => by
    have hline := processLine_errors (processLine_stopped_first h)
    have hrest := processLines_errors rest h
    rw [processLines]
    omega

/-- A name in the table that is declared again is an error. -/
theorem again_errors {n : List Char} : ∀ {lines : List (List Char)} {s : AsmState} {line : Nat},
    (s.processLines line lines).stopped = false → (s.processLines line lines).relaxed = [] →
    s.pass2 = false → (findLabel s.labels n).isSome = true → (∃ t ∈ lines, declares t n = true) →
    s.errors < (s.processLines line lines).errors
  | [], _, _, _, _, _, _, ht => by
    obtain ⟨_, hmem, -⟩ := ht
    cases hmem
  | text :: rest, s, line, h, hr, h2, hn, ht => by
    have hline := processLine_stopped_first h
    have herr := processLine_errors hline
    have hrest := processLines_errors rest h
    have hrel : s.relaxed = [] := ((processLines_marks (text :: rest) h).2.mp hr).1
    rw [processLines]
    by_cases hd : declares text n = true
    · have hrep : s.repeatsLabel text = true := by
        unfold declares at hd
        unfold repeatsLabel
        cases hname : declaredName text with
        | none =>
          rw [hname] at hd
          exact absurd hd Bool.false_ne_true
        | some m =>
          rw [hname] at hd
          rw [Option.any_some, findLabel_congr hd, hn, h2, hrel]
          rfl
      rw [hrep, if_pos rfl] at herr
      omega
    · have ht' : ∃ t ∈ rest, declares t n = true := by
        obtain ⟨t, hmem, htn⟩ := ht
        rcases List.mem_cons.mp hmem with rfl | hmem
        · exact absurd htn hd
        · exact ⟨t, hmem, htn⟩
      have hknown := known_processLine hline n
      rw [hn, Bool.or_true] at hknown
      have ih := again_errors (s := s.processLine line text) h hr
        ((processLine_pass2 hline).trans h2) hknown ht'
      omega

/-- **A run of pass 1 that marks no line counts a name that is declared twice.** By induction: the
first of two such lines enters the name, and `again_errors` counts the second. -/
theorem twice_errors : ∀ {lines : List (List Char)} {s : AsmState} {line : Nat},
    (s.processLines line lines).stopped = false → (s.processLines line lines).relaxed = [] →
    s.pass2 = false → ¬DeclaredOnce lines → s.errors < (s.processLines line lines).errors
  | [], _, _, _, _, _, ht => absurd List.Pairwise.nil ht
  | text :: rest, s, line, h, hr, h2, ht => by
    have hline := processLine_stopped_first h
    have herr := processLine_errors hline
    have hp2 := (processLine_pass2 hline).trans h2
    rw [processLines]
    by_cases hrest : DeclaredOnce rest
    · have hredo : ∃ b ∈ rest, redeclares text b = true := by
        by_contra hno
        refine ht (List.pairwise_cons.mpr ⟨fun b hb => ?_, hrest⟩)
        by_contra hb'
        exact hno ⟨b, hb, by simpa using hb'⟩
      obtain ⟨b, hb, hredecl⟩ := hredo
      unfold redeclares at hredecl
      cases hname : declaredName text with
      | none =>
        rw [hname] at hredecl
        exact absurd hredecl Bool.false_ne_true
      | some n =>
        rw [hname] at hredecl
        have hown : declares text n = true := by
          rw [declares, hname]
          exact sameName_iff.mpr rfl
        have hknown := known_processLine hline n
        rw [hown, Bool.true_or] at hknown
        have := again_errors (s := s.processLine line text) h hr hp2 hknown ⟨b, hb, hredecl⟩
        omega
    · have ih := twice_errors (s := s.processLine line text) h hr hp2 hrest
      omega

/-- **Pass 2, and a run of pass 1 after a branch was relaxed, count the other errors only.** -/
theorem later_errors : ∀ {lines : List (List Char)} {s : AsmState} {line : Nat},
    (s.processLines line lines).stopped = false → s.pass2 = true ∨ s.relaxed ≠ [] →
    (0 < (s.processLines line lines).errors ↔ 0 < s.errors ∨ HasOtherError s line lines)
  | [], s, _, _, _ => by simp [processLines, HasOtherError]
  | text :: rest, s, line, h, hoff => by
    have hline := processLine_stopped_first h
    have herr := processLine_errors hline
    have hrep : s.repeatsLabel text = false := by
      unfold repeatsLabel
      cases declaredName text with
      | none => rfl
      | some n => rcases hoff with h2 | hr <;> simp_all
    have hoff' : (s.processLine line text).pass2 = true ∨
        (s.processLine line text).relaxed ≠ [] := by
      refine hoff.imp (fun h2 => (processLine_pass2 hline).trans h2) fun hr => ?_
      rw [(processLine_marks hline).1]
      split_ifs
      · exact List.append_ne_nil_of_left_ne_nil hr _
      · exact hr
    rw [hrep, if_neg (by decide)] at herr
    rw [processLines, later_errors (s := s.processLine line text) h hoff', HasOtherError,
      ← or_assoc]
    refine or_congr_left ?_
    omega

end AsmState

open AsmState

/-! ## All runs -/

theorem stopped_beforeLast (lines : List (List Char)) : ∀ (n : Nat) {s : AsmState},
    ((beforeLastPass1 lines n s).startPass1.processLines 1 lines).stopped = false →
    s.stopped = false
  | 0, _, h => processLines_stopped_left (s := AsmState.startPass1 _) h
  | n + 1, s, h => by
    unfold beforeLastPass1 at h
    simp only at h
    split_ifs at h
    · exact processLines_stopped_left (s := s.startPass1) (stopped_beforeLast lines n h)
    · exact processLines_stopped_left (s := s.startPass1) h

/-- The last run of pass 1 comes to its end exactly when all lines end in every run of it. -/
theorem pass1_stopped (lines : List (List Char)) : ∀ (n : Nat) {s : AsmState}, s.stopped = false →
    (((beforeLastPass1 lines n s).startPass1.processLines 1 lines).stopped = false ↔
      Pass1Ends lines n s)
  | 0, s, hs => (processLines_stopped lines s.startPass1 1).trans (and_iff_right hs)
  | n + 1, s, hs => by
    have hrun : (runPass1 lines s).stopped = false ↔ LinesEnd s.startPass1 1 lines :=
      (processLines_stopped lines s.startPass1 1).trans (and_iff_right hs)
    unfold beforeLastPass1 Pass1Ends
    simp only
    by_cases hj : (runPass1 lines s).jccRelaxed = true
    · rw [if_pos hj]
      constructor
      · intro h
        have hstop := stopped_beforeLast lines n h
        exact ⟨hrun.mp hstop, .inr ((pass1_stopped lines n hstop).mp h)⟩
      · rintro ⟨hend, hnone | hp⟩
        · have := ((processLines_marks lines (hrun.mpr hend)).1.mpr ⟨rfl, hnone⟩)
          exact absurd (this.symm.trans hj) (by decide)
        · exact (pass1_stopped lines n (hrun.mpr hend)).mpr hp
    · rw [if_neg hj]
      refine ⟨fun h => ⟨hrun.mp h, .inl ?_⟩, fun h => hrun.mpr h.1⟩
      exact ((processLines_marks lines h).1.mp (Bool.eq_false_iff.mpr hj)).2

theorem run_stopped (lines : List (List Char)) :
    (assemble lines).stopped = false ↔ RunEnds lines := by
  have hp : (afterPass1 lines).stopped = false ↔ Pass1Ends lines 4 {} := pass1_stopped lines 4 rfl
  rw [RunEnds, ← hp]
  exact processLines_stopped lines (afterPass1 lines).startPass2 1

/-- Marks are kept from one run of pass 1 to the next. -/
theorem relaxed_beforeLast (lines : List (List Char)) : ∀ (n : Nat) {s : AsmState},
    ((beforeLastPass1 lines n s).startPass1.processLines 1 lines).stopped = false →
    s.relaxed ≠ [] → (beforeLastPass1 lines n s).relaxed ≠ []
  | 0, _, _, hr => hr
  | n + 1, s, h, hr => by
    unfold beforeLastPass1 at h ⊢
    simp only at h ⊢
    split_ifs at h ⊢
    · have hstop := stopped_beforeLast lines n h
      refine relaxed_beforeLast lines n h fun hnil => hr ?_
      exact ((processLines_marks lines (s := s.startPass1) hstop).2.mp hnil).1
    · exact hr

/-- The last run of pass 1 is the first one, or some line is marked before it. -/
theorem lastPass1_cases {lines : List (List Char)} (h : (afterPass1 lines).stopped = false) :
    (RelaxesNone ({} : AsmState).startPass1 1 lines ∧
        lastPass1Start lines = ({} : AsmState).startPass1) ∨
      (¬RelaxesNone ({} : AsmState).startPass1 1 lines ∧ (lastPass1Start lines).relaxed ≠ []) := by
  unfold afterPass1 lastPass1Start at h
  unfold lastPass1Start
  rw [beforeLastPass1] at h ⊢
  split_ifs at h ⊢ with hj
  · have hstop := stopped_beforeLast lines 3 h
    obtain ⟨hjcc, hrel⟩ := processLines_marks lines (s := ({} : AsmState).startPass1) hstop
    have hsome : ¬RelaxesNone ({} : AsmState).startPass1 1 lines := fun hnone =>
      absurd ((hjcc.mpr ⟨rfl, hnone⟩).symm.trans hj) (by decide)
    refine .inr ⟨hsome, relaxed_beforeLast lines 3 h fun hnil => hsome (hrel.mp hnil).2⟩
  · refine .inl ⟨?_, rfl⟩
    have hjcc := (processLines_marks lines (s := ({} : AsmState).startPass1) h).1
    exact (hjcc.mp (Bool.eq_false_iff.mpr hj)).2

/-- **A name that is declared twice is rejected** as long as the first run of pass 1 relaxes no
branch. Otherwise only another error rejects the program. -/
theorem duplicates_rejected (lines : List (List Char)) (h : ¬DeclaredOnce lines) :
    FinishesWithErrors lines ↔
      RunEnds lines ∧
        (RelaxesNone ({} : AsmState).startPass1 1 lines ∨
          HasOtherError (lastPass1Start lines) 1 lines ∨
          HasOtherError (afterPass1 lines).startPass2 1 lines) := by
  rw [FinishesWithErrors, run_stopped]
  refine and_congr_right fun hend => ?_
  have hstop : (assemble lines).stopped = false := (run_stopped lines).mpr hend
  have hpass1 : (afterPass1 lines).stopped = false :=
    processLines_stopped_left (s := (afterPass1 lines).startPass2) hstop
  have hlater : 0 < (assemble lines).errors ↔
      0 < (afterPass1 lines).errors ∨ HasOtherError (afterPass1 lines).startPass2 1 lines :=
    later_errors hstop (.inl rfl)
  rw [hlater, ← or_assoc]
  refine or_congr_left ?_
  rcases lastPass1_cases hpass1 with ⟨hnone, hstart⟩ | ⟨hsome, hrel⟩
  · refine iff_of_true ?_ (.inl hnone)
    unfold afterPass1 at hpass1 ⊢
    rw [hstart] at hpass1 ⊢
    have hrelaxed := (processLines_marks lines hpass1).2.mpr ⟨rfl, hnone⟩
    exact twice_errors hpass1 hrelaxed rfl h
  · have herr := @later_errors lines (lastPass1Start lines) 1 hpass1 (.inr hrel)
    rw [or_iff_right hsome]
    exact herr.trans (or_iff_right (Nat.lt_irrefl 0))

/-- No branch, and a name that is declared twice. -/
def plainDuplicate : List (List Char) := ["top: nop".toList, "Top: ret".toList]

set_option maxRecDepth 100000 in
theorem duplicates_rejected_plain : FinishesWithErrors plainDuplicate :=
  (duplicates_rejected plainDuplicate (by unfold DeclaredOnce; decide +kernel)).mpr
    ⟨⟨⟨by decide +kernel, .inl (by decide +kernel)⟩, by decide +kernel⟩, .inl (by decide +kernel)⟩

/-- The second definition of `top` comes after a branch that is relaxed in the first run. -/
def relaxedDuplicate : List (List Char) :=
  ["top: nop".toList, "org 300".toList, "jmp top".toList, "top: ret".toList]

set_option maxRecDepth 100000 in
/-- The duplicate is accepted: the program is assembled without an error. -/
theorem relaxedDuplicate_accepted :
    ¬DeclaredOnce relaxedDuplicate ∧ Assembles relaxedDuplicate ∧
      ¬FinishesWithErrors relaxedDuplicate := by
  have herr : (assemble relaxedDuplicate).errors = 0 := by decide +kernel
  refine ⟨by unfold DeclaredOnce; decide +kernel, ⟨by decide +kernel, herr⟩, fun h => ?_⟩
  rw [FinishesWithErrors, herr] at h
  exact absurd h.2 (by decide)

end Nib.Asm
