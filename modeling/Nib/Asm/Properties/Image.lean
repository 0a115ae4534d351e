import Nib.Asm.Spec.Data
import Nib.Asm.Properties.Duplicates

/-!
# Writes to the image

* `placed_emitBytes`, `placed_execStatement` — what a statement writes above a base that is not
  negative
* `execStatement_below` — the first byte below a negative one
* `inImage_iff` — when all writes of a run are inside the output
-/

namespace Nib.Asm

namespace AsmState

variable {s t : AsmState} {line : Nat}

/-! ## Frames -/

/-- Below a negative base there is no byte yet. -/
def FrameOk (base out : Int) : Prop := 0 ≤ out ∧ (base < 0 → out = 0)

/-- The writes are inside the output, and so is the next one unless the base is negative. -/
structure Placed (s : AsmState) : Prop where
  image : s.InImage
  frame : FrameOk s.orgBase s.outPos
  stack : ∀ st ∈ s.orgStack, FrameOk st.orgBase st.outPos

/-- Two states write at the same place and have written the same. -/
structure SamePlace (s t : AsmState) : Prop where
  output : t.output = s.output
  orgBase : t.orgBase = s.orgBase
  outPos : t.outPos = s.outPos
  orgStack : t.orgStack = s.orgStack
  pass2 : t.pass2 = s.pass2

theorem SamePlace.placed (h : SamePlace s t) (hs : s.Placed) : t.Placed := by
  constructor
  · show ∀ w ∈ t.output, _
    rw [h.output]
    exact hs.image
  · rw [h.orgBase, h.outPos]
    exact hs.frame
  · rw [h.orgStack]
    exact hs.stack

/-! ## Bytes -/

theorem emitByte_output (s : AsmState) (b : Nat) : ∀ w ∈ s.output, w ∈ (s.emitByte b).output := by
  intro w hw
  unfold emitByte
  split_ifs
  · exact hw
  · exact hw
  · exact List.mem_cons_of_mem _ hw
  · exact hw

theorem emitBytes_output : ∀ (bs : List Nat) (s : AsmState), ∀ w ∈ s.output,
    w ∈ (s.emitBytes bs).output
  | [], _, _, h => h
  | b :: bs, s, w, h => emitBytes_output bs (s.emitByte b) w (emitByte_output s b w h)

theorem placed_emitByte (h : s.Placed) (hbase : 0 ≤ s.orgBase) (b : Nat) :
    (s.emitByte b).Placed := by
  have hout := h.frame.1
  unfold emitByte
  split_ifs with hstop hfull hpass
  · exact h
  · exact ⟨h.image, h.frame, h.stack⟩
  · refine ⟨?_, ⟨Int.add_nonneg hout (by decide), fun hneg => ?_⟩, h.stack⟩
    swap
    · exact absurd hbase (Int.not_le.mpr hneg)
    intro w hw
    obtain rfl | hw := List.mem_cons.mp hw
    · rw [hpass, Bool.true_and, decide_eq_true_eq] at hfull
      exact ⟨Int.add_nonneg hbase hout, by show s.pos < maxOutput; omega⟩
    · exact h.image w hw
  · refine ⟨h.image, ⟨Int.add_nonneg hout (by decide), fun hneg => ?_⟩, h.stack⟩
    exact absurd hbase (Int.not_le.mpr hneg)

theorem placed_emitBytes : ∀ (bs : List Nat) {s : AsmState}, s.Placed →
    (s.orgBase < 0 → bs = []) → (s.emitBytes bs).Placed
  | [], _, h, _ => h
  | b :: bs, s, h, hbs => by
    have hbase : 0 ≤ s.orgBase := by
      by_contra hneg
      exact nomatch hbs (by omega)
    refine placed_emitBytes bs (placed_emitByte h hbase b) fun hneg => ?_
    rw [emitByte_orgBase] at hneg
    omega

/-- The first byte below a negative base is outside. -/
theorem emitBytes_below (h : s.Placed) (hgo : s.stopped = false) (h2 : s.pass2 = true)
    (hbase : s.orgBase < 0) {bs : List Nat} (hbs : bs ≠ []) : ¬(s.emitBytes bs).InImage := by
  obtain ⟨b, bs, rfl⟩ := List.exists_cons_of_ne_nil hbs
  have hpos : s.pos = s.orgBase := by rw [pos, h.frame.2 hbase, Int.add_zero]
  have hwrite : (s.orgBase, b) ∈ (s.emitByte b).output := by
    have hroom : (s.pass2 && decide (s.pos ≥ maxOutput)) = false := by
      rw [h2, hpos, Bool.true_and, decide_eq_false_iff_not, maxOutput]
      omega
    rw [emitByte, hgo, if_neg Bool.false_ne_true, if_neg (by rw [hroom]; decide), h2,
      if_pos rfl, hpos]
    exact List.mem_cons_self
  intro himage
  have := (himage _ (emitBytes_output bs _ _ hwrite)).1
  exact absurd this (Int.not_le.mpr hbase)

/-! ## Statements -/

/-- The state in which the bytes of an instruction are written. -/
theorem execInstr_same (s : AsmState) (line : Nat) (i : Instr) : ∃ t,
    s.execStatement line (.instr i) = t.emitBytes (encode (s.site line) i).bytes ∧
      SamePlace s t ∧ t.stopped = s.stopped := by
  obtain ⟨relaxed, jcc, hm⟩ := s.markRelaxedLine_shape line
  simp only [execStatement]
  split_ifs
  · rw [hm]
    exact ⟨_, rfl, ⟨rfl, rfl, rfl, rfl, rfl⟩, rfl⟩
  · exact ⟨_, rfl, ⟨rfl, rfl, rfl, rfl, rfl⟩, rfl⟩

theorem execStatement_output (s : AsmState) (line : Nat) (st : Statement) :
    ∀ w ∈ s.output, w ∈ (s.execStatement line st).output := by
  intro w hw
  cases st with
  | data bytes => exact emitBytes_output bytes s w hw
  | instr i =>
    obtain ⟨t, he, hsame, -⟩ := s.execInstr_same line i
    rw [he]
    exact emitBytes_output _ t w (hsame.output ▸ hw)
  | endorg =>
    unfold execStatement
    cases s.orgStack <;> exact hw
  | _ => exact hw

theorem placed_execStatement (h : s.Placed) {st : Statement}
    (hbs : s.orgBase < 0 → st.bytesAt (s.site line) = []) : (s.execStatement line st).Placed := by
  cases st with
  | data bytes => exact placed_emitBytes bytes h hbs
  | instr i =>
    obtain ⟨t, he, hsame, -⟩ := s.execInstr_same line i
    rw [he]
    exact placed_emitBytes _ (hsame.placed h) (hsame.orgBase ▸ hbs)
  | org op =>
    refine ⟨h.image, ⟨Int.le_refl _, fun _ => rfl⟩, ?_⟩
    intro st hst
    obtain rfl | hst := List.mem_cons.mp hst
    · exact h.frame
    · exact h.stack st hst
  | endorg =>
    unfold execStatement
    cases hs : s.orgStack with
    | nil => exact h
    | cons st rest =>
      have hmem : ∀ x ∈ st :: rest, FrameOk x.orgBase x.outPos := hs ▸ h.stack
      exact ⟨h.image, hmem st List.mem_cons_self,
        fun x hx => hmem x (List.mem_cons_of_mem _ hx)⟩
  | seg op => exact ⟨h.image, h.frame, h.stack⟩
  | _ => exact h

theorem execStatement_below (h : s.Placed) (hgo : s.stopped = false) (h2 : s.pass2 = true)
    (hbase : s.orgBase < 0) {st : Statement} (hbs : st.bytesAt (s.site line) ≠ []) :
    ¬(s.execStatement line st).InImage := by
  cases st with
  | data bytes => exact emitBytes_below h hgo h2 hbase hbs
  | instr i =>
    obtain ⟨t, he, hsame, hstop⟩ := s.execInstr_same line i
    rw [he]
    exact emitBytes_below (hsame.placed h) (hstop.trans hgo) (hsame.pass2.trans h2)
      (hsame.orgBase ▸ hbase) hbs
  | _ => exact absurd rfl hbs

/-! ## Lines -/

theorem defineLabel_same (s : AsmState) (d : LabelDef) : SamePlace s (s.defineLabel d) := by
  obtain ⟨labels, n, stop, hd⟩ := s.defineLabel_shape d
  rw [hd]
  exact ⟨rfl, rfl, rfl, rfl, rfl⟩

/-- A line executes its statement where it writes next, or writes nothing at all. -/
theorem processLine_cases (s : AsmState) (line : Nat) (text : List Char) :
    (∃ t st, s.reached text = some (t, st) ∧ s.processLine line text = t.execStatement line st ∧
      SamePlace s t ∧ t.stopped = false) ∨
    (s.reached text = none ∧ SamePlace s (s.processLine line text)) := by
  have hsame := s.defineLabel_same (splitLine text).1
  by_cases hb : (s.beforeExec text).stopped = true
  · refine .inr ⟨if_pos hb, ?_⟩
    unfold processLine
    simp only
    split_ifs with h1 h2
    · exact ⟨rfl, rfl, rfl, rfl, rfl⟩
    · exact hsame
    · exact ⟨hsame.output, hsame.orgBase, hsame.outPos, hsame.orgStack, hsame.pass2⟩
    · exact absurd hb ‹_›
  · have hgo : (s.beforeExec text).stopped = false := Bool.eq_false_iff.mpr hb
    have hlabel : (s.defineLabel (splitLine text).1).stopped = false :=
      (Bool.or_eq_false_iff.mp hgo).1
    have hs : s.stopped = false := by
      obtain ⟨labels, n, stop, hd⟩ := s.defineLabel_shape (splitLine text).1
      rw [hd] at hlabel
      exact (Bool.or_eq_false_iff.mp hlabel).1
    refine .inl ⟨_, _, if_neg hb, ?_,
      ⟨hsame.output, hsame.orgBase, hsame.outPos, hsame.orgStack, hsame.pass2⟩, hgo⟩
    unfold processLine
    simp only
    rw [if_neg (by rw [hs]; decide), if_neg (by rw [hlabel]; decide)]
    exact if_neg hb

theorem processLine_output (s : AsmState) (line : Nat) (text : List Char) :
    ∀ w ∈ s.output, w ∈ (s.processLine line text).output := by
  intro w hw
  obtain ⟨t, st, -, he, hsame, -⟩ | ⟨-, hsame⟩ := s.processLine_cases line text
  · rw [he]
    exact t.execStatement_output line st w (hsame.output ▸ hw)
  · exact hsame.output ▸ hw

theorem processLines_output : ∀ (lines : List (List Char)) (s : AsmState) (line : Nat),
    ∀ w ∈ s.output, w ∈ (s.processLines line lines).output
  | [], _, _, _, h => h
  | text :: rest, s, line, w, h =>
    processLines_output rest _ (line + 1) w (s.processLine_output line text w h)

theorem processLine_pass (s : AsmState) (line : Nat) (text : List Char) :
    (s.processLine line text).pass2 = s.pass2 := by
  obtain ⟨t, st, -, he, hsame, -⟩ | ⟨-, hsame⟩ := s.processLine_cases line text
  · rw [he, execStatement_pass2, hsame.pass2]
  · exact hsame.pass2

/-- **All writes of these lines are inside the output exactly when no line has bytes below a
negative base.** -/
theorem processLines_inImage_iff : ∀ (lines : List (List Char)) {s : AsmState} {line : Nat},
    s.Placed → s.pass2 = true →
    ((s.processLines line lines).InImage ↔ s.KeepsAbove line lines)
  | [], _, _, h, _ => iff_of_true h.image trivial
  | text :: rest, s, line, h, h2 => by
    have h2' : (s.processLine line text).pass2 = true := (s.processLine_pass line text).trans h2
    have hrest : (s.processLine line text).Placed →
        (((s.processLine line text).processLines (line + 1) rest).InImage ↔
          (s.processLine line text).KeepsAbove (line + 1) rest) :=
      fun hp => processLines_inImage_iff rest hp h2'
    show (((s.processLine line text).processLines (line + 1) rest).InImage ↔
      s.LineAbove line text ∧ (s.processLine line text).KeepsAbove (line + 1) rest)
    obtain ⟨t, st, hr, he, hsame, hgo⟩ | ⟨hr, hsame⟩ := s.processLine_cases line text
    · have hplaced := hsame.placed h
      by_cases habove : t.orgBase < 0 → st.bytesAt (t.site line) = []
      · have hline : s.LineAbove line text := fun r hmem => by
          rw [hr] at hmem
          exact Option.some.inj hmem ▸ habove
        rw [and_iff_right hline]
        exact hrest (he ▸ placed_execStatement hplaced habove)
      · obtain ⟨hbase, hbs⟩ := Classical.not_imp.mp habove
        have hbelow := execStatement_below hplaced hgo (hsame.pass2.trans h2) hbase hbs
        refine iff_of_false (fun himage => hbelow fun w hw => himage w ?_) fun hk => ?_
        · exact processLines_output rest _ _ w (he ▸ hw)
        · exact habove (hk.1 (t, st) hr)
    · have hline : s.LineAbove line text := fun r hmem => by
        rw [hr] at hmem
        cases hmem
      rw [and_iff_right hline]
      exact hrest (hsame.placed h)

/-! ## Pass 1 writes nothing -/

theorem emitBytes_silent : ∀ (bs : List Nat) {s : AsmState}, s.pass2 = false →
    (s.emitBytes bs).output = s.output
  | [], _, _ => rfl
  | b :: bs, s, h => by
    have hone : (s.emitByte b).output = s.output := by
      unfold emitByte
      rw [h]
      split_ifs <;> simp_all
    rw [← hone]
    exact emitBytes_silent bs ((emitByte_pass2 s b).trans h)

theorem execStatement_silent (h : s.pass2 = false) (st : Statement) :
    (s.execStatement line st).output = s.output := by
  cases st with
  | data bytes => exact emitBytes_silent bytes h
  | instr i =>
    obtain ⟨t, he, hsame, -⟩ := s.execInstr_same line i
    rw [he, emitBytes_silent _ (hsame.pass2.trans h), hsame.output]
  | endorg =>
    unfold execStatement
    cases s.orgStack <;> rfl
  | _ => rfl

theorem processLines_silent : ∀ (lines : List (List Char)) {s : AsmState} {line : Nat},
    s.pass2 = false → (s.processLines line lines).output = s.output
  | [], _, _, _ => rfl
  | text :: rest, s, line, h => by
    have hone : (s.processLine line text).output = s.output := by
      obtain ⟨t, st, -, he, hsame, -⟩ | ⟨-, hsame⟩ := s.processLine_cases line text
      · rw [he, execStatement_silent (hsame.pass2.trans h), hsame.output]
      · exact hsame.output
    rw [← hone]
    exact processLines_silent rest ((s.processLine_pass line text).trans h)

end AsmState

open AsmState

theorem beforeLastPass1_output (lines : List (List Char)) : ∀ (n : Nat) (s : AsmState),
    (beforeLastPass1 lines n s).output = s.output
  | 0, _ => rfl
  | n + 1, s => by
    have hrun : (runPass1 lines s).output = s.output := processLines_silent lines rfl
    unfold beforeLastPass1
    simp only
    split_ifs
    · rw [beforeLastPass1_output lines n, hrun]
    · rfl

theorem placed_startPass2 (lines : List (List Char)) : (afterPass1 lines).startPass2.Placed := by
  have hnone : (afterPass1 lines).startPass2.output = [] :=
    (processLines_silent lines rfl).trans (beforeLastPass1_output lines 4 {})
  refine ⟨?_, ⟨Int.le_refl _, fun _ => rfl⟩, nofun⟩
  intro w hw
  rw [hnone] at hw
  cases hw

/-- **Every write of a run is inside the output exactly when pass 2 has no bytes below a negative
base**, which is the operand of an `org` that is negative as an `int`. -/
theorem assemble_inImage_iff (lines : List (List Char)) :
    (assemble lines).InImage ↔ (afterPass1 lines).startPass2.KeepsAbove 1 lines :=
  processLines_inImage_iff lines (placed_startPass2 lines) rfl

/-- A base of 2³² - 1 is -1, and the byte is written before the output. -/
theorem assemble_below :
    let lines := ["org 0xFFFFFFFF".toList, "db 1".toList]
    (assemble lines).output = [(-1, 1)] ∧ (assemble lines).stopped = false ∧
      ¬∀ lines, (assemble lines).InImage := by
  have hout : (assemble ["org 0xFFFFFFFF".toList, "db 1".toList]).output = [(-1, 1)] := by decide
  refine ⟨hout, by decide, fun h => ?_⟩
  exact absurd (h _ (-1, 1) (hout ▸ List.mem_cons_self)).1 (by decide)

end Nib.Asm
