import Nib.Asm.Properties.Data
import Nib.Asm.Properties.Layout
import Nib.Asm.Spec.Segments

/-!
# Segments and offsets of labels

* `place_processLines` — a label has its place from its line on, and keeps it
* `processLine_segSync` — both passes are in the same segment
* `place_settled` — at every line a label has the position and the segment of its own line
* `segments_resolve` — when its uses lead there
-/

namespace Nib.Asm

namespace AsmState

/-! ## The table along a run -/

theorem processLines_append : ∀ (a b : List (List Char)) (s : AsmState) (line : Nat),
    s.processLines line (a ++ b) = (s.processLines line a).processLines (line + a.length) b
  | [], _, _, _ => rfl
  | text :: a, b, s, line => by
    rw [List.cons_append, processLines, processLines, processLines_append a b, List.length_cons,
      Nat.add_assoc, Nat.add_comm 1]

theorem declares_equ {text name expr : List Char} (h : (splitLine text).1 = .equ name expr)
    (n : List Char) : declares text n = sameName name n := by
  rw [declares, declaredName, h]

theorem declares_pos {text name : List Char} {ltype : LabelType}
    (h : (splitLine text).1 = .pos name ltype) (n : List Char) :
    declares text n = sameName name n := by
  rw [declares, declaredName, h]

/-- A line changes the places of the names it declares only. -/
theorem place_defineLabel_other {s : AsmState} {text n : List Char}
    (hfine : (s.defineLabel (splitLine text).1).Fine) (hn : declares text n = false) :
    place (s.defineLabel (splitLine text).1).labels n = place s.labels n := by
  have hshort := splitLine_short text
  cases hd : (splitLine text).1 with
  | none => rfl
  | equ name expr =>
    rw [hd] at hfine hshort
    rw [declares_equ hd] at hn
    simp only [defineLabel] at hfine ⊢
    rw [addLabelTyped_fine hfine, place_setLabel hshort, hn]
    rfl
  | pos name ltype =>
    rw [hd] at hfine hshort
    rw [declares_pos hd] at hn
    simp only [defineLabel] at hfine ⊢
    rw [addLabelTyped_fine hfine, place_setLabel hshort, hn]
    rfl

/-- A label is placed at the position of its line, in the segment of its line. -/
theorem place_defineLabel_self {s : AsmState} {text name : List Char} {ltype : LabelType}
    (hd : (splitLine text).1 = .pos name ltype)
    (hfine : (s.defineLabel (splitLine text).1).Fine) :
    place (s.defineLabel (splitLine text).1).labels name = some (s.pos, s.segBase) := by
  have hshort := splitLine_short text
  rw [hd] at hfine hshort ⊢
  simp only [defineLabel] at hfine ⊢
  rw [addLabelTyped_fine hfine, place_setLabel hshort, if_pos (sameName_iff.mpr rfl)]

theorem processLine_labels {s : AsmState} {line : Nat} {text : List Char}
    (h : (s.processLine line text).Fine) :
    (s.processLine line text).labels = (s.defineLabel (splitLine text).1).labels ∧
      (s.defineLabel (splitLine text).1).Fine := by
  obtain ⟨-, hb, heq⟩ := processLine_fine h
  refine ⟨?_, fine_of_afterLabel hb⟩
  rw [heq, execStatement_labels]
  rfl

/-- Lines that do not declare a name leave its place alone. -/
theorem place_processLines {n : List Char} : ∀ {lines : List (List Char)} {line : Nat}
    {s : AsmState}, (s.processLines line lines).Fine →
    (∀ text ∈ lines, declares text n = false) →
    place (s.processLines line lines).labels n = place s.labels n
  | [], _, _, _, _ => rfl
  | text :: rest, line, s, h, hn => by
    obtain ⟨hlabels, hfine⟩ := processLine_labels
      (processLines_fine (s := s.processLine line text) rest h)
    have ih : place ((s.processLine line text).processLines (line + 1) rest).labels n =
        place (s.processLine line text).labels n :=
      place_processLines h fun t ht => hn t (List.mem_cons_of_mem text ht)
    rw [processLines, ih, hlabels]
    exact place_defineLabel_other hfine (hn text List.mem_cons_self)

/-! ## Segments of both passes -/

/-- Two runs in the same segment, now and after every `endorg`. -/
structure SegSync (s t : AsmState) : Prop where
  segBase : s.segBase = t.segBase
  orgStack : s.orgStack.map OrgState.segBase = t.orgStack.map OrgState.segBase

@[simp] theorem emitByte_segBase (s : AsmState) (b : Nat) : (s.emitByte b).segBase = s.segBase := by
  unfold emitByte
  split_ifs <;> rfl

/-- An instruction leaves the segments alone. -/
theorem execInstr_segments (s : AsmState) (line : Nat) (i : Instr) :
    (s.execStatement line (.instr i)).segBase = s.segBase ∧
      (s.execStatement line (.instr i)).orgStack = s.orgStack := by
  obtain ⟨relaxed, jcc, hm⟩ := s.markRelaxedLine_shape line
  simp only [execStatement]
  rw [emitBytes_keeps segBase emitByte_segBase, emitBytes_keeps orgStack emitByte_orgStack]
  by_cases hr : (encode (s.site line) i).relax = true
  · rw [if_pos hr, hm]
    exact ⟨rfl, rfl⟩
  · rw [if_neg hr]
    exact ⟨rfl, rfl⟩

/-- The segment that a statement sets. -/
def setSegment : Statement → Option Int
  | .seg op => some op.imm
  | _ => none

theorem segSync_execStatement {s t : AsmState} (h : SegSync s t) {a b : Statement}
    (hab : a.Same b) (line : Nat) (hseg : setSegment a = setSegment b) :
    SegSync (s.execStatement line a) (t.execStatement line b) := by
  cases hab with
  | empty => exact h
  | notInstr => exact h
  | org _ =>
    refine ⟨h.segBase, ?_⟩
    show s.segBase :: _ = t.segBase :: _
    rw [h.segBase, h.orgStack]
  | endorg =>
    obtain ⟨hb, hstack⟩ := h
    unfold execStatement
    cases hss : s.orgStack with
    | nil =>
      cases htt : t.orgStack with
      | nil => exact ⟨hb, hstack⟩
      | cons y ys =>
        rw [hss, htt] at hstack
        cases hstack
    | cons x xs =>
      cases htt : t.orgStack with
      | nil =>
        rw [hss, htt] at hstack
        cases hstack
      | cons y ys =>
        rw [hss, htt] at hstack
        obtain ⟨hxy, hrest⟩ := List.cons.inj hstack
        exact ⟨hxy, hrest⟩
  | data _ =>
    refine ⟨?_, ?_⟩
    · simp only [execStatement]
      rw [emitBytes_keeps segBase emitByte_segBase, emitBytes_keeps segBase emitByte_segBase]
      exact h.segBase
    · simp only [execStatement]
      rw [emitBytes_keeps orgStack emitByte_orgStack, emitBytes_keeps orgStack emitByte_orgStack]
      exact h.orgStack
  | seg _ => exact ⟨Option.some.inj hseg, h.orgStack⟩
  | @instr i j _ =>
    obtain ⟨hs, hs'⟩ := s.execInstr_segments line i
    obtain ⟨ht, ht'⟩ := t.execInstr_segments line j
    exact ⟨by rw [hs, ht, h.segBase], by rw [hs', ht', h.orgStack]⟩

/-- **One line keeps two runs in the same segment.** -/
theorem processLine_segSync {s t : AsmState} {line : Nat} {text : List Char} (h : SegSync s t)
    (hseg : lineSegment s text = lineSegment t text) (hs : (s.processLine line text).Fine)
    (ht : (t.processLine line text).Fine) :
    SegSync (s.processLine line text) (t.processLine line text) := by
  obtain ⟨-, -, hse⟩ := processLine_fine hs
  obtain ⟨-, -, hte⟩ := processLine_fine ht
  have hsame : (s.lineParse text).1.Same (t.lineParse text).1 :=
    (parseStatement_agree _ _ _ _ ⟨rfl, rfl, rfl⟩).1
  have hbefore : SegSync (s.beforeExec text) (t.beforeExec text) := by
    obtain ⟨_, _, _, hs'⟩ := s.defineLabel_shape (splitLine text).1
    obtain ⟨_, _, _, ht'⟩ := t.defineLabel_shape (splitLine text).1
    unfold beforeExec afterLabel
    rw [hs', ht']
    exact ⟨h.segBase, h.orgStack⟩
  rw [hse, hte]
  exact segSync_execStatement hbefore hsame line hseg

/-- Two runs that set the same segments are in the same segment before every line. -/
theorem segSync_take : ∀ {lines : List (List Char)} {line : Nat} {s t : AsmState}, SegSync s t →
    SegmentsAgree s t line lines → (s.processLines line lines).Fine →
    (t.processLines line lines).Fine → ∀ i,
    SegSync (s.processLines line (lines.take i)) (t.processLines line (lines.take i))
  | _, _, _, _, h, _, _, _, 0 => h
  | [], _, _, _, h, _, _, _, _ + 1 => h
  | text :: rest, line, s, t, h, ⟨hseg, hrest⟩, hs, ht, i + 1 => by
    have hs1 := processLines_fine (s := s.processLine line text) rest hs
    have ht1 := processLines_fine (s := t.processLine line text) rest ht
    exact segSync_take (processLine_segSync h hseg hs1 ht1) hrest hs ht i

/-- Two runs at the same positions are at the same position before every line. -/
theorem samePositions_take : ∀ {lines : List (List Char)} {line : Nat} {s t : AsmState},
    SamePositions s t line lines → ∀ i,
    (s.processLines line (lines.take i)).pos = (t.processLines line (lines.take i)).pos
  | [], _, _, _, h, 0 => h
  | [], _, _, _, h, _ + 1 => h
  | _ :: _, _, _, _, h, 0 => h.1
  | _ :: _, _, _, _, h, i + 1 => samePositions_take h.2.2 i

/-! ## The place of a label -/

theorem fine_of_append {s : AsmState} {line : Nat} {a b : List (List Char)}
    (h : (s.processLines line (a ++ b)).Fine) : (s.processLines line a).Fine := by
  rw [processLines_append] at h
  exact processLines_fine b h

/-- After a line that declares a label, which no later line declares again. -/
theorem place_after {s : AsmState} {line : Nat} {a b : List (List Char)} {text name : List Char}
    {ltype : LabelType} (hd : (splitLine text).1 = .pos name ltype)
    (h : (s.processLines line (a ++ text :: b)).Fine) (hb : ∀ t ∈ b, declares t name = false) :
    place (s.processLines line (a ++ text :: b)).labels name =
      some ((s.processLines line a).pos, (s.processLines line a).segBase) := by
  rw [processLines_append, processLines] at h ⊢
  obtain ⟨hlabels, hfine⟩ := processLine_labels (processLines_fine b h)
  rw [place_processLines h hb, hlabels, place_defineLabel_self hd hfine]

end AsmState

open AsmState

theorem take_get_drop {α : Type} : ∀ {xs : List α} {i : Nat} {x : α}, xs[i]? = some x →
    xs = xs.take i ++ x :: xs.drop (i + 1)
  | _ :: _, 0, _, h => by
    cases h
    rfl
  | y :: xs, i + 1, x, h => congrArg (y :: ·) (@take_get_drop α xs i x h)

/-- A run that is fine is fine before every line, and when its label is entered. -/
theorem fine_take {s : AsmState} {line : Nat} {lines : List (List Char)} {k : Nat} {use : List Char}
    (h : (s.processLines line lines).Fine) (hk : lines[k]? = some use) :
    (s.processLines line (lines.take k)).Fine ∧
      ((s.processLines line (lines.take k)).defineLabel (splitLine use).1).Fine := by
  have hlines := take_get_drop hk
  generalize lines.take k = a at *
  generalize lines.drop (k + 1) = b at *
  subst hlines
  refine ⟨fine_of_append h, ?_⟩
  rw [processLines_append, processLines] at h
  exact (processLine_labels (processLines_fine b h)).2

/-- A name is declared at its own line only. -/
theorem declares_other {lines : List (List Char)} (h : DeclaredOnce lines) {a b : List (List Char)}
    {text name : List Char} {ltype : LabelType} (hlines : lines = a ++ text :: b)
    (hd : (splitLine text).1 = .pos name ltype) :
    (∀ t ∈ a, declares t name = false) ∧ ∀ t ∈ b, declares t name = false := by
  have hname : declaredName text = some name := by rw [declaredName, hd]
  rw [DeclaredOnce, hlines, List.pairwise_append, List.pairwise_cons] at h
  obtain ⟨-, ⟨hafter, -⟩, hbefore⟩ := h
  have hafter' : ∀ t ∈ b, declares t name = false := by
    intro t ht
    have hnot := hafter t ht
    rw [redeclares, hname] at hnot
    exact hnot
  refine ⟨fun t ht => ?_, hafter'⟩
  by_contra htrue
  unfold declares at htrue
  cases hn : declaredName t with
  | none =>
    rw [hn] at htrue
    exact htrue rfl
  | some n =>
    rw [hn] at htrue
    have hsame : sameName n name = true := by simpa using htrue
    have hnot := hbefore t ht text List.mem_cons_self
    rw [redeclares, hn] at hnot
    simp only [declares, hname] at hnot
    rw [sameName_comm, hsame] at hnot
    cases hnot

/-- **At every line a label has the position and the segment of its own line**, before it from the
last run of pass 1, after it from pass 2. -/
theorem place_settled {lines : List (List Char)} (h : Assembles lines) (hs : Settled lines)
    {i : Nat} {text name : List Char} {ltype : LabelType} (hi : lines[i]? = some text)
    (hd : (splitLine text).1 = .pos name ltype) {k : Nat} {use : List Char}
    (hk : lines[k]? = some use) :
    place (atStatement lines k use).labels name =
      some ((beforeLine lines i).pos, (beforeLine lines i).segBase) := by
  have hpass2 : ((afterPass1 lines).startPass2.processLines 1 lines).Fine := ⟨h.1, h.2⟩
  have hpass1 : ((lastPass1Start lines).processLines 1 lines).Fine := by
    obtain ⟨hr, he⟩ := processLines_fine lines hpass2
    exact ⟨hr, he⟩
  have hsplit := take_get_drop hi
  obtain ⟨hbefore, hafter⟩ := declares_other hs.once hsplit hd
  obtain ⟨htake, hfine⟩ := fine_take hpass2 hk
  rcases Nat.lt_trichotomy k i with hlt | rfl | hgt
  · -- pass 2 has not come to the line of the label
    have hmem : use ∈ lines.take i :=
      List.mem_of_getElem? (by rw [List.getElem?_take_of_lt hlt, hk])
    have hfirst : ∀ t ∈ lines.take k, declares t name = false := fun t ht =>
      hbefore t (List.take_subset_take_left lines (Nat.le_of_lt hlt) ht)
    have hsync : SegSync (lastPass1Start lines) (afterPass1 lines).startPass2 := ⟨rfl, rfl⟩
    have hpos := samePositions_take (layout_agrees lines h hs.forms).1 i
    have hseg := (segSync_take hsync hs.segments hpass1 hpass2 i).segBase
    have hplace : place (afterPass1 lines).labels name =
        some (((lastPass1Start lines).processLines 1 (lines.take i)).pos,
          ((lastPass1Start lines).processLines 1 (lines.take i)).segBase) := by
      have hrun := @place_after (lastPass1Start lines) 1 (lines.take i) (lines.drop (i + 1)) text
        name ltype hd (by rw [← hsplit]; exact hpass1) hafter
      rw [← hsplit] at hrun
      exact hrun
    rw [hpos, hseg] at hplace
    rw [atStatement, beforeLine, place_defineLabel_other hfine (hbefore use hmem),
      place_processLines htake hfirst]
    exact hplace
  · rw [hi] at hk
    cases hk
    exact place_defineLabel_self hd hfine
  · -- pass 2 has passed the line of the label
    have hlast : ∀ t ∈ (lines.drop (i + 1)).take (k - (i + 1)), declares t name = false :=
      fun t ht => hafter t (List.mem_of_mem_take ht)
    have hmem : use ∈ lines.drop (i + 1) :=
      List.mem_of_getElem? (i := k - (i + 1)) (by
        rw [List.getElem?_drop, Nat.add_sub_cancel' hgt, hk])
    have htakes : lines.take k =
        lines.take i ++ text :: (lines.drop (i + 1)).take (k - (i + 1)) := by
      have hk' : i + 1 + (k - (i + 1)) = k := Nat.add_sub_cancel' hgt
      conv_lhs => rw [← hk']
      rw [List.take_add, List.take_add_one, hi, List.append_assoc]
      rfl
    rw [atStatement, beforeLine, place_defineLabel_other hfine (hafter use hmem)]
    rw [htakes] at htake ⊢
    exact place_after hd htake hlast

/-! ## Uses -/

/-- What is known of a label with a place. -/
theorem findLabel_of_place {labels : List Label} {name : List Char} {v seg : Int}
    (h : place labels name = some (v, seg)) :
    ∃ l, findLabel labels name = some l ∧ l.value = v ∧ l.segment = seg := by
  obtain ⟨l, hl, hplace⟩ := Option.map_eq_some_iff.mp h
  exact ⟨l, hl, congrArg Prod.fst hplace, congrArg Prod.snd hplace⟩

theorem wordOf_emit16 (v : Int) (rest : List Nat) :
    wordOf ((emit16 v).bytes ++ rest) = v % 65536 := by
  have hbytes : (emit16 v).bytes ++ rest = toByte v :: toByte (v / 256) :: rest := rfl
  rw [hbytes, wordOf]
  simp only [List.getD_cons_zero, List.getD_cons_succ, toByte]
  omega

/-- The words of a pointer count as far as they are emitted. -/
theorem farAddress_emit16 (seg off : Int) (rest rest' : List Nat) :
    farAddress (wordOf ((emit16 seg).bytes ++ rest)) (wordOf ((emit16 off).bytes ++ rest')) =
      farAddress seg off := by
  rw [wordOf_emit16, wordOf_emit16]
  simp only [farAddress]
  omega

section

variable {s : AsmState} {line : Nat} {name : List Char} {v seg : Int}

theorem labelOp_place (hlen : name.length ≤ 63) (h : place s.labels name = some (v, seg))
    (isFar : Bool) :
    labelOp s.env isFar name = { type := .imm, imm := v, label := name, size := 2, isFar } := by
  obtain ⟨l, hl, rfl, -⟩ := findLabel_of_place h
  have hlabel : findLabel s.env.labels name = some l := hl
  simp only [labelOp, labelOperand, Parse.bind_apply, lookupLabel, hlabel, Parse.pure_apply,
    List.take_of_length_le hlen]
  rfl

theorem jumpBytes_far (hlen : name.length ≤ 63) (h : place s.labels name = some (v, seg))
    (isCall : Bool) : jumpBytes s line isCall true name =
      toByte (if isCall then 0x9A else 0xEA) :: ((emit16 v).bytes ++ (emit16 seg).bytes) := by
  have hop := labelOp_place hlen h true
  obtain ⟨l, hl, rfl, rfl⟩ := findLabel_of_place h
  have hsite : findLabel (s.site line).labels name = some l := hl
  simp only [jumpBytes, encode, hop, asmJmpCall, Operand.isImm, beq_self_eq_true, Bool.true_or,
    if_true, hsite]
  rfl

theorem nearTarget_two (base pos : Int) (opcode b : Nat) :
    nearTarget base pos [opcode, b] =
      farAddress base ((pos + 2 - 16 * base) % 65536 + signedByte b) := by
  have hlen : (([opcode, b].length : Nat) : Int) = 2 := rfl
  unfold nearTarget
  simp only [hlen, List.getD_cons_succ, List.getD_cons_zero]
  rw [if_pos (show [opcode, b].length = 2 from rfl)]

theorem nearTarget_three (base pos : Int) (opcode a b : Nat) :
    nearTarget base pos [opcode, a, b] =
      farAddress base ((pos + 3 - 16 * base) % 65536 + wordOf [a, b]) := by
  have hlen : (([opcode, a, b].length : Nat) : Int) = 3 := rfl
  unfold nearTarget
  simp only [hlen, List.drop_one, List.tail_cons]
  rw [if_neg (show ¬[opcode, a, b].length = 2 by simp)]

/-- Where a displacement leads that is counted from the end of its instruction. -/
theorem farAddress_disp {base pos n disp target : Int}
    (h : disp % 65536 = (target - (pos + n)) % 65536) :
    farAddress base ((pos + n - 16 * base) % 65536 + disp) =
      farAddress base (target - 16 * base) := by
  simp only [farAddress]
  congr 2
  omega

/-- A near jump or call leads to the value of its label, counted from the segment. -/
theorem jumpBytes_near (hlen : name.length ≤ 63) (h : place s.labels name = some (v, seg))
    (isCall : Bool) (base : Int) :
    nearTarget base s.pos (jumpBytes s line isCall false name) =
      farAddress base (v - 16 * base) := by
  have hop := labelOp_place hlen h false
  have hpos : (s.site line).pos = s.pos := rfl
  by_cases hshort : (!isCall && !jmpIsNear (s.site line) v) = true
  · have hbytes : jumpBytes s line isCall false name =
        [toByte 0xEB, toByte ((s.site line).rel v)] := by
      simp only [jumpBytes, encode, hop, asmJmpCall, Operand.isImm, beq_self_eq_true, Bool.true_or,
        if_true, Bool.false_eq_true, if_false, hshort]
      rfl
    have hfits : fitsByte ((s.site line).rel v) = true := by
      simp only [jmpIsNear, Bool.and_eq_true, Bool.not_eq_true', Bool.or_eq_false_iff,
        Bool.not_eq_false'] at hshort
      exact hshort.2.2
    simp only [fitsByte, Bool.and_eq_true, decide_eq_true_eq, Site.rel, hpos] at hfits
    rw [hbytes, nearTarget_two]
    refine farAddress_disp ?_
    simp only [signedByte, toByte, Site.rel, hpos]
    omega
  · have hbytes : jumpBytes s line isCall false name =
        toByte (if isCall then 0xE8 else 0xE9) :: (emit16 (v - (s.pos + 3))).bytes := by
      simp only [jumpBytes, encode, hop, asmJmpCall, Operand.isImm, beq_self_eq_true, Bool.true_or,
        if_true, Bool.false_eq_true, if_false, if_neg hshort]
      rfl
    have hword := wordOf_emit16 (v - (s.pos + 3)) []
    rw [List.append_nil] at hword
    have htarget := nearTarget_three base s.pos (toByte (if isCall then 0xE8 else 0xE9))
      (toByte (v - (s.pos + 3))) (toByte ((v - (s.pos + 3)) / 256))
    rw [hbytes]
    refine htarget.trans (farAddress_disp ?_)
    have hdisp : wordOf [toByte (v - (s.pos + 3)), toByte ((v - (s.pos + 3)) / 256)] =
        (v - (s.pos + 3)) % 65536 := hword
    rw [hdisp]
    omega

/-- **A use leads to the place of the label** when the segment starts at the multiple of 64 KiB that
the label lies in. -/
theorem resolves_of_aligned (hlen : name.length ≤ 63) (h : place s.labels name = some (v, seg))
    (haligned : 16 * seg % 1048576 = 65536 * (v / 65536) % 1048576) :
    Resolves s line name (v % 1048576) := by
  have hfar : farAddress seg v = v % 1048576 := by
    simp only [farAddress]
    omega
  obtain ⟨l, hl, hvalue, hsegment⟩ := findLabel_of_place h
  have hlookup : ∀ p, (lookupLabel name s.env p).1 = v := by
    intro p
    have hlabel : findLabel s.env.labels name = some l := hl
    simp only [lookupLabel, hlabel, hvalue]
  have hseg : ∀ p, (lookupSegment name s.env p).1 = seg := by
    intro p
    have hlabel : findLabel s.env.labels name = some l := hl
    simp only [lookupSegment, hlabel, hsegment]
  refine ⟨fun p => ?_, fun isCall => ?_, fun p isCall hbase => ?_⟩
  · have hwords := farAddress_emit16 seg v [] []
    rw [List.append_nil, List.append_nil] at hwords
    rw [hseg, hlookup, hwords, hfar]
  · rw [jumpBytes_far hlen h]
    have hwords := farAddress_emit16 seg v [] (emit16 seg).bytes
    rw [List.append_nil] at hwords
    exact hwords.trans hfar
  · rw [hseg] at hbase
    rw [jumpBytes_near hlen h, hbase]
    simp only [farAddress]
    omega

end

/-- A segment that starts at a multiple of 64 KiB. -/
def alignedSegment : List (List Char) :=
  ["org 0x10000".toList, "seg 0x1000".toList, "x: dw x, SEG x".toList]

/-- The pointer that is emitted for `x` is not its address. -/
def unalignedSegment : List (List Char) :=
  ["org 0x12350".toList, "seg 0x1234".toList, "x: dw x, SEG x".toList]

end Nib.Asm
