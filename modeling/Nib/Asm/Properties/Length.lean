import Nib.Asm.Spec.Forms
import Nib.Asm.Properties.Parse

/-!
# The length of an instruction is a matter of its text and its forms

* `emitModrmMem_length` — the displacement form is the number of displacement bytes
* `encode_length` — instructions equal up to numbers, in the same forms, have the same length
-/

namespace Nib.Asm

/-! ## Lengths of the parts -/

/-- The number of bytes emitted. -/
def Enc.length (e : Enc) : Nat := e.bytes.length

@[simp] theorem Enc.length_append (a b : Enc) : (a ++ b).length = a.length + b.length :=
  List.length_append

@[simp] theorem Enc.length_relax (a : Enc) (r : Bool) :
    Enc.length { a with relax := r } = a.length := rfl

@[simp] theorem Enc.length_empty : Enc.length {} = 0 := rfl

@[simp] theorem length_emit (b : Int) : (emit b).length = 1 := rfl

@[simp] theorem length_emit16 (w : Int) : (emit16 w).length = 2 := rfl

@[simp] theorem length_encErr : encErr.length = 0 := rfl

@[simp] theorem length_emitModrmReg (regField reg : Nat) : (emitModrmReg regField reg).length = 1 :=
  rfl

@[simp] theorem length_emitImm (w : Nat) (imm : Int) :
    (emitImm w imm).length = if w = 1 then 2 else 1 := by
  unfold emitImm
  split <;> rfl

theorem modField_le (op : Operand) (rm : Nat) : modField op rm ≤ 2 := by
  unfold modField
  simp only
  split_ifs <;> omega

theorem emitModrmMem_length (op : Operand) (regField : Nat) (hm : op.isMem = true) :
    ((emitModrmMem op regField).length : Int) = 1 + op.dispForm + if op.isDirect then 2 else 0 := by
  unfold emitModrmMem Operand.dispForm
  cases hd : op.isDirect with
  | true => simp
  | false =>
    simp only [hm, Bool.not_false, Bool.and_self, if_true, Bool.false_eq_true, if_false]
    cases findRm op.base op.index with
    | none => simp
    | some rm =>
      have hle := modField_le op rm
      simp only [Enc.length_append, length_emit]
      split_ifs with h1 h2
      · simp [h1]
      · simp [h2]
      · have h0 : modField op rm = 0 := by omega
        simp [h0]

/-! ## Operands equal up to numbers -/

namespace Operand.Same

variable {a b : Operand}

theorem isReg (h : a.Same b) : a.isReg = b.isReg := by rw [Operand.isReg, Operand.isReg, h.type]

theorem isMem (h : a.Same b) : a.isMem = b.isMem := by rw [Operand.isMem, Operand.isMem, h.type]

theorem isImm (h : a.Same b) : a.isImm = b.isImm := by rw [Operand.isImm, Operand.isImm, h.type]

theorem isSreg (h : a.Same b) : a.isSreg = b.isSreg := by
  rw [Operand.isSreg, Operand.isSreg, h.type]

theorem w (h : a.Same b) : a.w = b.w := by rw [Operand.w, Operand.w, h.size]

theorem isAx (h : a.Same b) : a.isAx = b.isAx := by
  rw [Operand.isAx, Operand.isAx, h.isReg, h.reg, h.size]

theorem isAl (h : a.Same b) : a.isAl = b.isAl := by
  rw [Operand.isAl, Operand.isAl, h.isReg, h.reg, h.size]

theorem isCl (h : a.Same b) : a.isCl = b.isCl := by
  rw [Operand.isCl, Operand.isCl, h.isReg, h.reg, h.size]

theorem isDirect (h : a.Same b) : a.isDirect = b.isDirect := by
  rw [Operand.isDirect, Operand.isDirect, h.base, h.index]

theorem isByteReg (h : a.Same b) : isByteReg a = isByteReg b := by
  rw [Nib.Asm.isByteReg, Nib.Asm.isByteReg, h.isReg, h.size]

theorem widthMismatch (h : a.Same b) (size : Nat) :
    widthMismatch a size = widthMismatch b size := by
  rw [Nib.Asm.widthMismatch, Nib.Asm.widthMismatch, h.isReg, h.isMem, h.size]

end Operand.Same

section Parts

variable {a b : Operand} (regField regField' : Nat)

theorem emitSegOverride_length (h : a.Same b) :
    (emitSegOverride a).length = (emitSegOverride b).length := by
  rw [emitSegOverride, emitSegOverride, h.segOvr]

theorem emitMemOverride_length (h : a.Same b) :
    (emitMemOverride a).length = (emitMemOverride b).length := by
  rw [emitMemOverride, emitMemOverride, h.isMem]
  split
  · exact emitSegOverride_length h
  · rfl

theorem emitModrmMem_length_eq (h : a.Same b) (hf : a.dispForm = b.dispForm)
    (hm : b.isMem = true) :
    (emitModrmMem a regField).length = (emitModrmMem b regField').length := by
  have ha := emitModrmMem_length a regField (h.isMem.trans hm)
  have hb := emitModrmMem_length b regField' hm
  rw [hf, h.isDirect] at ha
  omega

theorem emitModrm_length (h : a.Same b) (hf : a.dispForm = b.dispForm) :
    (emitModrm a regField).length = (emitModrm b regField').length := by
  rw [emitModrm, emitModrm, h.isReg, h.isMem]
  split
  · rfl
  · split
    · next hm =>
      rw [Enc.length_append, Enc.length_append, emitSegOverride_length h,
        emitModrmMem_length_eq regField regField' h hf hm]
    · rfl

theorem emitRm_length (h : a.Same b) (hf : a.dispForm = b.dispForm)
    (hrm : (b.isReg || b.isMem) = true) :
    (emitRm a regField).length = (emitRm b regField').length := by
  rw [emitRm, emitRm, h.isReg]
  split
  · rfl
  · next hr => exact emitModrmMem_length_eq regField regField' h hf (by simpa [hr] using hrm)

end Parts

/-! ## Instruction families -/

section Families

variable {d d' s s' : Operand}

theorem asmAlu_length (op : Nat) (hd : d.Same d') (hs : s.Same s')
    (hfd : d.dispForm = d'.dispForm) (hfs : s.dispForm = s'.dispForm)
    (hi : (s.isImm && !d.isAx && !d.isAl && aluShortImm d s) =
      (s'.isImm && !d'.isAx && !d'.isAl && aluShortImm d' s')) :
    (asmAlu op d s).length = (asmAlu op d' s').length := by
  unfold asmAlu
  rw [hs.isImm, hd.isAx, hd.isAl] at hi
  rw [hs.isImm, hd.isAx, hd.isAl, hd.isReg, hs.isReg, hs.isMem, hd.isMem, hd.w]
  split_ifs <;> simp_all [emitModrm_length op op hd hfd, emitMemOverride_length hs,
    emitMemOverride_length hd, emitRm_length d.reg d'.reg hs hfs, emitRm_length s.reg s'.reg hd hfd]

theorem asmShift_length (op : Nat) (hd : d.Same d') (hs : s.Same s')
    (hfd : d.dispForm = d'.dispForm)
    (hi : (s.isImm && s.imm == 1) = (s'.isImm && s'.imm == 1)) :
    (asmShift op d s).length = (asmShift op d' s').length := by
  unfold asmShift
  rw [hi, hs.isCl, hs.isImm, hd.w]
  split_ifs <;> simp [emitModrm_length op op hd hfd]

theorem asmIncDec_length (op : Nat) (hd : d.Same d') (hfd : d.dispForm = d'.dispForm) :
    (asmIncDec op d).length = (asmIncDec op d').length := by
  unfold asmIncDec
  rw [hd.isReg, hd.w]
  split_ifs <;> simp [emitModrm_length op op hd hfd]

theorem asmPushPop_length (isPop : Bool) (hd : d.Same d') (hfd : d.dispForm = d'.dispForm)
    (hi : (!isPop && d.isImm && fitsByte d.imm) = (!isPop && d'.isImm && fitsByte d'.imm)) :
    (asmPushPop isPop d).length = (asmPushPop isPop d').length := by
  unfold asmPushPop
  rw [hd.isImm] at hi
  rw [hd.isReg, hd.isSreg, hd.isMem, hd.isImm, hd.size]
  split_ifs <;> simp_all [emitModrm_length _ (if isPop then 0 else 6) hd hfd]

theorem asmMov_length (hd : d.Same d') (hs : s.Same s')
    (hfd : d.dispForm = d'.dispForm) (hfs : s.dispForm = s'.dispForm) :
    (asmMov d s).length = (asmMov d' s').length := by
  unfold asmMov
  rw [hd.isSreg, hd.isReg, hd.isMem, hd.size, hd.w, hd.widthMismatch, hs.isSreg, hs.isReg, hs.isMem,
    hs.isImm, hs.size, hs.w, hs.widthMismatch]
  split_ifs <;> simp_all [emitModrm_length 0 0 hd hfd, emitMemOverride_length hs,
    emitMemOverride_length hd, emitRm_length d.reg d'.reg hs hfs, emitRm_length s.reg s'.reg hd hfd]

theorem asmXchg_length (hd : d.Same d') (hs : s.Same s')
    (hfd : d.dispForm = d'.dispForm) (hfs : s.dispForm = s'.dispForm) :
    (asmXchg d s).length = (asmXchg d' s').length := by
  unfold asmXchg
  rw [hd.isAx, hd.isReg, hd.size, hs.isAx, hs.isReg, hs.size]
  split_ifs <;> simp [emitModrm_length d.reg d'.reg hs hfs, emitModrm_length s.reg s'.reg hd hfd]

theorem asmTest_length (hd : d.Same d') (hs : s.Same s') (hfd : d.dispForm = d'.dispForm) :
    (asmTest d s).length = (asmTest d' s').length := by
  unfold asmTest
  rw [hd.isAx, hd.isAl, hd.w, hs.isImm, hs.isReg]
  split_ifs <;> simp [emitModrm_length 0 0 hd hfd, emitModrm_length s.reg s'.reg hd hfd]

theorem asmLea_length (hd : d.Same d') (hs : s.Same s') (hfs : s.dispForm = s'.dispForm) :
    (asmLea d s).length = (asmLea d' s').length := by
  unfold asmLea
  rw [hd.isReg, hd.size, hs.isMem]
  split_ifs <;> simp [emitModrm_length d.reg d'.reg hs hfs]

theorem asmImulImm_length (reg rm : Nat) {imm imm' : Int} (hi : fitsByte imm = fitsByte imm') :
    (asmImulImm reg rm imm).length = (asmImulImm reg rm imm').length := by
  unfold asmImulImm
  rw [hi]
  split_ifs <;> rfl

theorem asmInOut_length (isOut : Bool) (hd : d.Same d') (hs : s.Same s') :
    (asmInOut isOut d s).length = (asmInOut isOut d' s').length := by
  cases isOut <;> simp only [asmInOut, Bool.false_eq_true, if_false, if_true, hd.isImm, hd.isReg,
    hd.reg, hs.isImm, hs.isReg, hs.reg] <;> split_ifs <;> rfl

theorem asmV20Bitop_length (op : Nat) (hd : d.Same d') (hs : s.Same s')
    (hfd : d.dispForm = d'.dispForm) :
    (asmV20Bitop op d s).length = (asmV20Bitop op d' s').length := by
  unfold asmV20Bitop
  rw [hs.isCl, hs.isImm]
  split_ifs <;> simp [emitModrm_length 0 0 hd hfd]

/-- A byte register has no displacement. -/
theorem emitModrm_byteReg (h : isByteReg d = true) (regField : Nat) :
    (emitModrm d regField).length = 1 := by
  simp only [isByteReg, Bool.and_eq_true] at h
  rw [emitModrm, if_pos h.1]
  rfl

theorem asmV20BextBins_length (isBext : Bool) (hd : d.Same d') (hs : s.Same s')
    (hi : (s.isImm && decide (s.imm < 0 ∨ s.imm > 15)) =
      (s'.isImm && decide (s'.imm < 0 ∨ s'.imm > 15))) :
    (asmV20BextBins isBext d (some s)).length = (asmV20BextBins isBext d' (some s')).length := by
  unfold asmV20BextBins
  have hb := hd.isByteReg
  rw [hs.isImm] at hi
  simp only [hs.isImm, hb, hs.isByteReg]
  split_ifs <;> simp_all [emitModrm_byteReg]

theorem asmV20BextBins_none_length (isBext : Bool) (hd : d.Same d') :
    (asmV20BextBins isBext d none).length = (asmV20BextBins isBext d' none).length := by
  unfold asmV20BextBins
  have hb := hd.isByteReg
  simp only [hb]
  split_ifs <;> simp_all [emitModrm_byteReg]

end Families

/-! ## Branches -/

theorem boolForm_inj {b c : Bool} (h : boolForm b = boolForm c) : b = c := by
  cases b <;> cases c <;> simp_all [boolForm]

section Branches

variable {a b : Operand} {s t : Site}

theorem asmJmpCall_length (isCall : Bool) (h : a.Same b)
    (hf : (Instr.jmpCall isCall a).forms s = (Instr.jmpCall isCall b).forms t) :
    (asmJmpCall s isCall a).length = (asmJmpCall t isCall b).length := by
  simp only [Instr.forms, h.isImm, h.label, h.isFar] at hf
  unfold asmJmpCall
  rw [h.isImm, h.label, h.isFar, h.isReg, h.isMem]
  by_cases hdirect : (b.isImm || !b.label.isEmpty) = true
  · rw [if_pos hdirect, if_pos hdirect] at hf
    rw [if_pos hdirect, if_pos hdirect]
    split
    · simp
    · next hfar =>
      have hn : (!isCall && !jmpIsNear s a.imm) = (!isCall && !jmpIsNear t b.imm) := by
        have hf' := boolForm_inj (List.cons.inj hf).1
        cases isCall <;> simp_all
      rw [hn]
      split_ifs <;> simp
  · rw [if_neg hdirect, if_neg hdirect] at hf
    rw [if_neg hdirect, if_neg hdirect]
    have hfd : a.dispForm = b.dispForm := (List.cons.inj hf).1
    split
    · next hrm =>
      simp only [Enc.length_append, emitMemOverride_length h]
      rw [emitRm_length _ _ h hfd hrm]
    · rfl

theorem asmJcc_length (cc : Nat) (label : List Char)
    (hf : jccIsLong s label a.imm = jccIsLong t label b.imm) :
    (asmJcc s cc label a).length = (asmJcc t cc label b).length := by
  unfold asmJcc
  rw [hf]
  split_ifs <;> rfl

theorem asmLoop_length (opcode : Nat) : (asmLoop s opcode a).length = 2 := by
  unfold asmLoop
  split <;> rfl

end Branches

/-- **Instructions equal up to numbers, in the same forms, have the same length.** -/
theorem encode_length {i j : Instr} (h : i.Same j) : ∀ (s t : Site), i.forms s = j.forms t →
    (encode s i).length = (encode t j).length := by
  induction h with
  | bytes bs => exact fun _ _ _ => rfl
  | alu op hd hs =>
    intro s t hf
    simp only [Instr.forms, List.cons.injEq, and_true] at hf
    exact asmAlu_length op hd hs hf.1 hf.2.1 (boolForm_inj hf.2.2)
  | shift op hd hs =>
    intro s t hf
    simp only [Instr.forms, List.cons.injEq, and_true] at hf
    exact asmShift_length op hd hs hf.1 (boolForm_inj hf.2)
  | mov hd hs =>
    intro s t hf
    simp only [Instr.forms, List.cons.injEq, and_true] at hf
    exact asmMov_length hd hs hf.1 hf.2
  | xchg hd hs =>
    intro s t hf
    simp only [Instr.forms, List.cons.injEq, and_true] at hf
    exact asmXchg_length hd hs hf.1 hf.2
  | test hd hs =>
    intro s t hf
    exact asmTest_length hd hs (List.cons.inj hf).1
  | lea hd hs =>
    intro s t hf
    exact asmLea_length hd hs (List.cons.inj hf).1
  | @loadMem opcode d d' _ _ hd hs =>
    intro s t hf
    have := emitModrm_length d.reg d'.reg hs (List.cons.inj hf).1
    simpa [encode, asmLoadMem] using this
  | incDec op hd =>
    intro s t hf
    exact asmIncDec_length op hd (List.cons.inj hf).1
  | group3 field hd =>
    intro s t hf
    have := emitModrm_length field field hd (List.cons.inj hf).1
    simpa [encode, asmGroup3] using this
  | imulImm reg rm imm imm' =>
    intro s t hf
    exact asmImulImm_length reg rm (boolForm_inj (List.cons.inj hf).1)
  | pushPop isPop h =>
    intro s t hf
    simp only [Instr.forms, List.cons.injEq, and_true] at hf
    exact asmPushPop_length isPop h hf.1 (boolForm_inj hf.2)
  | jmpCall isCall h => exact fun s t hf => asmJmpCall_length isCall h hf
  | jcc cc label h =>
    intro s t hf
    exact asmJcc_length cc label (boolForm_inj (List.cons.inj hf).1)
  | loop opcode h =>
    intro s t _
    exact (asmLoop_length opcode).trans (asmLoop_length opcode).symm
  | ret isFar h => exact fun _ _ _ => rfl
  | bareRet isFar => exact fun _ _ _ => rfl
  | @int a b h =>
    intro s t hf
    have hi : (a.imm == 3) = (b.imm == 3) := boolForm_inj (List.cons.inj hf).1
    have hiff : a.imm = 3 ↔ b.imm = 3 := by simpa using Bool.eq_iff_iff.mp hi
    simp only [encode, asmInt, hiff]
    split_ifs <;> rfl
  | inOut isOut hd hs => exact fun _ _ _ => asmInOut_length isOut hd hs
  | enter hd hs => exact fun _ _ _ => rfl
  | bitop op hd hs =>
    intro s t hf
    exact asmV20Bitop_length op hd hs (List.cons.inj hf).1
  | bextBins isBext hd hs =>
    intro s t hf
    exact asmV20BextBins_length isBext hd hs (boolForm_inj (List.cons.inj hf).1)
  | bextBinsReg isBext hd => exact fun _ _ _ => asmV20BextBins_none_length isBext hd
  | brkem h => exact fun _ _ _ => rfl
  | prefixed byte h ih =>
    intro s t hf
    have := ih (s.advance 1) (t.advance 1) hf
    simpa [encode] using this
  | unknown => exact fun _ _ _ => rfl

/-- The same for statements. -/
theorem Statement.length_eq {a b : Statement} (h : a.Same b) {s t : Site}
    (hf : a.forms s = b.forms t) : a.length s = b.length t := by
  cases h with
  | data hlen => exact hlen
  | instr hi => exact encode_length hi s t hf
  | _ => rfl

end Nib.Asm
