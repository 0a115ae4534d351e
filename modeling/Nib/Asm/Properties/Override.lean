import Nib.Asm.Spec.Override

/-!
# Where the segment override is emitted

* `Starts` — the first byte that is emitted is not an override
* `asmAlu_override`, `asmMov_override`, `asmJmpCall_override` — the forms that emit it first
* `override_first_iff` — no other form does
-/

namespace Nib.Asm

/-! ## Emitted bytes -/

@[simp] theorem Enc.bytes_append (a b : Enc) : (a ++ b).bytes = a.bytes ++ b.bytes := rfl

@[simp] theorem Enc.errors_append (a b : Enc) : (a ++ b).errors = a.errors + b.errors := rfl

theorem encErr_errors : encErr.errors ≠ 0 := Nat.one_ne_zero

/-- The first byte is no override. -/
def Starts (e : Enc) : Prop := ∃ b rest, e.bytes = b :: rest ∧ ∀ seg, b ≠ overrideByte seg

theorem starts_emit {b : Int} (h : [0x26, 0x2E, 0x36, 0x3E, 0].contains (toByte b) = false) :
    Starts (emit b) := by
  refine ⟨toByte b, [], rfl, fun seg heq => ?_⟩
  rw [heq] at h
  match seg with
  | 0 => exact absurd h (by decide)
  | 1 => exact absurd h (by decide)
  | 2 => exact absurd h (by decide)
  | 3 => exact absurd h (by decide)
  | seg + 4 => exact absurd h (by simp [overrideByte])

theorem Starts.append {a : Enc} (h : Starts a) (b : Enc) : Starts (a ++ b) := by
  obtain ⟨x, rest, hx, hne⟩ := h
  exact ⟨x, rest ++ b.bytes, by rw [Enc.bytes_append, hx, List.cons_append], hne⟩

/-- Bytes that do not start with an override do not have it first. -/
theorem Starts.ne {e : Enc} (h : Starts e) (seg : Nat) (rest : List Nat) :
    e.bytes ≠ overrideByte seg :: rest := by
  obtain ⟨b, tail, hb, hne⟩ := h
  rw [hb]
  exact fun heq => hne seg (List.cons.inj heq).1

theorem starts_w {b : Int} (w : Operand)
    (h0 : [0x26, 0x2E, 0x36, 0x3E, 0].contains (toByte b) = false)
    (h1 : [0x26, 0x2E, 0x36, 0x3E, 0].contains (toByte (b + 1)) = false) :
    Starts (emit (b + w.w)) := by
  refine starts_emit ?_
  unfold Operand.w
  split_ifs
  · exact h1
  · simpa using h0

/-! ## Memory operands -/

theorem override_some {op : Operand} {seg : Nat} (h : op.override = some seg) :
    op.isMem = true ∧ op.segOvr = some seg := by
  unfold Operand.override at h
  split_ifs at h with hm
  exact ⟨hm, h⟩

theorem isMem_kind {op : Operand} (h : op.isMem = true) :
    op.isReg = false ∧ op.isImm = false ∧ op.isSreg = false := by
  have htype : op.type = .mem := by simpa [Operand.isMem] using h
  simp [Operand.isReg, Operand.isImm, Operand.isSreg, htype]

theorem emitMemOverride_some {op : Operand} {seg : Nat} (h : op.override = some seg) :
    (emitMemOverride op).bytes = [overrideByte seg] := by
  obtain ⟨hm, hs⟩ := override_some h
  rw [emitMemOverride, hm, if_pos rfl, emitSegOverride, hs]
  show [toByte ((overrideByte seg : Nat) : Int)] = _
  have hlt : overrideByte seg < 256 := by
    match seg with
    | 0 => decide
    | 1 => decide
    | 2 => decide
    | 3 => decide
    | seg + 4 => simp [overrideByte]
  have hbyte : toByte ((overrideByte seg : Nat) : Int) = overrideByte seg := by
    unfold toByte
    omega
  rw [hbyte]

theorem emitMemOverride_clear (op : Operand) : emitMemOverride op.clearOverride = {} := by
  unfold emitMemOverride
  split_ifs <;> rfl

section Clear

variable (op : Operand)

@[simp] theorem isReg_clear : op.clearOverride.isReg = op.isReg := rfl

@[simp] theorem isMem_clear : op.clearOverride.isMem = op.isMem := rfl

@[simp] theorem isImm_clear : op.clearOverride.isImm = op.isImm := rfl

@[simp] theorem isSreg_clear : op.clearOverride.isSreg = op.isSreg := rfl

@[simp] theorem size_clear : op.clearOverride.size = op.size := rfl

@[simp] theorem reg_clear : op.clearOverride.reg = op.reg := rfl

@[simp] theorem emitRm_clear (regField : Nat) :
    emitRm op.clearOverride regField = emitRm op regField := rfl

end Clear

/-- The operands of an instruction: one of them is a memory operand with an override. -/
theorem override_or {dst src : Operand} {seg : Nat}
    (h : (dst.override <|> src.override) = some seg) :
    dst.override = some seg ∨ (dst.override = none ∧ src.override = some seg) := by
  cases hd : dst.override with
  | none =>
    rw [hd] at h
    exact .inr ⟨rfl, h⟩
  | some s =>
    rw [hd] at h
    exact .inl h

theorem not_override_of_kind {op : Operand} {seg : Nat}
    (h : op.isReg = true ∨ op.isImm = true ∨ op.isSreg = true) : op.override ≠ some seg := by
  intro ho
  obtain ⟨hr, hi, hs⟩ := isMem_kind (override_some ho).1
  rcases h with h | h | h
  · rw [hr] at h
    cases h
  · rw [hi] at h
    cases h
  · rw [hs] at h
    cases h

/-- The override of the one operand that can be in memory. -/
theorem override_src {dst src : Operand} {seg : Nat}
    (h : (dst.override <|> src.override) = some seg)
    (hd : dst.isReg = true ∨ dst.isImm = true ∨ dst.isSreg = true) : src.override = some seg := by
  rcases override_or h with h | h
  · exact absurd h (not_override_of_kind hd)
  · exact h.2

theorem override_dst {dst src : Operand} {seg : Nat}
    (h : (dst.override <|> src.override) = some seg)
    (hs : src.isReg = true ∨ src.isImm = true ∨ src.isSreg = true) : dst.override = some seg := by
  rcases override_or h with h | h
  · exact h
  · exact absurd h.2 (not_override_of_kind hs)

/-! ## Families -/

section Families

variable {dst src op : Operand} {seg : Nat}

theorem asmAlu_override {aluop : Nat} (h : (dst.override <|> src.override) = some seg)
    (he : (asmAlu aluop dst src).errors = 0) :
    (asmAlu aluop dst src).bytes =
        overrideByte seg :: (asmAlu aluop dst.clearOverride src.clearOverride).bytes ↔
      src.isImm = false := by
  by_cases hi : src.isImm = true
  · have hd := override_dst h (.inr (.inl hi))
    obtain ⟨hreg, -, -⟩ := isMem_kind (override_some hd).1
    have hax : dst.isAx = false := by simp [Operand.isAx, hreg]
    have hal : dst.isAl = false := by simp [Operand.isAl, hreg]
    have hstart : Starts (asmAlu aluop dst src) := by
      rw [asmAlu, if_pos hi, hax, hal, if_neg Bool.false_ne_true, if_neg Bool.false_ne_true]
      split_ifs
      · exact ((starts_emit (by decide)).append _).append _
      · exact ((starts_w dst (by decide) (by decide)).append _).append _
    rw [hi]
    exact iff_of_false (hstart.ne _ _) (by decide)
  · refine iff_of_true ?_ (Bool.eq_false_iff.mpr hi)
    unfold asmAlu at he ⊢
    rw [if_neg hi] at he ⊢
    simp only [isReg_clear, isMem_clear, isImm_clear, emitRm_clear, emitMemOverride_clear]
    rw [if_neg hi]
    by_cases h1 : (dst.isReg && (src.isReg || src.isMem)) = true
    · rw [if_pos h1, if_pos h1]
      have hs := override_src h (.inl (Bool.and_eq_true_iff.mp h1).1)
      simp only [Enc.bytes_append, emitMemOverride_some hs]
      rfl
    · rw [if_neg h1] at he ⊢
      rw [if_neg h1]
      by_cases h2 : ((dst.isReg || dst.isMem) && src.isReg) = true
      · rw [if_pos h2, if_pos h2]
        have hd := override_dst h (.inl (Bool.and_eq_true_iff.mp h2).2)
        simp only [Enc.bytes_append, emitMemOverride_some hd]
        rfl
      · rw [if_neg h2] at he
        exact absurd he encErr_errors

theorem asmMov_override (h : (dst.override <|> src.override) = some seg)
    (he : (asmMov dst src).errors = 0) :
    (asmMov dst src).bytes =
        overrideByte seg :: (asmMov dst.clearOverride src.clearOverride).bytes ↔
      src.isImm = false := by
  by_cases hi : src.isImm = true
  · have hd := override_dst h (.inr (.inl hi))
    have hm := (override_some hd).1
    obtain ⟨hreg, -, hsreg⟩ := isMem_kind hm
    have htype : src.type = .imm := by simpa [Operand.isImm] using hi
    have hdtype : dst.type = .mem := by simpa [Operand.isMem] using hm
    have hstart : Starts (asmMov dst src) := by
      have heq : asmMov dst src =
          emit (0xC6 + dst.w) ++ emitModrm dst 0 ++ emitImm dst.w src.imm := by
        simp [asmMov, Operand.isReg, Operand.isMem, Operand.isImm, Operand.isSreg, htype, hdtype]
      rw [heq]
      exact ((starts_w dst (by decide) (by decide)).append _).append _
    rw [hi]
    exact iff_of_false (hstart.ne _ _) (by decide)
  · refine iff_of_true ?_ (Bool.eq_false_iff.mpr hi)
    have hi' : src.isImm = false := Bool.eq_false_iff.mpr hi
    have hwidth : ∀ (o : Operand) (n : Nat), widthMismatch o.clearOverride n = widthMismatch o n :=
      fun _ _ => rfl
    unfold asmMov at he ⊢
    simp only [isReg_clear, isMem_clear, isImm_clear, isSreg_clear, size_clear, reg_clear,
      emitRm_clear, emitMemOverride_clear, hwidth, hi', Bool.and_false, Bool.false_eq_true,
      if_false] at he ⊢
    split_ifs at he ⊢ with h1 h2 h3 h4 h5 h6 h7 h8
    · exact absurd he encErr_errors
    · have hs := override_src h (.inr (.inr (Bool.and_eq_true_iff.mp h1).1))
      simp only [Enc.bytes_append, emitMemOverride_some hs]
      rfl
    · exact absurd he encErr_errors
    · have hd := override_dst h (.inr (.inr (Bool.and_eq_true_iff.mp h3).1))
      simp only [Enc.bytes_append, emitMemOverride_some hd]
      rfl
    · exact absurd he encErr_errors
    · have hs := override_src h (.inl (Bool.and_eq_true_iff.mp h5).1)
      simp only [Enc.bytes_append, emitMemOverride_some hs]
      rfl
    · exact absurd he encErr_errors
    · have hd := override_dst h (.inl (Bool.and_eq_true_iff.mp h7).2)
      simp only [Enc.bytes_append, emitMemOverride_some hd]
      rfl
    · exact absurd he encErr_errors

theorem asmJmpCall_override {site : Site} {isCall : Bool} (h : op.override = some seg)
    (hl : op.label.isEmpty = true) :
    (asmJmpCall site isCall op).bytes =
      overrideByte seg :: (asmJmpCall site isCall op.clearOverride).bytes := by
  have hm := (override_some h).1
  obtain ⟨-, hi, -⟩ := isMem_kind hm
  have hdirect : ¬(op.isImm || !op.label.isEmpty) = true := by simp [hi, hl]
  have hmem : (op.isReg || op.isMem) = true := by simp [hm]
  rw [asmJmpCall, if_neg hdirect, if_pos hmem, asmJmpCall,
    if_neg (show ¬(op.clearOverride.isImm || !op.clearOverride.label.isEmpty) = true from hdirect),
    if_pos (show (op.clearOverride.isReg || op.clearOverride.isMem) = true from hmem)]
  simp only [Enc.bytes_append, emitMemOverride_some h, emitMemOverride_clear]
  rfl

theorem asmShift_starts {shiftop : Nat} (he : (asmShift shiftop dst src).errors = 0) :
    Starts (asmShift shiftop dst src) := by
  unfold asmShift at he ⊢
  split_ifs at he ⊢
  · exact (starts_w dst (by decide) (by decide)).append _
  · exact (starts_w dst (by decide) (by decide)).append _
  · exact ((starts_w dst (by decide) (by decide)).append _).append _
  · exact absurd he encErr_errors

theorem asmXchg_starts (h : (dst.override <|> src.override) = some seg) :
    Starts (asmXchg dst src) := by
  have h1 : ¬(dst.isAx && src.isReg && src.size == 2) = true := by
    intro hc
    simp only [Bool.and_eq_true, Operand.isAx] at hc
    exact not_override_of_kind (.inl hc.1.2) (override_src h (.inl hc.1.1.1.1))
  have h2 : ¬(src.isAx && dst.isReg && dst.size == 2) = true := by
    intro hc
    simp only [Bool.and_eq_true, Operand.isAx] at hc
    exact not_override_of_kind (.inl hc.1.2) (override_dst h (.inl hc.1.1.1.1))
  rw [asmXchg, if_neg h1, if_neg h2]
  refine Starts.append ?_ _
  split_ifs
  · exact starts_emit (by decide)
  · exact starts_emit (by decide)

theorem asmTest_starts (h : (dst.override <|> src.override) = some seg)
    (he : (asmTest dst src).errors = 0) : Starts (asmTest dst src) := by
  unfold asmTest at he ⊢
  split_ifs at he ⊢ with hi hax hal
  · simp only [Bool.and_eq_true, Operand.isAx] at hax
    exact absurd (override_dst h (.inr (.inl hi))) (not_override_of_kind (.inl hax.1.1))
  · simp only [Bool.and_eq_true, Operand.isAl] at hal
    exact absurd (override_dst h (.inr (.inl hi))) (not_override_of_kind (.inl hal.1.1))
  · exact ((starts_w dst (by decide) (by decide)).append _).append _
  · exact (starts_w dst (by decide) (by decide)).append _
  · exact absurd he encErr_errors

theorem asmLea_starts (he : (asmLea dst src).errors = 0) : Starts (asmLea dst src) := by
  unfold asmLea at he ⊢
  split_ifs at he ⊢
  · exact absurd he encErr_errors
  · exact absurd he encErr_errors
  · exact (starts_emit (by decide)).append _

theorem asmIncDec_starts {incop : Nat} (h : dst.override = some seg) :
    Starts (asmIncDec incop dst) := by
  obtain ⟨hreg, -, -⟩ := isMem_kind (override_some h).1
  rw [asmIncDec, hreg, if_neg (by simp)]
  exact (starts_w dst (by decide) (by decide)).append _

theorem asmPushPop_starts {isPop : Bool} (h : op.override = some seg) :
    Starts (asmPushPop isPop op) := by
  have hm := (override_some h).1
  obtain ⟨hreg, -, hsreg⟩ := isMem_kind hm
  rw [asmPushPop, hreg, hsreg, hm, if_neg (by simp), if_neg (by simp), if_pos rfl]
  refine Starts.append ?_ _
  cases isPop
  · exact starts_emit (by decide)
  · exact starts_emit (by decide)

theorem asmV20Bitop_starts {bitop : Nat} (he : (asmV20Bitop bitop dst src).errors = 0) :
    Starts (asmV20Bitop bitop dst src) := by
  unfold asmV20Bitop at he ⊢
  split_ifs at he ⊢
  · exact ((starts_emit (by decide)).append _).append _
  · exact (((starts_emit (by decide)).append _).append _).append _
  · exact absurd he encErr_errors

theorem starts_table {table : List (String × Nat)} {opcode : Nat}
    (htable : (table.all fun x =>
      !([0x26, 0x2E, 0x36, 0x3E, 0].contains (toByte (x.2 : Int)))) = true)
    (h : (table.any fun x => x.2 == opcode) = true) : Starts (emit (opcode : Int)) := by
  obtain ⟨x, hx, heq⟩ := List.any_eq_true.mp h
  have hall := List.all_eq_true.mp htable x hx
  rw [← beq_iff_eq.mp heq]
  exact starts_emit (by simpa using hall)

end Families

/-- **The override comes first exactly in these forms**: an ALU instruction or `MOV` without an
immediate, and an indirect jump or call. Everywhere else it follows the opcode. -/
theorem override_first_iff (site : Site) (i : Instr) (seg : Nat) (h : i.override = some seg)
    (he : (encode site i).errors = 0) :
    i.PutsOverrideFirst site seg ↔ i.overrideFirst = true := by
  have hnot : Starts (encode site i) → i.overrideFirst = false →
      (i.PutsOverrideFirst site seg ↔ i.overrideFirst = true) := fun hs hf =>
    iff_of_false (hs.ne seg _) (by rw [hf]; decide)
  cases i with
  | alu aluop dst src =>
    rw [Instr.overrideFirst, Bool.not_eq_true']
    exact asmAlu_override h he
  | mov dst src =>
    rw [Instr.overrideFirst, Bool.not_eq_true']
    exact asmMov_override h he
  | jmpCall isCall op =>
    rw [Instr.override] at h
    split_ifs at h with hl
    exact iff_of_true (asmJmpCall_override h hl) rfl
  | shift => exact hnot (asmShift_starts he) rfl
  | xchg => exact hnot (asmXchg_starts h) rfl
  | test => exact hnot (asmTest_starts h he) rfl
  | lea => exact hnot (asmLea_starts he) rfl
  | incDec => exact hnot (asmIncDec_starts h) rfl
  | group3 field dst => exact hnot ((starts_w dst (by decide) (by decide)).append _) rfl
  | pushPop => exact hnot (asmPushPop_starts h) rfl
  | bitop => exact hnot (asmV20Bitop_starts he) rfl
  | loadMem opcode dst src =>
    rw [Instr.override] at h
    split_ifs at h with ht
    exact hnot ((starts_table (by decide) ht).append _) rfl
  | prefixed byte rest =>
    rw [Instr.override] at h
    split_ifs at h with ht
    exact hnot ((starts_table (by decide) ht).append _) rfl
  | _ => cases h

/-- `[es:bx]`. -/
def esBx (size : Nat) : Operand := { type := .mem, size, base := some R_BX, segOvr := some 0 }

theorem call_override_first :
    (Instr.jmpCall true (esBx 0)).PutsOverrideFirst
      { pos := 0, relaxed := false, labels := [] } 0 :=
  (override_first_iff _ _ 0 rfl (by decide)).mpr rfl

set_option maxRecDepth 10000 in
/-- `INC` emits the override between its opcode and the ModR/M byte, where it is read as one. -/
theorem inc_override_second :
    (parseStatement { labels := [], pass2 := true } { ptr := "inc byte [es:bx]".toList }).1 =
        .instr (.incDec 0 (esBx 1)) ∧
      (encode { pos := 0, relaxed := false, labels := [] } (.incDec 0 (esBx 1))).errors = 0 ∧
      ¬(Instr.incDec 0 (esBx 1)).PutsOverrideFirst
        { pos := 0, relaxed := false, labels := [] } 0 := by
  refine ⟨by decide, by decide, fun h => ?_⟩
  have hbytes : (encode { pos := 0, relaxed := false, labels := [] }
      (.incDec 0 (esBx 1))).bytes = [0xFE, 0x26, 0x07] := by decide
  rw [Instr.PutsOverrideFirst, hbytes] at h
  exact absurd (List.cons.inj h).1 (by decide)

end Nib.Asm
