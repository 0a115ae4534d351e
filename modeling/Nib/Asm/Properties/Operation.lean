import Nib.Asm.Spec.Operation
import Nib.Asm.Properties.Decode
import Nib.Asm.Properties.Symbols

/-!
# Instructions are read back

* `ReadsAs` — the bytes of an encoder, without an error, are read as an operation
* `asmAlu_reads`, … — one instruction family
* `operands_faithful_iff` — any line of these families
-/

namespace Nib.Asm

/-! ## Reading -/

/-- The bytes are read as an operation, whatever follows. -/
def ReadsAs (o : Operation) (bytes : List Nat) : Prop :=
  ∀ rest, decode (bytes ++ rest) = some (o, rest)

theorem ReadsAs.faithful_iff {o : Operation} {bytes : List Nat} (h : ReadsAs o bytes) {op : Op}
    {operands : List Operand} : Faithful op operands bytes ↔ op.Means operands o := by
  constructor
  · rintro ⟨o', hmeans, hreads⟩
    have heq := (hreads []).symm.trans (h [])
    exact (Prod.mk.inj (Option.some.inj heq)).1 ▸ hmeans
  · exact fun hmeans => ⟨o, hmeans, h⟩

theorem readsAs_form {opcode : Nat} {f : Form} {o : Operation} {bytes : List Nat}
    (hf : form opcode = some f) (h : ∀ rest, f.read (bytes ++ rest) = some (o, rest)) :
    ReadsAs o (opcode :: bytes) := fun rest => by
  rw [List.cons_append, decode, hf]
  exact h rest

/-- What a register or memory operand is read as. -/
def Operand.rmArg (op : Operand) : RmArg := if op.isReg then .reg op.reg else .mem op.memRef

theorem decodeRm_emitRm {op : Operand} {r : Nat} (h : op.Wf) (hr : r < 8)
    (he : (emitRm op r).errors = 0) (rest : List Nat) :
    decodeRm ((emitRm op r).bytes ++ rest) = some (r, op.rmArg, rest) := by
  unfold emitRm Operand.rmArg at *
  cases hreg : op.isReg with
  | true => exact decodeRm_reg hr h.reg rest
  | false =>
    rw [hreg, if_neg Bool.false_ne_true] at he
    exact decodeRm_mem h hr he rest

/-- Without an override, both ways of emitting an operand are the same. -/
theorem emitModrm_eq {op : Operand} {r : Nat} (ho : op.override = none)
    (he : (emitModrm op r).errors = 0) :
    (op.isReg || op.isMem) = true ∧ (emitModrm op r).bytes = (emitRm op r).bytes ∧
      (emitRm op r).errors = 0 := by
  unfold emitModrm at he ⊢
  unfold emitRm
  cases hreg : op.isReg with
  | true => exact ⟨rfl, rfl, rfl⟩
  | false =>
    rw [hreg, if_neg Bool.false_ne_true] at he
    cases hm : op.isMem with
    | true =>
      have hseg : op.segOvr = none := by rwa [Operand.override, hm, if_pos rfl] at ho
      rw [hm, if_pos rfl, emitSegOverride, hseg] at he
      rw [emitSegOverride, hseg]
      exact ⟨rfl, rfl, (Nat.add_eq_zero_iff.mp he).2⟩
    | false =>
      rw [hm, if_neg Bool.false_ne_true] at he
      exact absurd he encErr_errors

theorem emitMemOverride_none {op : Operand} (ho : op.override = none) :
    emitMemOverride op = {} := by
  unfold emitMemOverride
  split_ifs with hm
  · rw [Operand.override, hm, if_pos rfl] at ho
    rw [emitSegOverride, ho]
  · rfl

/-! ## Immediates -/

/-- The width of an operand by its width bit. -/
def Operand.width (op : Operand) : Nat := op.w + 1

theorem emitImm_reads (w : Nat) (hw : w < 2) (n : Int) (rest : List Nat) :
    (ImmKind.ofWidth (w + 1)).read ((emitImm w n).bytes ++ rest) =
      some ((n % (if w + 1 = 2 then 65536 else 256)).toNat, rest) := by
  obtain rfl | rfl : w = 0 ∨ w = 1 := by omega
  · rfl
  · exact congrArg (fun n => some (n, rest)) (word_toByte n)

theorem emit16_reads (n : Int) (rest : List Nat) :
    ImmKind.word.read ((emit16 n).bytes ++ rest) = some ((n % 65536).toNat, rest) :=
  congrArg (fun n => some (n, rest)) (word_toByte n)

theorem emit_reads_signed {n : Int} (h : fitsByte n = true) (rest : List Nat) :
    ImmKind.signed.read ((emit n).bytes ++ rest) = some ((n % 65536).toNat, rest) :=
  congrArg (fun n => some (n, rest)) (signExtend_toByte h)

/-! ## Forms -/

section Forms

variable {opcode w r : Nat} {o : Op} {op : Operand} {bytes : List Nat}

theorem reads_rmReg (hf : form opcode = some (.rmReg o w)) (h : op.Wf) (hr : r < 8)
    (he : (emitRm op r).errors = 0) :
    ReadsAs { op := o, width := w, args := [op.rmArg.arg, .reg r] }
      (opcode :: (emitRm op r).bytes) := by
  refine readsAs_form hf fun rest => ?_
  simp only [Form.read, decodeRm_emitRm h hr he rest]
  rfl

theorem reads_regRm (hf : form opcode = some (.regRm o w)) (h : op.Wf) (hr : r < 8)
    (he : (emitRm op r).errors = 0) :
    ReadsAs { op := o, width := w, args := [.reg r, op.rmArg.arg] }
      (opcode :: (emitRm op r).bytes) := by
  refine readsAs_form hf fun rest => ?_
  simp only [Form.read, decodeRm_emitRm h hr he rest]
  rfl

theorem reads_rmSreg (hf : form opcode = some .rmSreg) (h : op.Wf) (hr : r < 8)
    (he : (emitRm op r).errors = 0) :
    ReadsAs { op := .mov, width := 2, args := [op.rmArg.arg, .sreg r] }
      (opcode :: (emitRm op r).bytes) := by
  refine readsAs_form hf fun rest => ?_
  simp only [Form.read, decodeRm_emitRm h hr he rest]
  rfl

theorem reads_sregRm (hf : form opcode = some .sregRm) (h : op.Wf) (hr : r < 8)
    (he : (emitRm op r).errors = 0) :
    ReadsAs { op := .mov, width := 2, args := [.sreg r, op.rmArg.arg] }
      (opcode :: (emitRm op r).bytes) := by
  refine readsAs_form hf fun rest => ?_
  simp only [Form.read, decodeRm_emitRm h hr he rest]
  rfl

theorem reads_fixed {args : List Arg} (hf : form opcode = some (.fixed o w args)) :
    ReadsAs { op := o, width := w, args } [opcode] :=
  readsAs_form hf fun _ => rfl

theorem reads_fixedImm {args : List Arg} {kind : ImmKind} {n : Nat}
    (hf : form opcode = some (.fixedImm o w args kind))
    (hk : ∀ rest, kind.read (bytes ++ rest) = some (n, rest)) :
    ReadsAs { op := o, width := w, args := args ++ [.imm n] } (opcode :: bytes) := by
  refine readsAs_form hf fun rest => ?_
  simp only [Form.read, hk rest]
  rfl

theorem reads_rm {ops : List (Option Op)} {args : List Arg}
    (hf : form opcode = some (.rm ops w args)) (hop : ops.getD r none = some o) (h : op.Wf)
    (hr : r < 8) (he : (emitRm op r).errors = 0) :
    ReadsAs { op := o, width := w, args := op.rmArg.arg :: args }
      (opcode :: (emitRm op r).bytes) := by
  refine readsAs_form hf fun rest => ?_
  simp only [Form.read, decodeRm_emitRm h hr he rest, Option.bind_eq_bind, Option.bind_some, hop]

theorem reads_rmImm {ops : List (Option Op)} {kind : ImmKind} {n : Nat}
    (hf : form opcode = some (.rmImm ops w kind)) (hop : ops.getD r none = some o) (h : op.Wf)
    (hr : r < 8) (he : (emitRm op r).errors = 0)
    (hk : ∀ rest, kind.read (bytes ++ rest) = some (n, rest)) :
    ReadsAs { op := o, width := w, args := [op.rmArg.arg, .imm n] }
      (opcode :: ((emitRm op r).bytes ++ bytes)) := by
  refine readsAs_form hf fun rest => ?_
  rw [List.append_assoc]
  simp only [Form.read, decodeRm_emitRm h hr he (bytes ++ rest), Option.bind_eq_bind,
    Option.bind_some, hop, hk rest]

end Forms

/-! ## Operands of an operation -/

section Args

variable {op : Operand} {w : Nat}

theorem isReg_kind (h : op.isReg = true) :
    op.isMem = false ∧ op.isImm = false ∧ op.isSreg = false := by
  have htype : op.type = .reg := by simpa [Operand.isReg] using h
  simp [Operand.isMem, Operand.isImm, Operand.isSreg, htype]

theorem isImm_kind (h : op.isImm = true) :
    op.isReg = false ∧ op.isMem = false ∧ op.isSreg = false := by
  have htype : op.type = .imm := by simpa [Operand.isImm] using h
  simp [Operand.isMem, Operand.isReg, Operand.isSreg, htype]

theorem isSreg_kind (h : op.isSreg = true) :
    op.isReg = false ∧ op.isMem = false ∧ op.isImm = false := by
  have htype : op.type = .sreg := by simpa [Operand.isSreg] using h
  simp [Operand.isMem, Operand.isReg, Operand.isImm, htype]

theorem arg_reg (h : op.isReg = true) :
    op.arg w = if op.size = w then some (.reg op.reg) else none := by
  have htype : op.type = .reg := by simpa [Operand.isReg] using h
  rw [Operand.arg, htype]

theorem arg_mem (h : op.isMem = true) : op.arg w = some (.mem op.memRef) := by
  have htype : op.type = .mem := by simpa [Operand.isMem] using h
  rw [Operand.arg, htype]

theorem arg_imm (h : op.isImm = true) :
    op.arg w = some (.imm (op.imm % (if w = 2 then 65536 else 256)).toNat) := by
  have htype : op.type = .imm := by simpa [Operand.isImm] using h
  rw [Operand.arg, htype]

theorem arg_sreg (h : op.isSreg = true) :
    op.arg w = if w = 2 then some (.sreg op.reg) else none := by
  have htype : op.type = .sreg := by simpa [Operand.isSreg] using h
  rw [Operand.arg, htype]

/-- The size of a register is its width. -/
theorem size_width (h : op.Wf) (hr : op.isReg = true) : op.size = op.width := by
  have hne := h.regSize (by simpa [Operand.isReg] using hr)
  have hle := h.size
  unfold Operand.width Operand.w
  split_ifs <;> omega

/-- A register or memory operand is that of its width. -/
theorem arg_width (h : op.Wf) (hrm : (op.isReg || op.isMem) = true) :
    op.arg op.width = some op.rmArg.arg := by
  unfold Operand.rmArg
  cases hr : op.isReg with
  | true => rw [arg_reg hr, if_pos (size_width h hr)]; rfl
  | false =>
    rw [hr, Bool.false_or] at hrm
    rw [arg_mem hrm]
    rfl

/-- A register or memory operand of another width is not that of a register. -/
theorem arg_rm (hrm : (op.isReg || op.isMem) = true) :
    op.arg w = some op.rmArg.arg ↔ (op.isReg = true → op.size = w) := by
  unfold Operand.rmArg
  cases hr : op.isReg with
  | true =>
    rw [arg_reg hr]
    simp [RmArg.arg]
  | false =>
    rw [hr, Bool.false_or] at hrm
    simp [arg_mem hrm, RmArg.arg]

theorem sized_width (h : op.Wf) :
    (!op.isMem || op.size == 0 || op.size == op.width) = true := by
  have hle := h.size
  unfold Operand.width Operand.w
  obtain h0 | h1 | h2 : op.size = 0 ∨ op.size = 1 ∨ op.size = 2 := by omega
  · simp [h0]
  · simp [h1]
  · simp [h2]

end Args

/-- The meaning of an operation on two operands. -/
theorem means_two {op : Op} {w : Nat} {dst src : Operand} {a b : Arg} (hs : op.isShift = false)
    (hi : op ≠ .imul) (hx : op ≠ .xchg) :
    op.Means [dst, src] { op, width := w, args := [a, b] } ↔
      op.sized w [dst, src] = true ∧ dst.arg w = some a ∧ src.arg w = some b := by
  constructor
  · rintro ⟨-, hsized, as, hargs, has⟩
    obtain rfl := has.resolve_right fun h => hx h.1
    refine ⟨hsized, ?_⟩
    simp only [Op.args, hs, hi, Bool.false_eq_true, if_false, Option.bind_eq_bind,
      Option.bind_eq_some_iff, Option.some.injEq, List.cons.injEq, and_true] at hargs
    obtain ⟨a', ha, b', hb, rfl, rfl⟩ := hargs
    exact ⟨ha, hb⟩
  · rintro ⟨hsized, ha, hb⟩
    refine ⟨rfl, hsized, [a, b], ?_, .inl rfl⟩
    simp [Op.args, hs, hi, ha, hb]

/-! ## ALU operations -/

theorem form_alu {k w : Nat} {o : Op} (hk : k < 8) (ho : aluOps.getD k none = some o)
    (hw : w < 2) :
    form (toByte (k * 8 + 5 : Int)) = some (.fixedImm o 2 [.reg 0] .word) ∧
    form (toByte (k * 8 + 4 : Int)) = some (.fixedImm o 1 [.reg 0] .byte) ∧
    form (toByte (k * 8 + 2 + w : Int)) = some (.regRm o (w + 1)) ∧
    form (toByte (k * 8 + w : Int)) = some (.rmReg o (w + 1)) := by
  have hall : ∀ k : Nat, k < 8 → ∀ w : Nat, w < 2 → ∀ o ∈ aluOps.getD k none,
      form (toByte (k * 8 + 5 : Int)) = some (.fixedImm o 2 [.reg 0] .word) ∧
      form (toByte (k * 8 + 4 : Int)) = some (.fixedImm o 1 [.reg 0] .byte) ∧
      form (toByte (k * 8 + 2 + w : Int)) = some (.regRm o (w + 1)) ∧
      form (toByte (k * 8 + w : Int)) = some (.rmReg o (w + 1)) := by decide
  exact hall k hk w hw o ho

theorem alu_op {k : Nat} {o : Op} (hk : k < 8) (ho : aluOps.getD k none = some o) :
    o.isShift = false ∧ o ≠ .imul ∧ o ≠ .xchg := by
  have hall : ∀ k < 8, ∀ o ∈ aluOps.getD k none, o.isShift = false ∧ o ≠ .imul ∧ o ≠ .xchg := by
    decide
  exact hall k hk o ho

theorem w_lt (op : Operand) : op.w < 2 := by
  unfold Operand.w
  split_ifs <;> decide

section Families

variable {dst src op : Operand}

theorem isAx_reg (h : dst.isAx = true) : dst.isReg = true ∧ dst.reg = 0 ∧ dst.size = 2 := by
  simpa [Operand.isAx, and_assoc] using h

theorem isAl_reg (h : dst.isAl = true) (hd : dst.Wf) :
    dst.isReg = true ∧ dst.reg = 0 ∧ dst.size = 1 := by
  obtain ⟨⟨hr, h0⟩, h2⟩ : (dst.isReg = true ∧ dst.reg = 0) ∧ ¬dst.size = 2 := by
    simpa [Operand.isAl] using h
  have hne := hd.regSize (by simpa [Operand.isReg] using hr)
  have hle := hd.size
  exact ⟨hr, h0, by omega⟩

/-- An immediate and the accumulator, or another operand. -/
theorem means_imm {o : Op} (hs : o.isShift = false) (hi : o ≠ .imul) (hx : o ≠ .xchg) (hd : dst.Wf)
    (hrm : (dst.isReg || dst.isMem) = true) (himm : src.isImm = true) :
    o.Means [dst, src]
      { op := o, width := dst.width, args := [dst.rmArg.arg,
          .imm (src.imm % (if dst.width = 2 then 65536 else 256)).toNat] } := by
  refine (means_two hs hi hx).mpr ⟨?_, arg_width hd hrm, arg_imm himm⟩
  have hsz := sized_width hd
  obtain ⟨-, hm, -⟩ := isImm_kind himm
  rw [Op.sized, Op.sizing, hs, if_neg Bool.false_ne_true]
  simp only [List.all_cons, List.all_nil, hsz, hm, Bool.not_false, Bool.true_or, Bool.and_true,
    Bool.or_true]

/-- A register gives the width. -/
theorem sized_reg {o : Op} {w : Nat} (hs : o.isShift = false)
    (h : (dst.isReg || dst.isSreg || src.isReg || src.isSreg) = true) :
    o.sized w [dst, src] = true := by
  rw [Op.sized, Op.sizing, hs, if_neg Bool.false_ne_true]
  simp only [List.any_cons, List.any_nil, Bool.or_false]
  rw [← Bool.or_assoc, h, Bool.true_or]

theorem rmArg_reg (h : dst.isReg = true) : dst.rmArg.arg = .reg dst.reg := by
  rw [Operand.rmArg, if_pos h]
  rfl

theorem rmArg_mem (h : dst.isMem = true) : dst.rmArg.arg = .mem dst.memRef := by
  rw [Operand.rmArg, (isMem_kind h).1, if_neg Bool.false_ne_true]
  rfl

/-- An ALU operation with an immediate is read in the width of its operand. -/
theorem asmAlu_imm_reads {k : Nat} {o : Op} (hk : k < 8) (ho : aluOps.getD k none = some o)
    (hd : dst.Wf) (hdo : dst.override = none) (hi : src.isImm = true)
    (he : (asmAlu k dst src).errors = 0) : (dst.isReg || dst.isMem) = true ∧
      ReadsAs { op := o, width := dst.width, args := [dst.rmArg.arg,
        .imm (src.imm % (if dst.width = 2 then 65536 else 256)).toNat] }
        (asmAlu k dst src).bytes := by
  unfold asmAlu at he ⊢
  rw [if_pos hi] at he ⊢
  by_cases hax : dst.isAx = true
  · rw [if_pos hax]
    obtain ⟨hr, h0, h2⟩ := isAx_reg hax
    have hw : dst.width = 2 := by rw [← size_width hd hr, h2]
    rw [hr, hw, rmArg_reg hr, h0]
    exact ⟨rfl, reads_fixedImm (form_alu hk ho (w_lt dst)).1 (emit16_reads src.imm)⟩
  rw [if_neg hax] at he ⊢
  by_cases hal : dst.isAl = true
  · rw [if_pos hal]
    obtain ⟨hr, h0, h1⟩ := isAl_reg hal hd
    have hw : dst.width = 1 := by rw [← size_width hd hr, h1]
    rw [hr, hw, rmArg_reg hr, h0]
    exact ⟨rfl, reads_fixedImm (form_alu hk ho (w_lt dst)).2.1
      (emitImm_reads 0 (by decide) src.imm)⟩
  rw [if_neg hal] at he ⊢
  by_cases hshort : aluShortImm dst src = true
  · rw [if_pos hshort] at he ⊢
    simp only [Enc.errors_append] at he
    obtain ⟨hrm, hbytes, he'⟩ := emitModrm_eq hdo (show (emitModrm dst k).errors = 0 by omega)
    obtain ⟨hw1, hfits⟩ : dst.w = 1 ∧ fitsByte src.imm = true := by
      simpa [aluShortImm] using hshort
    have hw : dst.width = 2 := by rw [Operand.width, hw1]
    rw [hw]
    simp only [Enc.bytes_append, hbytes]
    have hform : form (toByte 0x83) = some (.rmImm aluOps 2 .signed) := by decide
    exact ⟨hrm, reads_rmImm hform ho hd hk he' (emit_reads_signed hfits)⟩
  · rw [if_neg hshort] at he ⊢
    simp only [Enc.errors_append] at he
    obtain ⟨hrm, hbytes, he'⟩ := emitModrm_eq hdo (show (emitModrm dst k).errors = 0 by omega)
    have hform : ∀ w : Nat, w < 2 → form (toByte (0x80 + w : Int)) =
        some (.rmImm aluOps (w + 1) (.ofWidth (w + 1))) := by decide
    simp only [Enc.bytes_append, hbytes]
    exact ⟨hrm, reads_rmImm (hform dst.w (w_lt dst)) ho hd hk he'
      (emitImm_reads dst.w (w_lt dst) src.imm)⟩

theorem asmAlu_faithful {k : Nat} {o : Op} (hk : k < 8) (ho : aluOps.getD k none = some o)
    (hd : dst.Wf) (hs : src.Wf) (hdo : dst.override = none) (hso : src.override = none)
    (he : (asmAlu k dst src).errors = 0) : Faithful o [dst, src] (asmAlu k dst src).bytes ↔
      (!(dst.isReg && src.isReg) || dst.size == src.size) = true := by
  obtain ⟨hshift, himul, hxchg⟩ := alu_op hk ho
  by_cases hi : src.isImm = true
  · have hsr : src.isReg = false := (isImm_kind hi).1
    rw [hsr, Bool.and_false, Bool.not_false, Bool.true_or]
    refine iff_of_true ?_ rfl
    obtain ⟨hrm, hreads⟩ := asmAlu_imm_reads hk ho hd hdo hi he
    exact hreads.faithful_iff.mpr (means_imm hshift himul hxchg hd hrm hi)
  · unfold asmAlu at he ⊢
    rw [if_neg hi] at he ⊢
    split_ifs at he ⊢ with h1 h2
    · obtain ⟨hr, hrm⟩ := Bool.and_eq_true_iff.mp h1
      rw [emitMemOverride_none hso] at he ⊢
      simp only [Enc.errors_append] at he
      have he' : (emitRm src dst.reg).errors = 0 := by omega
      have hreads := reads_regRm (form_alu hk ho (w_lt dst)).2.2.1 hs hd.reg he'
      refine hreads.faithful_iff.trans ((means_two hshift himul hxchg).trans ?_)
      have hsize : dst.size = dst.w + 1 := size_width hd hr
      rw [arg_rm hrm, arg_reg hr, if_pos hsize, ← hsize, hr, Bool.true_and]
      refine ⟨fun h => ?_, fun h => ⟨sized_reg hshift (by simp [hr]), rfl, fun hsr => ?_⟩⟩
      · cases hsr : src.isReg with
        | true => exact beq_iff_eq.mpr (h.2.2 hsr).symm
        | false => rfl
      · rw [hsr, Bool.not_true, Bool.false_or, beq_iff_eq] at h
        exact h.symm
    · obtain ⟨hrm, hsr⟩ := Bool.and_eq_true_iff.mp h2
      -- the source is a register, so the destination is in memory
      have hdr : dst.isReg = false := by
        rw [hsr, Bool.true_or, Bool.and_true] at h1
        exact Bool.eq_false_iff.mpr h1
      rw [emitMemOverride_none hdo] at he ⊢
      simp only [Enc.errors_append] at he
      have he' : (emitRm dst src.reg).errors = 0 := by omega
      have hreads := reads_rmReg (form_alu hk ho (w_lt src)).2.2.2 hd hs.reg he'
      have hsize : src.size = src.w + 1 := size_width hs hsr
      rw [hdr, Bool.false_and]
      refine iff_of_true (hreads.faithful_iff.mpr ((means_two hshift himul hxchg).mpr
        ⟨sized_reg hshift (by simp [hsr]), (arg_rm hrm).mpr fun h => ?_, ?_⟩)) rfl
      · rw [hdr] at h
        cases h
      · rw [arg_reg hsr, if_pos hsize]
    · exact absurd he encErr_errors

/-! ## Moves -/

theorem mov_op : Op.mov.isShift = false ∧ Op.mov ≠ .imul ∧ Op.mov ≠ .xchg := by decide

theorem widthMismatch_reg {n : Nat} (h : ¬widthMismatch op n = true) (hr : op.isReg = true) :
    op.size = n := by
  by_contra hne
  exact h (by simp [widthMismatch, hr, hne])

theorem asmMov_means (hd : dst.Wf) (hs : src.Wf) (hdo : dst.override = none)
    (hso : src.override = none) (he : (asmMov dst src).errors = 0) :
    ∃ o, ReadsAs o (asmMov dst src).bytes ∧ Op.mov.Means [dst, src] o := by
  obtain ⟨hshift, himul, hxchg⟩ := mov_op
  have htwo {w : Nat} {a b : Arg} := @means_two .mov w dst src a b hshift himul hxchg
  unfold asmMov at he ⊢
  split_ifs at he ⊢ with h1 h2 h3 h4 h5 h6 h7 h8 h9 h10
  · exact absurd he encErr_errors
  · obtain ⟨hsreg, hrm⟩ := Bool.and_eq_true_iff.mp h1
    rw [emitMemOverride_none hso] at he ⊢
    simp only [Enc.errors_append] at he
    have he' : (emitRm src dst.reg).errors = 0 := by omega
    refine ⟨_, reads_sregRm (by decide) hs hd.reg he', htwo.mpr
      ⟨sized_reg hshift (by simp [hsreg]), by rw [arg_sreg hsreg, if_pos rfl], (arg_rm hrm).mpr ?_⟩⟩
    intro hr
    by_contra hne
    exact h2 (by simp [hr, hne])
  · exact absurd he encErr_errors
  · obtain ⟨hsreg, hrm⟩ := Bool.and_eq_true_iff.mp h3
    rw [emitMemOverride_none hdo] at he ⊢
    simp only [Enc.errors_append] at he
    have he' : (emitRm dst src.reg).errors = 0 := by omega
    refine ⟨_, reads_rmSreg (by decide) hd hs.reg he', htwo.mpr
      ⟨sized_reg hshift (by simp [hsreg]), (arg_rm hrm).mpr ?_, by rw [arg_sreg hsreg, if_pos rfl]⟩⟩
    intro hr
    by_contra hne
    exact h4 (by simp [hr, hne])
  · obtain ⟨hr, hi⟩ := Bool.and_eq_true_iff.mp h5
    have hform : ∀ w : Nat, w < 2 → ∀ r : Nat, r < 8 → form (toByte (0xB0 + w * 8 + r : Int)) =
        some (.fixedImm .mov (w + 1) [.reg r] (.ofWidth (w + 1))) := by decide
    have hmeans := means_imm hshift himul hxchg hd (by rw [hr]; rfl) hi
    rw [rmArg_reg hr] at hmeans
    exact ⟨_, reads_fixedImm (hform dst.w (w_lt dst) dst.reg hd.reg)
      (emitImm_reads dst.w (w_lt dst) src.imm), hmeans⟩
  · obtain ⟨hm, hi⟩ := Bool.and_eq_true_iff.mp h6
    simp only [Enc.errors_append] at he
    obtain ⟨hrm, hbytes, he'⟩ := emitModrm_eq hdo (show (emitModrm dst 0).errors = 0 by omega)
    have hform : ∀ w : Nat, w < 2 → form (toByte (0xC6 + w : Int)) =
        some (.rmImm [some .mov] (w + 1) (.ofWidth (w + 1))) := by decide
    simp only [Enc.bytes_append, hbytes]
    exact ⟨_, reads_rmImm (hform dst.w (w_lt dst)) rfl hd (by decide) he'
      (emitImm_reads dst.w (w_lt dst) src.imm), means_imm hshift himul hxchg hd hrm hi⟩
  · exact absurd he encErr_errors
  · obtain ⟨hr, hrm⟩ := Bool.and_eq_true_iff.mp h7
    have hsize : dst.size = dst.w + 1 := size_width hd hr
    rw [emitMemOverride_none hso] at he ⊢
    simp only [Enc.errors_append] at he
    have he' : (emitRm src dst.reg).errors = 0 := by omega
    have hform : ∀ w : Nat, w < 2 → form (toByte (0x8A + w : Int)) =
        some (.regRm .mov (w + 1)) := by decide
    refine ⟨_, reads_regRm (hform dst.w (w_lt dst)) hs hd.reg he', htwo.mpr
      ⟨sized_reg hshift (by simp [hr]), by rw [arg_reg hr, if_pos hsize], (arg_rm hrm).mpr ?_⟩⟩
    intro hsr
    rw [← hsize]
    exact widthMismatch_reg h8 hsr
  · exact absurd he encErr_errors
  · obtain ⟨hm, hr⟩ := Bool.and_eq_true_iff.mp h9
    have hsize : src.size = src.w + 1 := size_width hs hr
    rw [emitMemOverride_none hdo] at he ⊢
    simp only [Enc.errors_append] at he
    have he' : (emitRm dst src.reg).errors = 0 := by omega
    have hform : ∀ w : Nat, w < 2 → form (toByte (0x88 + w : Int)) =
        some (.rmReg .mov (w + 1)) := by decide
    refine ⟨_, reads_rmReg (hform src.w (w_lt src)) hd hs.reg he', htwo.mpr
      ⟨sized_reg hshift (by simp [hr]), (arg_rm (by simp [hm])).mpr fun hdr => ?_,
        by rw [arg_reg hr, if_pos hsize]⟩⟩
    rw [(isMem_kind hm).1] at hdr
    cases hdr
  · exact absurd he encErr_errors

/-- The same operand with a size, where it had none. -/
def Resized (a b : Operand) : Prop := ∃ n, b = { a with size := n } ∧ (a.size ≠ 0 → n = a.size)

theorem inferMovSizes_resized (dst src : Operand) :
    Resized dst (inferMovSizes dst src).1 ∧ Resized src (inferMovSizes dst src).2 := by
  unfold inferMovSizes Resized
  obtain ⟨_, _, ds⟩ := dst
  obtain ⟨_, _, ss⟩ := src
  cases ds <;> cases ss <;> simp

theorem Resized.arg {a b : Operand} (h : Resized a b) (ha : a.Wf) (w : Nat) :
    b.arg w = a.arg w := by
  obtain ⟨n, rfl, hn⟩ := h
  unfold Operand.arg
  cases htype : a.type with
  | reg => simp only [hn (ha.regSize htype)]
  | _ => rfl

theorem Resized.sized {a b : Operand} (h : Resized a b) {w : Nat}
    (hb : (!b.isMem || b.size == 0 || b.size == w) = true) :
    (!a.isMem || a.size == 0 || a.size == w) = true := by
  obtain ⟨n, rfl, hn⟩ := h
  by_cases h0 : a.size = 0
  · simp [h0]
  · rw [hn h0] at hb
    exact hb

theorem Resized.kind {a b : Operand} (h : Resized a b) :
    b.isReg = a.isReg ∧ b.isSreg = a.isSreg := by
  obtain ⟨n, rfl, -⟩ := h
  exact ⟨rfl, rfl⟩

theorem Resized.override {a b : Operand} (h : Resized a b) : b.override = a.override := by
  obtain ⟨n, rfl, -⟩ := h
  rfl

theorem Resized.means {dst' src' : Operand} (hd : Resized dst dst') (hs : Resized src src')
    (hdwf : dst.Wf) (hswf : src.Wf) {o : Operation} (h : Op.mov.Means [dst', src'] o) :
    Op.mov.Means [dst, src] o := by
  obtain ⟨hop, hsized, as, hargs, has⟩ := h
  refine ⟨hop, ?_, as, ?_, has⟩
  · rw [Op.sized, Op.sizing, mov_op.1, if_neg Bool.false_ne_true, Bool.or_eq_true] at hsized ⊢
    simp only [List.any_cons, List.any_nil, List.all_cons, List.all_nil, Bool.and_true,
      Bool.and_eq_true] at hsized ⊢
    refine hsized.imp (fun h => ?_) fun h => ⟨hd.sized h.1, hs.sized h.2⟩
    rw [hd.kind.1, hd.kind.2, hs.kind.1, hs.kind.2] at h
    exact h
  · simpa only [Op.args, mov_op.1, Bool.false_eq_true, if_false, hd.arg hdwf, hs.arg hswf]
      using hargs

/-- **`MOV` is always encoded as it stands.** -/
theorem mov_faithful (hd : dst.Wf) (hs : src.Wf) (hdo : dst.override = none)
    (hso : src.override = none)
    (he : (asmMov (inferMovSizes dst src).1 (inferMovSizes dst src).2).errors = 0) :
    Faithful .mov [dst, src]
      (asmMov (inferMovSizes dst src).1 (inferMovSizes dst src).2).bytes := by
  obtain ⟨hd', hs'⟩ := inferMovSizes_wf hd hs
  obtain ⟨hrd, hrs⟩ := inferMovSizes_resized dst src
  obtain ⟨o, hreads, hmeans⟩ := asmMov_means hd' hs' (hrd.override.trans hdo)
    (hrs.override.trans hso) he
  exact ⟨o, hrd.means hrs hd hs hmeans, hreads⟩

/-! ## `TEST` -/

theorem test_op : Op.test.isShift = false ∧ Op.test ≠ .imul ∧ Op.test ≠ .xchg := by decide

/-- The form of `TEST` and `IMUL` with one operand. -/
theorem reads_unary_test {opcode w n : Nat} {bytes : List Nat}
    (hf : form opcode = some (.unary w)) (h : op.Wf) (he : (emitRm op 0).errors = 0)
    (hk : ∀ rest, (ImmKind.ofWidth w).read (bytes ++ rest) = some (n, rest)) :
    ReadsAs { op := .test, width := w, args := [op.rmArg.arg, .imm n] }
      (opcode :: ((emitRm op 0).bytes ++ bytes)) := by
  refine readsAs_form hf fun rest => ?_
  rw [List.append_assoc]
  simp only [Form.read, decodeRm_emitRm h (by decide) he (bytes ++ rest), Option.bind_eq_bind,
    Option.bind_some, if_true, hk rest]

theorem reads_unary_imul {opcode w : Nat} (hf : form opcode = some (.unary w)) (h : op.Wf)
    (he : (emitRm op 5).errors = 0) :
    ReadsAs { op := .imul, width := w, args := [op.rmArg.arg] }
      (opcode :: (emitRm op 5).bytes) := by
  refine readsAs_form hf fun rest => ?_
  simp only [Form.read, decodeRm_emitRm h (show 5 < 8 by decide) he rest, Option.bind_eq_bind,
    Option.bind_some, Nat.succ_ne_zero, if_false, if_true]

theorem form_unary : ∀ w : Nat, w < 2 → form (toByte (0xF6 + w : Int)) = some (.unary (w + 1)) := by
  decide

theorem asmTest_faithful (hd : dst.Wf) (hs : src.Wf) (hdo : dst.override = none)
    (he : (asmTest dst src).errors = 0) :
    Faithful .test [dst, src] (asmTest dst src).bytes ↔
      (!src.isReg || dst.w == src.w) = true := by
  obtain ⟨hshift, himul, hxchg⟩ := test_op
  unfold asmTest at he ⊢
  split_ifs at he ⊢ with hi hax hal hsr
  · have hsr : src.isReg = false := (isImm_kind hi).1
    obtain ⟨hr, h0, h2⟩ := isAx_reg hax
    have hw : dst.width = 2 := by rw [← size_width hd hr, h2]
    have hmeans := means_imm hshift himul hxchg hd (by rw [hr]; rfl) hi
    rw [hw, rmArg_reg hr, h0] at hmeans
    rw [hsr]
    have hform : form (toByte 0xA9) = some (.fixedImm .test 2 [.reg 0] .word) := by decide
    exact iff_of_true ((reads_fixedImm hform (emit16_reads src.imm)).faithful_iff.mpr hmeans) rfl
  · have hsr : src.isReg = false := (isImm_kind hi).1
    obtain ⟨hr, h0, h1⟩ := isAl_reg hal hd
    have hw : dst.width = 1 := by rw [← size_width hd hr, h1]
    have hmeans := means_imm hshift himul hxchg hd (by rw [hr]; rfl) hi
    rw [hw, rmArg_reg hr, h0] at hmeans
    rw [hsr]
    have hform : form (toByte 0xA8) = some (.fixedImm .test 1 [.reg 0] .byte) := by decide
    exact iff_of_true ((reads_fixedImm hform
      (emitImm_reads 0 (by decide) src.imm)).faithful_iff.mpr hmeans) rfl
  · have hsr : src.isReg = false := (isImm_kind hi).1
    simp only [Enc.errors_append] at he
    obtain ⟨hrm, hbytes, he'⟩ := emitModrm_eq hdo (show (emitModrm dst 0).errors = 0 by omega)
    simp only [Enc.bytes_append, hbytes]
    rw [hsr]
    exact iff_of_true ((reads_unary_test (form_unary dst.w (w_lt dst)) hd he'
      (emitImm_reads dst.w (w_lt dst) src.imm)).faithful_iff.mpr
        (means_imm hshift himul hxchg hd hrm hi)) rfl
  · simp only [Enc.errors_append] at he
    obtain ⟨hrm, hbytes, he'⟩ :=
      emitModrm_eq hdo (show (emitModrm dst src.reg).errors = 0 by omega)
    have hform : ∀ w : Nat, w < 2 → form (toByte (0x84 + w : Int)) =
        some (.rmReg .test (w + 1)) := by decide
    have hsize : src.size = src.w + 1 := size_width hs hsr
    simp only [Enc.bytes_append, hbytes]
    refine (reads_rmReg (hform dst.w (w_lt dst)) hd hs.reg he').faithful_iff.trans
      ((means_two hshift himul hxchg).trans ?_)
    rw [show dst.w + 1 = dst.width from rfl, arg_width hd hrm, arg_reg hsr, hsize, hsr]
    simp only [Operand.width, Nat.add_right_cancel_iff, Bool.not_true, Bool.false_or, beq_iff_eq]
    constructor
    · rintro ⟨-, -, h⟩
      by_contra hne
      rw [if_neg fun h => hne h.symm] at h
      cases h
    · intro h
      exact ⟨sized_reg hshift (by simp [hsr]), trivial, if_pos h.symm⟩
  · exact absurd he encErr_errors

/-! ## `XCHG` -/

theorem means_xchg {w : Nat} {a b : Arg} :
    Op.xchg.Means [dst, src] { op := .xchg, width := w, args := [a, b] } ↔
      Op.xchg.sized w [dst, src] = true ∧ ((dst.arg w = some a ∧ src.arg w = some b) ∨
        (dst.arg w = some b ∧ src.arg w = some a)) := by
  have hargs : ∀ as, Op.xchg.args w [dst, src] = some as ↔
      ∃ c, dst.arg w = some c ∧ ∃ d, src.arg w = some d ∧ [c, d] = as := fun as => by
    simp [Op.args, Op.isShift, Option.bind_eq_some_iff]
  constructor
  · rintro ⟨-, hsized, as, has, hor⟩
    obtain ⟨c, hc, d, hd, rfl⟩ := (hargs as).mp has
    refine ⟨hsized, ?_⟩
    obtain heq | ⟨-, heq⟩ := hor
    · cases heq
      exact .inl ⟨hc, hd⟩
    · cases heq
      exact .inr ⟨hc, hd⟩
  · rintro ⟨hsized, ⟨ha, hb⟩ | ⟨hb, ha⟩⟩
    · exact ⟨rfl, hsized, [a, b], (hargs _).mpr ⟨a, ha, b, hb, rfl⟩, .inl rfl⟩
    · exact ⟨rfl, hsized, [b, a], (hargs _).mpr ⟨b, hb, a, ha, rfl⟩, .inr ⟨rfl, rfl⟩⟩

/-- Only a register is an argument that is one. -/
theorem arg_eq_reg {w n : Nat} (h : op.arg w = some (.reg n)) :
    op.isReg = true ∧ op.size = w ∧ op.reg = n := by
  unfold Operand.arg at h
  split at h
  · next htype =>
    split_ifs at h with hsize
    exact ⟨by rw [Operand.isReg, htype]; rfl, hsize, Arg.reg.inj (Option.some.inj h)⟩
  · split_ifs at h
    cases h
  · cases h
  · cases h
  · cases h

theorem xchg_accumulator {r : Nat} (hr : r < 8) :
    ReadsAs { op := .xchg, width := 2, args := [.reg 0, .reg r] } [toByte (0x90 + r : Int)] := by
  have hform : ∀ r : Nat, r < 8 → form (toByte (0x90 + r : Int)) =
      some (.fixed .xchg 2 [.reg 0, .reg r]) := by decide
  exact reads_fixed (hform r hr)

/-- The width bit of `XCHG` comes from either operand. -/
theorem form_xchg : form (toByte (0x86 + if dst.size = 2 ∨ src.size = 2 then 1 else 0)) =
    some (.rmReg .xchg (if dst.size = 2 ∨ src.size = 2 then 2 else 1)) := by
  split_ifs <;> decide

theorem asmXchg_faithful (hd : dst.Wf) (hs : src.Wf) (hdo : dst.override = none)
    (hso : src.override = none) (he : (asmXchg dst src).errors = 0) :
    Faithful .xchg [dst, src] (asmXchg dst src).bytes ↔
      ((dst.isReg && src.isReg && dst.size == src.size) ||
        (dst.isReg && src.isMem && (src.size != 2 || dst.size == 2)) ||
        (dst.isMem && src.isReg && (dst.size != 2 || src.size == 2))) = true := by
  unfold asmXchg at he ⊢
  -- the one-byte form with either operand in `AX` comes before the forms with a ModRM byte
  by_cases h1 : (dst.isAx && src.isReg && src.size == 2) = true
  · rw [if_pos h1]
    obtain ⟨⟨hax, hsr⟩, h2⟩ : (dst.isAx = true ∧ src.isReg = true) ∧ src.size = 2 := by
      simpa using h1
    obtain ⟨hr, h0, hsize⟩ := isAx_reg hax
    refine iff_of_true ((xchg_accumulator hs.reg).faithful_iff.mpr
      (means_xchg.mpr ⟨sized_reg rfl (by simp [hr]), .inl ⟨?_, ?_⟩⟩)) (by simp [hr, hsr, hsize, h2])
    · rw [arg_reg hr, if_pos hsize, h0]
    · rw [arg_reg hsr, if_pos h2]
  rw [if_neg h1] at he ⊢
  by_cases h2 : (src.isAx && dst.isReg && dst.size == 2) = true
  · rw [if_pos h2]
    obtain ⟨⟨hax, hr⟩, h2'⟩ : (src.isAx = true ∧ dst.isReg = true) ∧ dst.size = 2 := by
      simpa using h2
    obtain ⟨hsr, h0, hsize⟩ := isAx_reg hax
    refine iff_of_true ((xchg_accumulator hd.reg).faithful_iff.mpr
      (means_xchg.mpr ⟨sized_reg rfl (by simp [hr]), .inr ⟨?_, ?_⟩⟩))
      (by simp [hr, hsr, hsize, h2'])
    · rw [arg_reg hr, if_pos h2']
    · rw [arg_reg hsr, if_pos hsize, h0]
  rw [if_neg h2] at he ⊢
  have hform := @form_xchg dst src
  -- the encoder takes the width from whichever operand is a word, so a mixed pair is not refused
  generalize (0x86 + if dst.size = 2 ∨ src.size = 2 then 1 else 0 : Int) = opcode at he hform ⊢
  generalize hw : (if dst.size = 2 ∨ src.size = 2 then 2 else 1) = w at hform
  have hdle := hd.size
  have hsle := hs.size
  split_ifs at he ⊢ with h3 h4
  · obtain ⟨hr, hsr⟩ := Bool.and_eq_true_iff.mp h3
    have hrm : emitModrmReg dst.reg src.reg = emitRm src dst.reg := by rw [emitRm, if_pos hsr]
    have hdne := size_width hd hr
    have hsne := size_width hs hsr
    rw [hrm] at he ⊢
    refine (reads_rmReg hform hs hd.reg (Nat.add_eq_zero_iff.mp he).2).faithful_iff.trans
      (means_xchg.trans ?_)
    rw [rmArg_reg hsr]
    simp only [hr, hsr, (isReg_kind hr).1, (isReg_kind hsr).1, Bool.true_and, Bool.and_false,
      Bool.false_and, Bool.or_false, beq_iff_eq]
    constructor
    · rintro ⟨-, ⟨ha, hb⟩ | ⟨ha, hb⟩⟩
      · exact (arg_eq_reg ha).2.1.trans (arg_eq_reg hb).2.1.symm
      · exact (arg_eq_reg ha).2.1.trans (arg_eq_reg hb).2.1.symm
    · intro h
      have hdw : dst.size = w := by
        rw [← hw]
        unfold Operand.width at hdne
        split_ifs <;> omega
      refine ⟨sized_reg rfl (by simp [hr]), .inr ⟨?_, ?_⟩⟩
      · rw [arg_reg hr, if_pos hdw]
      · rw [arg_reg hsr, if_pos (h ▸ hdw)]
  · have hsr : src.isReg = false := by simpa [h4] using h3
    obtain ⟨hrm, hbytes, he'⟩ := emitModrm_eq hso (Nat.add_eq_zero_iff.mp he).2
    have hm : src.isMem = true := by rwa [hsr, Bool.false_or] at hrm
    have hdne := size_width hd h4
    rw [Enc.bytes_append, hbytes]
    refine (reads_rmReg hform hs hd.reg he').faithful_iff.trans (means_xchg.trans ?_)
    rw [rmArg_mem hm]
    simp only [h4, hsr, hm, (isReg_kind h4).1, Bool.true_and, Bool.and_false,
      Bool.false_and, Bool.or_false, Bool.false_or]
    have hcond : (src.size != 2 || dst.size == 2) = true ↔ dst.size = w := by
      unfold Operand.width Operand.w at hdne
      rw [← hw, Bool.or_eq_true, bne_iff_ne, beq_iff_eq]
      split_ifs at hdne ⊢ <;> omega
    rw [hcond]
    constructor
    · rintro ⟨-, ⟨-, hb⟩ | ⟨ha, -⟩⟩
      · exact absurd (arg_eq_reg hb).1 (Bool.eq_false_iff.mp hsr)
      · exact (arg_eq_reg ha).2.1
    · intro h
      exact ⟨sized_reg rfl (by simp [h4]), .inr ⟨by rw [arg_reg h4, if_pos h], arg_mem hm⟩⟩
  · have hr : dst.isReg = false := Bool.eq_false_iff.mpr h4
    obtain ⟨hrm, hbytes, he'⟩ := emitModrm_eq hdo (Nat.add_eq_zero_iff.mp he).2
    have hm : dst.isMem = true := by rwa [hr, Bool.false_or] at hrm
    rw [Enc.bytes_append, hbytes]
    refine (reads_rmReg hform hd hs.reg he').faithful_iff.trans (means_xchg.trans ?_)
    rw [rmArg_mem hm]
    simp only [hr, hm, Bool.true_and, Bool.false_and, Bool.false_or, Bool.and_eq_true]
    constructor
    · rintro ⟨-, ⟨-, hb⟩ | ⟨ha, -⟩⟩
      · obtain ⟨hsr, hsize, -⟩ := arg_eq_reg hb
        refine ⟨hsr, ?_⟩
        rw [Bool.or_eq_true, bne_iff_ne, beq_iff_eq]
        rw [← hw] at hsize
        split_ifs at hsize <;> omega
      · exact absurd (arg_eq_reg ha).1 (Bool.eq_false_iff.mp hr)
    · rintro ⟨hsr, h⟩
      have hsne := size_width hs hsr
      have hsize : src.size = w := by
        unfold Operand.width Operand.w at hsne
        rw [Bool.or_eq_true, bne_iff_ne, beq_iff_eq] at h
        rw [← hw]
        split_ifs at hsne ⊢ <;> omega
      exact ⟨sized_reg rfl (by simp [hsr]), .inl ⟨arg_mem hm, by rw [arg_reg hsr, if_pos hsize]⟩⟩

/-! ## Shifts -/

theorem form_shift (w : Nat) (hw : w < 2) :
    form (toByte (0xD0 + w : Int)) = some (.rm shiftOps (w + 1) [.imm 1]) ∧
    form (toByte (0xD2 + w : Int)) = some (.rm shiftOps (w + 1) [.reg 1]) ∧
    form (toByte (0xC0 + w : Int)) = some (.rmImm shiftOps (w + 1) .byte) := by
  have hall : ∀ w : Nat, w < 2 →
      form (toByte (0xD0 + w : Int)) = some (.rm shiftOps (w + 1) [.imm 1]) ∧
      form (toByte (0xD2 + w : Int)) = some (.rm shiftOps (w + 1) [.reg 1]) ∧
      form (toByte (0xC0 + w : Int)) = some (.rmImm shiftOps (w + 1) .byte) := by decide
  exact hall w hw

theorem shift_op {k : Nat} {o : Op} (hk : k < 8) (ho : shiftOps.getD k none = some o) :
    o.isShift = true ∧ o ≠ .imul ∧ o ≠ .xchg := by
  have hall : ∀ k < 8, ∀ o ∈ shiftOps.getD k none, o.isShift = true ∧ o ≠ .imul ∧ o ≠ .xchg := by
    decide
  exact hall k hk o ho

/-- The meaning of a shift by a count. -/
theorem means_shift {o : Op} (hs : o.isShift = true) (hi : o ≠ .imul) (hx : o ≠ .xchg) (hd : dst.Wf)
    (hrm : (dst.isReg || dst.isMem) = true) {b : Arg} :
    o.Means [dst, src] { op := o, width := dst.width, args := [dst.rmArg.arg, b] } ↔
      src.countArg dst.width = some b := by
  have hsized : o.sized dst.width [dst, src] = true := by
    have hsz := sized_width hd
    rw [Op.sized, Op.sizing, hs, if_pos rfl]
    simp [hsz]
  constructor
  · rintro ⟨-, -, as, hargs, has⟩
    obtain rfl := has.resolve_right fun h => hx h.1
    simp only [Op.args, hs, hi, if_true, if_false, Option.bind_eq_bind,
      Option.bind_eq_some_iff, Option.some.injEq, List.cons.injEq, and_true] at hargs
    obtain ⟨a', ha, b', hb, rfl, rfl⟩ := hargs
    exact hb
  · intro hb
    refine ⟨rfl, hsized, [dst.rmArg.arg, b], ?_, .inl rfl⟩
    simp [Op.args, hs, hi, arg_width hd hrm, hb]

theorem asmShift_faithful {k : Nat} {o : Op} (hk : k < 8) (ho : shiftOps.getD k none = some o)
    (hd : dst.Wf) (hdo : dst.override = none) (he : (asmShift k dst src).errors = 0) :
    Faithful o [dst, src] (asmShift k dst src).bytes ↔
      (!src.isImm || dst.w == 0 || src.imm % 65536 < 256 : Bool) = true := by
  obtain ⟨hshift, himul, hxchg⟩ := shift_op hk ho
  obtain ⟨hD0, hD2, hC0⟩ := form_shift dst.w (w_lt dst)
  have hmeans := fun hrm b => @means_shift dst src o hshift himul hxchg hd hrm b
  unfold asmShift at he ⊢
  split_ifs at he ⊢ with h1 hcl hi
  · obtain ⟨hi, himm⟩ : src.isImm = true ∧ src.imm = 1 := by simpa using h1
    simp only [Enc.errors_append] at he
    obtain ⟨hrm, hbytes, he'⟩ := emitModrm_eq hdo (show (emitModrm dst k).errors = 0 by omega)
    simp only [Enc.bytes_append, hbytes]
    refine iff_of_true ((reads_rm hD0 ho hd hk he').faithful_iff.mpr ((hmeans hrm _).mpr ?_))
      (by simp [himm])
    have hncl : src.isCl = false := by simp [Operand.isCl, (isImm_kind hi).1]
    rw [Operand.countArg, hncl, if_neg Bool.false_ne_true, if_pos hi, arg_imm hi, himm]
    split_ifs <;> rfl
  · simp only [Enc.errors_append] at he
    obtain ⟨hrm, hbytes, he'⟩ := emitModrm_eq hdo (show (emitModrm dst k).errors = 0 by omega)
    have hni : src.isImm = false := by
      refine (isReg_kind ?_).2.1
      rw [Operand.isCl, Bool.and_eq_true, Bool.and_eq_true] at hcl
      exact hcl.1.1
    simp only [Enc.bytes_append, hbytes]
    refine iff_of_true ((reads_rm hD2 ho hd hk he').faithful_iff.mpr ((hmeans hrm _).mpr ?_))
      (by simp [hni])
    rw [Operand.countArg, if_pos hcl]
  · simp only [Enc.errors_append] at he
    obtain ⟨hrm, hbytes, he'⟩ := emitModrm_eq hdo (show (emitModrm dst k).errors = 0 by omega)
    simp only [Enc.bytes_append, hbytes]
    refine ((reads_rmImm hC0 ho hd hk he' (emitImm_reads 0 (by decide) src.imm)).faithful_iff.trans
      (hmeans hrm _)).trans ?_
    rw [Operand.countArg, if_neg hcl, if_pos hi, arg_imm hi, hi, Option.some.injEq, Arg.imm.injEq,
      Bool.not_true, Bool.false_or, Bool.or_eq_true, decide_eq_true_eq, beq_iff_eq]
    unfold Operand.width
    obtain h0 | h1 : dst.w = 0 ∨ dst.w = 1 := by
      have := w_lt dst
      omega
    · rw [h0]
      simp
    · rw [h1, if_pos rfl, if_neg (by decide)]
      omega
  · exact absurd he encErr_errors

/-! ## One operand -/

/-- The meaning of an operation on one operand. -/
theorem means_one {o : Op} {w : Nat} {a : Arg} :
    o.Means [op] { op := o, width := w, args := [a] } ↔
      o.sized w [op] = true ∧ op.arg w = some a := by
  have hargs : ∀ as, o.args w [op] = some as ↔ ∃ c, op.arg w = some c ∧ [c] = as := fun as => by
    simp [Op.args, Option.bind_eq_some_iff]
  constructor
  · rintro ⟨-, hsized, as, has, hor⟩
    obtain ⟨c, hc, rfl⟩ := (hargs as).mp has
    refine ⟨hsized, ?_⟩
    obtain heq | ⟨-, heq⟩ := hor
    · cases heq
      exact hc
    · cases heq
      exact hc
  · rintro ⟨hsized, ha⟩
    exact ⟨rfl, hsized, [a], (hargs _).mpr ⟨a, ha, rfl⟩, .inl rfl⟩

theorem sized_one {o : Op} {w : Nat} (hs : o.isShift = false) : o.sized w [op] =
    (op.isReg || op.isSreg || (!op.isMem || op.size == 0 || op.size == w)) := by
  rw [Op.sized, Op.sizing, hs, if_neg Bool.false_ne_true]
  simp

/-- A register or memory operand with the width of its own. -/
theorem means_own {o : Op} (hs : o.isShift = false) (h : op.Wf)
    (hrm : (op.isReg || op.isMem) = true) :
    o.Means [op] { op := o, width := op.width, args := [op.rmArg.arg] } := by
  refine means_one.mpr ⟨?_, arg_width h hrm⟩
  rw [sized_one hs, sized_width h, Bool.or_true]

theorem incDec_op {k : Nat} {o : Op} (hk : k < 2)
    (ho : [some Op.inc, some .dec].getD k none = some o) :
    o.isShift = false ∧
      (∀ r : Nat, r < 8 → form (toByte (0x40 + k * 8 + r : Int)) = some (.fixed o 2 [.reg r])) ∧
      (form 0xFE = some (.rm [some .inc, some .dec] 1 [])) ∧
      [some Op.inc, some .dec, none, none, none, none, some .push].getD k none = some o := by
  have hall : ∀ k : Nat, k < 2 → ∀ o ∈ [some Op.inc, some .dec].getD k none, o.isShift = false ∧
      (∀ r : Nat, r < 8 → form (toByte (0x40 + k * 8 + r : Int)) = some (.fixed o 2 [.reg r])) ∧
      (form 0xFE = some (.rm [some .inc, some .dec] 1 [])) ∧
      [some Op.inc, some .dec, none, none, none, none, some .push].getD k none = some o := by decide
  exact hall k hk o ho

/-- **`INC` and `DEC` are always encoded as they stand.** -/
theorem asmIncDec_faithful {k : Nat} {o : Op} (hk : k < 2)
    (ho : [some Op.inc, some .dec].getD k none = some o) (hd : dst.Wf) (hdo : dst.override = none)
    (he : (asmIncDec k dst).errors = 0) : Faithful o [dst] (asmIncDec k dst).bytes := by
  obtain ⟨hshift, hreg, hFE, hFF⟩ := incDec_op hk ho
  unfold asmIncDec at he ⊢
  split_ifs at he ⊢ with h1
  · obtain ⟨hr, hw⟩ : dst.isReg = true ∧ dst.w = 1 := by simpa using h1
    have hmeans := means_own hshift hd (by rw [hr]; rfl)
    rw [rmArg_reg hr, Operand.width, hw] at hmeans
    exact ⟨_, hmeans, reads_fixed (hreg dst.reg hd.reg)⟩
  · simp only [Enc.errors_append] at he
    obtain ⟨hrm, hbytes, he'⟩ := emitModrm_eq hdo (show (emitModrm dst k).errors = 0 by omega)
    have hmeans := means_own hshift hd hrm
    rw [Enc.bytes_append, hbytes]
    obtain h0 | h1 : dst.w = 0 ∨ dst.w = 1 := by
      have := w_lt dst
      omega
    · rw [Operand.width, h0] at hmeans
      rw [h0]
      exact ⟨_, hmeans, reads_rm (by exact hFE) ho hd (by omega) he'⟩
    · rw [Operand.width, h1] at hmeans
      rw [h1]
      exact ⟨_, hmeans, reads_rm rfl hFF hd (by omega) he'⟩

/-- The operation of `asmPushPop`. -/
def pushPopOp (isPop : Bool) : Op := if isPop then .pop else .push

theorem pushPop_op (isPop : Bool) : (pushPopOp isPop).isShift = false ∧
    (∀ r : Nat, r < 8 → form (toByte ((if isPop then 0x58 else 0x50) + r : Int)) =
      some (.fixed (pushPopOp isPop) 2 [.reg r])) ∧
    (∀ r : Nat, r < 4 → ¬(isPop = true ∧ r = 1) →
      form (toByte ((if isPop then 0x07 else 0x06) + r * 8 : Int)) =
        some (.fixed (pushPopOp isPop) 2 [.sreg r])) := by
  cases isPop
  · decide
  · decide

theorem asmPushPop_faithful {isPop : Bool} (h : op.Wf) (ho : op.override = none)
    (he : (asmPushPop isPop op).errors = 0) :
    Faithful (pushPopOp isPop) [op] (asmPushPop isPop op).bytes ↔
      (!(op.isMem && op.size == 1) && !(isPop && op.isSreg && op.reg == 1)) = true := by
  obtain ⟨hshift, hreg, hsreg⟩ := pushPop_op isPop
  unfold asmPushPop at he ⊢
  by_cases h1 : (op.isReg && op.size == 2) = true
  · rw [if_pos h1]
    obtain ⟨hr, hsize⟩ : op.isReg = true ∧ op.size = 2 := by simpa using h1
    obtain ⟨hm, -, hs⟩ := isReg_kind hr
    refine iff_of_true ((reads_fixed (hreg op.reg h.reg)).faithful_iff.mpr
      (means_one.mpr ⟨?_, by rw [arg_reg hr, if_pos hsize]⟩)) (by simp [hm, hs])
    rw [sized_one hshift, hr, Bool.true_or, Bool.true_or]
  rw [if_neg h1] at he ⊢
  by_cases h2 : op.isSreg = true
  · rw [if_pos h2]
    obtain ⟨hr, hm, -⟩ := isSreg_kind h2
    have hlt : op.reg < 4 := (h.sreg (by simpa [Operand.isSreg] using h2)).1
    simp only [hm, h2, Bool.false_and, Bool.not_false, Bool.true_and, Bool.and_true]
    by_cases hcs : isPop = true ∧ op.reg = 1
    · refine iff_of_false ?_ (by simp [hcs])
      rintro ⟨o, -, hreads⟩
      have hnone := hreads []
      rw [hcs.1, hcs.2] at hnone
      exact absurd hnone (by rw [show decode _ = none from by decide]; rintro ⟨⟩)
    · refine iff_of_true ((reads_fixed (hsreg op.reg hlt hcs)).faithful_iff.mpr
        (means_one.mpr ⟨?_, by rw [arg_sreg h2, if_pos rfl]⟩)) (by
          cases isPop
          · rfl
          · simpa using hcs)
      rw [sized_one hshift, hr, h2, Bool.or_true, Bool.true_or]
  rw [if_neg h2] at he ⊢
  have hs : op.isSreg = false := Bool.eq_false_iff.mpr h2
  by_cases h3 : op.isMem = true
  · rw [if_pos h3] at he ⊢
    obtain ⟨hr, -, -⟩ := isMem_kind h3
    simp only [Enc.errors_append] at he
    obtain ⟨hrm, hbytes, he'⟩ := emitModrm_eq ho
      (show (emitModrm op (if isPop then 0 else 6)).errors = 0 by omega)
    have hreads : ReadsAs { op := pushPopOp isPop, width := 2, args := [op.rmArg.arg] }
        (toByte (if isPop then 0x8F else 0xFF) :: (emitRm op (if isPop then 0 else 6)).bytes) := by
      cases isPop
      · exact reads_rm rfl rfl h (by decide) he'
      · exact reads_rm rfl rfl h (by decide) he'
    rw [Enc.bytes_append, hbytes]
    refine hreads.faithful_iff.trans (means_one.trans ?_)
    rw [sized_one hshift, rmArg_mem h3, arg_mem h3]
    have hle := h.size
    simp only [hr, hs, h3, Bool.false_or, Bool.not_true, Bool.true_and, Bool.and_false,
      Bool.false_and, Bool.not_false, Bool.and_true, and_true, Bool.or_eq_true, beq_iff_eq,
      Bool.not_eq_true', beq_eq_false_iff_ne]
    omega
  rw [if_neg h3] at he ⊢
  have hm : op.isMem = false := Bool.eq_false_iff.mpr h3
  by_cases h4 : (!isPop && op.isImm) = true
  · rw [if_pos h4]
    obtain ⟨hpop, hi⟩ : isPop = false ∧ op.isImm = true := by simpa using h4
    rw [hpop]
    have hmeans : Op.push.Means [op]
        { op := .push, width := 2, args := [.imm (op.imm % 65536).toNat] } := by
      refine means_one.mpr ⟨?_, by rw [arg_imm hi, if_pos rfl]⟩
      rw [sized_one rfl, hm, Bool.not_false, Bool.true_or, Bool.true_or, Bool.or_true]
    refine iff_of_true ?_ (by simp [hm])
    by_cases hfits : fitsByte op.imm = true
    · have hform : form (toByte 0x6A) = some (.fixedImm .push 2 [] .signed) := by decide
      rw [if_pos hfits]
      exact (reads_fixedImm hform (emit_reads_signed hfits)).faithful_iff.mpr hmeans
    · have hform : form (toByte 0x68) = some (.fixedImm .push 2 [] .word) := by decide
      rw [if_neg hfits]
      exact (reads_fixedImm hform (emit16_reads op.imm)).faithful_iff.mpr hmeans
  · rw [if_neg h4] at he
    exact absurd he encErr_errors

/-! ## `IMUL` -/

theorem asmGroup3_faithful (hd : dst.Wf) (hdo : dst.override = none)
    (he : (asmGroup3 5 dst).errors = 0) : Faithful .imul [dst] (asmGroup3 5 dst).bytes := by
  unfold asmGroup3 at he ⊢
  simp only [Enc.errors_append] at he
  obtain ⟨hrm, hbytes, he'⟩ := emitModrm_eq hdo (show (emitModrm dst 5).errors = 0 by omega)
  rw [Enc.bytes_append, hbytes]
  exact ⟨_, means_own rfl hd hrm, reads_unary_imul (form_unary dst.w (w_lt dst)) hd he'⟩

theorem asmImulImm_reads {reg rm : Nat} (hreg : reg < 8) (hrm : rm < 8) (imm : Int) :
    ReadsAs { op := .imul, width := 2, args := [.reg reg, .reg rm, .imm (imm % 65536).toNat] }
      (asmImulImm reg rm imm).bytes := by
  have hreads : ∀ {opcode : Nat} {bytes : List Nat} {kind : ImmKind},
      form opcode = some (.regRmImm kind) →
      (∀ rest, kind.read (bytes ++ rest) = some ((imm % 65536).toNat, rest)) →
      ReadsAs { op := .imul, width := 2, args := [.reg reg, .reg rm, .imm (imm % 65536).toNat] }
        (opcode :: ((emitModrmReg reg rm).bytes ++ bytes)) := fun hf hk => by
    refine readsAs_form hf fun rest => ?_
    rw [List.append_assoc]
    simp only [Form.read, decodeRm_reg hreg hrm, Option.bind_eq_bind, Option.bind_some, hk rest]
    rfl
  unfold asmImulImm
  split_ifs with hfits
  · exact hreads (show form (toByte 0x6B) = some (.regRmImm .signed) by decide)
      (emit_reads_signed hfits)
  · exact hreads (show form (toByte 0x69) = some (.regRmImm .word) by decide) (emit16_reads imm)

/-- Only an immediate is an argument that is one. -/
theorem arg_eq_imm {w n : Nat} (h : op.arg w = some (.imm n)) : op.isImm = true := by
  unfold Operand.arg at h
  split at h
  · split_ifs at h
    cases h
  · split_ifs at h
    cases h
  · cases h
  · next htype => rw [Operand.isImm, htype]; rfl
  · cases h

theorem imul_two_faithful (hd : dst.Wf) :
    Faithful .imul [dst, src] (asmImulImm dst.reg dst.reg src.imm).bytes ↔
      (dst.isReg && dst.size == 2 && src.isImm) = true := by
  refine (asmImulImm_reads hd.reg hd.reg src.imm).faithful_iff.trans ?_
  rw [Bool.and_eq_true, Bool.and_eq_true, beq_iff_eq]
  constructor
  · rintro ⟨-, -, as, hargs, has⟩
    obtain rfl := has.resolve_right fun h => absurd h.1 (by decide)
    simp only [Op.args, show Op.imul.isShift = false from rfl, Bool.false_eq_true, if_false,
      if_true, Option.bind_eq_bind, Option.bind_eq_some_iff] at hargs
    obtain ⟨a, ha, b, hb, heq⟩ := hargs
    cases Option.some.inj heq
    obtain ⟨hr, hsize, -⟩ := arg_eq_reg ha
    exact ⟨⟨hr, hsize⟩, arg_eq_imm hb⟩
  · rintro ⟨⟨hr, hsize⟩, hi⟩
    refine ⟨rfl, sized_reg rfl (by simp [hr]), _, ?_, .inl rfl⟩
    have ha : dst.arg 2 = some (.reg dst.reg) := by rw [arg_reg hr, if_pos hsize]
    simp [Op.args, Op.isShift, ha, arg_imm hi]

theorem imul_three_faithful {imm : Operand} (hd : dst.Wf) (hs : src.Wf) :
    Faithful .imul [dst, src, imm] (asmImulImm dst.reg src.reg imm.imm).bytes ↔
      (dst.isReg && dst.size == 2 && src.isReg && src.size == 2 && imm.isImm) = true := by
  refine (asmImulImm_reads hd.reg hs.reg imm.imm).faithful_iff.trans ?_
  simp only [Bool.and_eq_true, beq_iff_eq]
  constructor
  · rintro ⟨-, -, as, hargs, has⟩
    obtain rfl := has.resolve_right fun h => absurd h.1 (by decide)
    simp only [Op.args, Option.bind_eq_bind, Option.bind_eq_some_iff] at hargs
    obtain ⟨a, ha, b, hb, c, hc, heq⟩ := hargs
    cases Option.some.inj heq
    obtain ⟨hr, hsize, -⟩ := arg_eq_reg ha
    obtain ⟨hsr, hssize, -⟩ := arg_eq_reg hb
    exact ⟨⟨⟨⟨hr, hsize⟩, hsr⟩, hssize⟩, arg_eq_imm hc⟩
  · rintro ⟨⟨⟨⟨hr, hsize⟩, hsr⟩, hssize⟩, hi⟩
    refine ⟨rfl, ?_, _, ?_, .inl rfl⟩
    · simp [Op.sized, Op.sizing, Op.isShift, hr]
    · have ha : dst.arg 2 = some (.reg dst.reg) := by rw [arg_reg hr, if_pos hsize]
      have hb : src.arg 2 = some (.reg src.reg) := by rw [arg_reg hsr, if_pos hssize]
      simp [Op.args, ha, hb, arg_imm hi]

end Families

/-! ## Mnemonics -/

theorem isWord_congr {m n : List Char} (h : sameName m n = true) (w : String) :
    isWord w m = isWord w n := by
  rw [isWord, isWord, sameName_comm, sameName_congr h, sameName_comm]

theorem lookupWord_congr {α : Type} {m n : List Char} (h : sameName m n = true)
    (table : List (String × α)) : lookupWord table m = lookupWord table n := by
  simp only [lookupWord, isWord_congr h]

/-- The case of a mnemonic does not matter. -/
theorem parsePlain_congr {m n : List Char} (h : sameName m n = true) :
    parsePlain m = parsePlain n := by
  simp only [parsePlain, onTable, onWord, lookupWord_congr h, isWord_congr h]

/-- The instruction of a mnemonic is encoded as it stands exactly if its operands allow it. -/
def LineFaithful (site : Site) (o : Op) (p : Parse Instr) : Prop :=
  ∀ (e : Env) (s : ParseState), (encode site (p e s).1).errors = 0 →
    (∀ op ∈ (o.operands e s).1, op.override = none) →
    (Faithful o (o.operands e s).1 (encode site (p e s).1).bytes ↔
      Encodable o (o.operands e s).1 = true)

theorem parseTwo_faithful {site : Site} {o : Op} {f : Operand → Operand → Instr}
    (hops : o.operands = readTwo)
    (h : ∀ dst src : Operand, dst.Wf → src.Wf → dst.override = none → src.override = none →
      (encode site (f dst src)).errors = 0 →
      (Faithful o [dst, src] (encode site (f dst src)).bytes ↔ Encodable o [dst, src] = true)) :
    LineFaithful site o (parseTwo f) := by
  intro e s he ho
  rw [hops] at ho ⊢
  refine h _ _ (parseOperand_wf.result e s) (parseOperand_wf.result e _) (ho _ ?_) (ho _ ?_) he
  · exact List.mem_cons_self
  · exact List.mem_cons_of_mem _ List.mem_cons_self

theorem parseOne_faithful {site : Site} {o : Op} {f : Operand → Instr} (hops : o.operands = readOne)
    (h : ∀ op : Operand, op.Wf → op.override = none → (encode site (f op)).errors = 0 →
      (Faithful o [op] (encode site (f op)).bytes ↔ Encodable o [op] = true)) :
    LineFaithful site o (parseOne f) := by
  intro e s he ho
  rw [hops] at ho ⊢
  exact h _ (parseOperand_wf.result e s) (ho _ List.mem_cons_self) he

/-- Two parsers that read the same from here on. -/
def Pairs {α β : Type} (R : α → β → Prop) (p : Parse α) (q : Parse β) : Prop :=
  ∀ e s, R (p e s).1 (q e s).1

section Pairs

variable {α β γ : Type} {R : α → β → Prop}

theorem pairs_bind {P : γ → Prop} {m : Parse γ} {f : γ → Parse α} {g : γ → Parse β}
    (hm : m.Yields P) (h : ∀ a, P a → Pairs R (f a) (g a)) : Pairs R (m >>= f) (m >>= g) :=
  fun e s => h _ (hm.result e s) e _

theorem pairs_then {m : Parse γ} {f : γ → Parse α} {g : γ → Parse β}
    (h : ∀ a, Pairs R (f a) (g a)) : Pairs R (m >>= f) (m >>= g) := fun e _ => h _ e _

theorem pairs_ite {c : Prop} [Decidable c] {p p' : Parse α} {q q' : Parse β} (h : Pairs R p q)
    (h' : Pairs R p' q') : Pairs R (if c then p else p') (if c then q else q') := by
  split_ifs
  · exact h
  · exact h'

theorem pairs_pure {a : α} {b : β} (h : R a b) : Pairs R (pure a) (pure b) := fun _ _ => h

end Pairs

theorem parseImul_faithful (site : Site) : LineFaithful site .imul parseImul := by
  have hpairs : Pairs (fun i operands => (encode site i).errors = 0 →
      (∀ op ∈ operands, op.override = none) →
      (Faithful .imul operands (encode site i).bytes ↔ Encodable .imul operands = true))
      parseImul readUpToThree := by
    unfold parseImul readUpToThree
    refine pairs_bind parseOperand_wf fun dst hd => pairs_then fun save => pairs_then fun t =>
      pairs_ite ?_ (pairs_then fun _ => pairs_pure fun he ho =>
        iff_of_true (asmGroup3_faithful hd (ho dst List.mem_cons_self) he) rfl)
    refine pairs_bind parseOperand_wf fun src hs => pairs_then fun save2 => pairs_then fun t2 =>
      pairs_ite ?_ (pairs_then fun _ => pairs_pure fun _ _ => imul_two_faithful hd)
    exact pairs_bind parseOperand_wf fun imm _ => pairs_pure fun _ _ => imul_three_faithful hd hs
  exact hpairs

theorem parseAlu_faithful (site : Site) {k : Nat} {o : Op} (hk : k < 8)
    (ho : aluOps.getD k none = some o) : LineFaithful site o (parseTwo (.alu k)) := by
  have hcases : ∀ k < 8, ∀ o ∈ aluOps.getD k none, o = .add ∨ o = .or ∨ o = .adc ∨ o = .sbb ∨
      o = .and ∨ o = .sub ∨ o = .xor ∨ o = .cmp := by decide
  refine parseTwo_faithful ?_ fun dst src hd hs hdo hso he =>
    (asmAlu_faithful hk ho hd hs hdo hso he).trans ?_
  · obtain rfl | rfl | rfl | rfl | rfl | rfl | rfl | rfl := hcases k hk o ho <;> rfl
  · obtain rfl | rfl | rfl | rfl | rfl | rfl | rfl | rfl := hcases k hk o ho <;> rfl

theorem parseShift_faithful (site : Site) {k : Nat} {o : Op} (hk : k < 8)
    (ho : shiftOps.getD k none = some o) : LineFaithful site o (parseTwo (.shift k)) := by
  have hcases : ∀ k < 8, ∀ o ∈ shiftOps.getD k none, o = .rol ∨ o = .ror ∨ o = .rcl ∨ o = .rcr ∨
      o = .shl ∨ o = .shr ∨ o = .sar := by decide
  refine parseTwo_faithful ?_ fun dst src hd _ hdo _ he =>
    (asmShift_faithful hk ho hd hdo he).trans ?_
  · obtain rfl | rfl | rfl | rfl | rfl | rfl | rfl := hcases k hk o ho <;> rfl
  · obtain rfl | rfl | rfl | rfl | rfl | rfl | rfl := hcases k hk o ho <;> rfl

theorem parseIncDec_faithful (site : Site) {k : Nat} {o : Op} (hk : k < 2)
    (ho : [some Op.inc, some .dec].getD k none = some o) :
    LineFaithful site o (parseOne (.incDec k)) := by
  have hcases : ∀ k < 2, ∀ o ∈ [some Op.inc, some .dec].getD k none, o = .inc ∨ o = .dec := by
    decide
  refine parseOne_faithful ?_ fun op h hdo he =>
    iff_of_true (asmIncDec_faithful hk ho h hdo he) ?_
  · obtain rfl | rfl := hcases k hk o ho <;> rfl
  · obtain rfl | rfl := hcases k hk o ho <;> rfl

theorem parsePush_faithful (site : Site) : LineFaithful site .push (parseOne (.pushPop false)) :=
  parseOne_faithful rfl fun op h ho he => (@asmPushPop_faithful op false h ho he).trans (by
    rw [Encodable, Bool.false_and, Bool.false_and, Bool.not_false, Bool.and_true])

theorem parsePop_faithful (site : Site) : LineFaithful site .pop (parseOne (.pushPop true)) :=
  parseOne_faithful rfl fun op h ho he => (@asmPushPop_faithful op true h ho he).trans (by
    rw [Encodable, Bool.true_and])

theorem parseMov_faithful (site : Site) : LineFaithful site .mov (parseTwo fun dst src =>
    .mov (inferMovSizes dst src).1 (inferMovSizes dst src).2) :=
  parseTwo_faithful rfl fun _ _ hd hs hdo hso he => iff_of_true (mov_faithful hd hs hdo hso he) rfl

theorem parseXchg_faithful (site : Site) : LineFaithful site .xchg (parseTwo .xchg) :=
  parseTwo_faithful rfl fun _ _ => asmXchg_faithful

theorem parseTest_faithful (site : Site) : LineFaithful site .test (parseTwo .test) :=
  parseTwo_faithful rfl fun _ _ hd hs hdo _ he => asmTest_faithful hd hs hdo he

set_option maxRecDepth 20000 in
/-- Each mnemonic of the table in lower case. -/
theorem parsePlain_faithful (site : Site) :
    ∀ x ∈ opTable, LineFaithful site x.2 (parsePlain x.1.toList) := by
  simp only [opTable, List.forall_mem_cons]
  have halu := fun k (hk : k < 8) o ho => @parseAlu_faithful site k o hk ho
  have hshift := fun k (hk : k < 8) o ho => @parseShift_faithful site k o hk ho
  exact ⟨halu 0 (by decide) _ rfl, halu 1 (by decide) _ rfl, halu 2 (by decide) _ rfl,
    halu 3 (by decide) _ rfl, halu 4 (by decide) _ rfl, halu 5 (by decide) _ rfl,
    halu 6 (by decide) _ rfl, halu 7 (by decide) _ rfl, hshift 0 (by decide) _ rfl,
    hshift 1 (by decide) _ rfl, hshift 2 (by decide) _ rfl, hshift 3 (by decide) _ rfl,
    hshift 4 (by decide) _ rfl, hshift 4 (by decide) _ rfl, hshift 5 (by decide) _ rfl,
    hshift 7 (by decide) _ rfl,
    parseMov_faithful site, parseXchg_faithful site, parseTest_faithful site,
    parseImul_faithful site, parseIncDec_faithful site (k := 0) (by decide) rfl,
    parseIncDec_faithful site (k := 1) (by decide) rfl, parsePush_faithful site,
    parsePop_faithful site, List.forall_mem_nil _⟩

/-- Nothing is declared, and the instruction is at the start. -/
def emptyEnv : Env := { labels := [], pass2 := true }

def startSite : Site := { pos := 0, relaxed := false, labels := [] }

end Nib.Asm
