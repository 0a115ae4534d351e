import Nib.Bind.Widths
import Nib.Asm.Properties.Operation

/-!
# Which instructions use the bytes of their vreg

* `access_group` — an opcode with a ModR/M byte uses its operand in its width
* `MemVreg.exact_iff` — when that is the width of the vreg
-/

namespace Nib.Bind

open Nib.Asm

variable {op : Operand} {v : MemVreg}

/-! ## Operands -/

/-- An operand `[BP+off]`, whatever its size. -/
structure AtBp (v : MemVreg) (op : Operand) : Prop where
  wf : op.Wf
  mem : op.type = .mem
  ref : op.memRef = v.bytes.2
  override : op.override = none
  errors : ∀ r, (emitModrm op r).errors = 0

theorem emitModrm_bp (h : op.type = .mem) (hbase : op.base = some R_BP) (hindex : op.index = none)
    (hseg : op.segOvr = none) (r : Nat) : (emitModrm op r).errors = 0 := by
  have hreg : op.isReg = false := by
    rw [Operand.isReg, h]
    rfl
  have hmem : op.isMem = true := by
    rw [Operand.isMem, h]
    rfl
  have hrm : findRm (some R_BP) none = some 6 := by decide
  rw [emitModrm, hreg, if_neg Bool.false_ne_true, hmem, if_pos rfl, emitSegOverride, hseg,
    emitModrmMem, Operand.isDirect, hbase, hindex, hrm]
  simp only [Option.isNone_some, Bool.false_and, Bool.false_eq_true, if_false, Enc.errors_append]
  split_ifs <;> rfl

namespace MemVreg

theorem atBp (v : MemVreg) (size : Nat) (h : size ≤ 2) : AtBp v { v.vregAsm with size } where
  wf := ⟨Nat.zero_lt_succ _, h, nofun, nofun, nofun, fun _ => rfl, nofun, nofun⟩
  mem := rfl
  ref := rfl
  override := rfl
  errors := emitModrm_bp rfl rfl rfl rfl

/-- The size that is printed. -/
def printedSize (v : MemVreg) : Nat := if v.isSpill then if v.isByte then 1 else 2 else 0

theorem vregAsmSized_eq (v : MemVreg) :
    v.vregAsmSized = { v.vregAsm with size := v.printedSize } := by
  unfold vregAsmSized printedSize isSpill
  cases v.home <;> rfl

example : (parseOperand { labels := [], pass2 := true } { ptr := " byte [BP-1]".toList }).1 =
    ({ isByte := true, home := .spill 0 1 } : MemVreg).vregAsmSized := by
  decide

theorem atBp_sized (v : MemVreg) : AtBp v v.vregAsmSized := by
  rw [vregAsmSized_eq]
  refine v.atBp _ ?_
  unfold printedSize
  split_ifs <;> decide

end MemVreg

/-! ## Instructions -/

/-- What an encoder emits uses the operand in a width. -/
structure UsesBytes (v : MemVreg) (width : Nat) (e : Enc) : Prop where
  errors : e.errors = 0
  access : access e.bytes = some (width, v.bytes.2)

theorem access_group {opcode : Int} {width r : Nat} {tail : Enc} (h : AtBp v op) (hr : r < 8)
    (hw : operandWidths.lookup (toByte opcode) = some width) (htail : tail.errors = 0) :
    UsesBytes v width (emit opcode ++ emitModrm op r ++ tail) := by
  obtain ⟨-, hbytes, herr⟩ := emitModrm_eq h.override (h.errors r)
  have harg : op.rmArg = .mem v.bytes.2 := by
    rw [Operand.rmArg, Operand.isReg, h.mem, h.ref]
    rfl
  constructor
  · rw [Enc.errors_append, Enc.errors_append, h.errors, htail]
    rfl
  · rw [Enc.bytes_append, Enc.bytes_append, hbytes, List.append_assoc]
    show access (toByte opcode :: ((emitRm op r).bytes ++ tail.bytes)) = _
    rw [access, hw, Option.bind_some, decodeRm_emitRm h.wf hr herr, harg]

/-- The opcodes whose lowest bit is the width bit. -/
theorem widths_group {base : Int} (h : base ∈ [0x80, 0xC0, 0xC6, 0xD0, 0xD2, 0xF6, 0xFE])
    {w : Nat} (hw : w < 2) : operandWidths.lookup (toByte (base + w)) = some (w + 1) := by
  have hall : ∀ base ∈ [(0x80 : Int), 0xC0, 0xC6, 0xD0, 0xD2, 0xF6, 0xFE], ∀ w < 2,
      operandWidths.lookup (toByte (base + (w : Nat))) = some (w + 1) := by decide
  exact hall base h w hw

theorem append_nothing (e : Enc) : e ++ ({} : Enc) = e := by
  show Enc.append e {} = e
  unfold Enc.append
  rw [List.append_nil, Bool.or_false]
  rfl

/-- Nothing comes behind the operand. -/
theorem access_plain {opcode : Int} {width r : Nat} (h : AtBp v op) (hr : r < 8)
    (hw : operandWidths.lookup (toByte opcode) = some width) :
    UsesBytes v width (emit opcode ++ emitModrm op r) := by
  have hall : UsesBytes v width (emit opcode ++ emitModrm op r ++ ({} : Enc)) :=
    access_group h hr hw rfl
  rwa [append_nothing] at hall

theorem AtBp.not_reg (h : AtBp v op) : op.isReg = false := by
  rw [Operand.isReg, h.mem]
  rfl

theorem alu_uses {k : Nat} (hk : inTable aluTable k = true) (h : AtBp v op) (n : Int) :
    UsesBytes v (op.w + 1) (asmAlu k op (immOperand n)) := by
  have hk8 : k < 8 := by
    simp [inTable, aluTable] at hk
    omega
  have hax : op.isAx = false := by
    rw [Operand.isAx, h.not_reg]
    rfl
  have hal : op.isAl = false := by
    rw [Operand.isAl, h.not_reg]
    rfl
  have himm : (immOperand n).isImm = true := rfl
  unfold asmAlu
  rw [if_pos himm, hax, hal, if_neg Bool.false_ne_true, if_neg Bool.false_ne_true]
  split_ifs with hshort
  · have hw : op.w = 1 := by
      simp only [aluShortImm, Bool.and_eq_true, beq_iff_eq] at hshort
      exact hshort.1
    rw [hw]
    exact access_group h hk8 (by decide) rfl
  · refine access_group h hk8 (widths_group (by decide) (w_lt op)) ?_
    unfold emitImm
    split_ifs <;> rfl

theorem shift_uses {k : Nat} (hk : inTable shiftTable k = true) (h : AtBp v op) {src : Operand}
    (hsrc : src.isImm = true ∨ src.isCl = true) : UsesBytes v (op.w + 1) (asmShift k op src) := by
  have hk8 : k < 8 := by
    simp [inTable, shiftTable] at hk
    omega
  unfold asmShift
  split_ifs with hone hcl himm
  · exact access_plain h hk8 (widths_group (by decide) (w_lt op))
  · exact access_plain h hk8 (widths_group (by decide) (w_lt op))
  · exact access_group h hk8 (widths_group (by decide) (w_lt op)) rfl
  · exact absurd hsrc (by simp [hcl, himm])

theorem incDec_uses {k : Nat} (hk : k < 8) (h : AtBp v op) :
    UsesBytes v (op.w + 1) (asmIncDec k op) := by
  unfold asmIncDec
  rw [h.not_reg, Bool.false_and, if_neg Bool.false_ne_true]
  exact access_plain h hk (widths_group (by decide) (w_lt op))

theorem group3_uses {field : Nat} (hfield : field < 8) (h : AtBp v op) :
    UsesBytes v (op.w + 1) (asmGroup3 field op) :=
  access_plain h hfield (widths_group (by decide) (w_lt op))

theorem pushPop_uses (isPop : Bool) (h : AtBp v op) : UsesBytes v 2 (asmPushPop isPop op) := by
  unfold asmPushPop
  rw [h.not_reg, Bool.false_and, if_neg Bool.false_ne_true, Operand.isSreg, Operand.isMem, h.mem]
  cases isPop with
  | false => exact access_plain h (by decide) (by decide)
  | true => exact access_plain h (by decide) (by decide)

/-- `MOV` takes a word when neither operand has a size, and else the size of the constant. -/
theorem inferMovSizes_word {src : Operand} (hsize : src.size = 0 ∨ src.size = 2) :
    inferMovSizes v.vregAsm src = ({ v.vregAsm with size := 2 }, { src with size := 2 }) := by
  cases src
  rcases hsize with rfl | rfl <;> rfl

theorem mov_uses {src : Operand} (hsrc : src.type = .imm) (hsize : src.size = 0 ∨ src.size = 2) :
    UsesBytes v 2 (asmMov (inferMovSizes v.vregAsm src).1 (inferMovSizes v.vregAsm src).2) := by
  have hmov : asmMov { v.vregAsm with size := 2 } { src with size := 2 } =
      emit (0xC6 + (1 : Nat)) ++ emitModrm { v.vregAsm with size := 2 } 0 ++ emitImm 1 src.imm := by
    cases src
    cases hsrc
    rfl
  rw [inferMovSizes_word hsize, hmov]
  exact access_group (v.atBp 2 (by decide)) (by decide) (widths_group (by decide) (by decide)) rfl

/-! ## Vregs -/

namespace MemVreg

variable (v)

/-- The width in which an instruction uses its operand. -/
def usedWidth : MemInsn → Nat
  | .mulDiv _ _ => 1
  | .mov _ | .movLabel _ _ | .push | .pop => 2
  | _ => if v.isSpill ∧ v.isByte = false then 2 else 1

theorem vregAsmSized_w : v.vregAsmSized.w + 1 = if v.isSpill ∧ v.isByte = false then 2 else 1 := by
  rw [vregAsmSized_eq]
  unfold Operand.w printedSize
  cases v.isSpill <;> cases v.isByte <;> rfl

variable {v} in
theorem UsesBytes.sized {e : Enc} (h : UsesBytes v (v.vregAsmSized.w + 1) e) :
    UsesBytes v (if v.isSpill ∧ v.isByte = false then 2 else 1) e := by
  rwa [vregAsmSized_w] at h

/-- What is emitted unless a vreg takes another way. -/
theorem emitted_of_some {c : Bool} {i j : Instr} (h : (if c then none else some i) = some j) :
    i = j := by
  cases c with
  | true => cases h
  | false => exact Option.some.inj h

/-- **Every instruction but `imul`** uses the operand in one width. -/
theorem emit_uses {i : MemInsn} {instr : Instr} (hemit : v.emit i = some instr)
    (himul : ∀ n, i ≠ .imulImm n) (site : Site) :
    UsesBytes v (v.usedWidth i) (encode site instr) := by
  have hsized := v.atBp_sized
  have hplain : AtBp v v.vregAsm := v.atBp 0 (by decide)
  have hmov {src : Operand} (hsrc : src.type = .imm) (hsize : src.size = 0 ∨ src.size = 2)
      (h : v.emitMov src = some instr) : UsesBytes v 2 (encode site instr) := by
    obtain rfl := emitted_of_some h
    exact mov_uses hsrc hsize
  cases i with
  | alu op n =>
    obtain rfl := Option.some.inj hemit
    exact UsesBytes.sized (alu_uses op.inTable hsized n)
  | shift op n =>
    obtain rfl := Option.some.inj hemit
    exact UsesBytes.sized (shift_uses op.inTable hsized (.inl rfl))
  | shiftCl op =>
    obtain rfl := Option.some.inj hemit
    exact UsesBytes.sized (shift_uses op.inTable hsized (.inr rfl))
  | cmp n =>
    obtain rfl := Option.some.inj hemit
    exact UsesBytes.sized (alu_uses Mnemonic.cmp.inTable hsized n)
  | update isAdd cfLive n =>
    obtain rfl := Option.some.inj hemit
    unfold emitDirectUpdate
    split
    · exact UsesBytes.sized (incDec_uses (by split <;> decide) hsized)
    · exact UsesBytes.sized (alu_uses (Mnemonic.inTable _) hsized n)
  | imulImm n => exact absurd rfl (himul n)
  | mulDiv isSigned isDiv =>
    obtain rfl := Option.some.inj hemit
    exact group3_uses (by cases isSigned <;> cases isDiv <;> decide) hplain
  | unary isNeg =>
    obtain rfl := emitted_of_some hemit
    exact UsesBytes.sized (group3_uses (by split <;> decide) hsized)
  | mov n => exact hmov rfl (.inl rfl) hemit
  | movLabel label value => exact hmov rfl (.inr rfl) hemit
  | push =>
    obtain rfl := emitted_of_some hemit
    exact pushPop_uses false hplain
  | pop =>
    obtain rfl := emitted_of_some hemit
    exact pushPop_uses true hplain

/-- `imul` with an immediate is assembled for two registers. -/
theorem imul_unused (n : Int) (site : Site) :
    access (encode site (.imulImm v.vregAsm.reg v.vregAsm.reg n)).bytes = none := by
  show access (asmImulImm 0 0 n).bytes = none
  unfold asmImulImm
  split_ifs <;> rfl

variable {v}

/-- Where something is emitted, its width decides. -/
theorem exact_iff_width {i : MemInsn} {instr : Instr} (hemit : v.emit i = some instr)
    (himul : ∀ n, i ≠ .imulImm n) : v.Exact i ↔ v.usedWidth i = if v.isByte then 1 else 2 := by
  constructor
  · intro h
    have hbytes := (h instr hemit ⟨0, false, []⟩).2
    rw [(v.emit_uses hemit himul _).access] at hbytes
    exact (Prod.mk.inj (Option.some.inj hbytes)).1
  · rintro hwidth instr' hemit' site
    have huses := v.emit_uses hemit' himul site
    exact ⟨huses.errors, by rw [huses.access, hwidth]; rfl⟩

/-- Nothing is emitted: the vreg is moved through a register. -/
theorem exact_of_none {i : MemInsn} (hemit : v.emit i = none) : v.Exact i := by
  intro instr h
  rw [hemit] at h
  cases h

end MemVreg

/-- A byte that is packed with another one: `mov` of a constant is assembled for a word. -/
def packedByte : MemVreg := { isByte := true, home := .spill 0 0 }

end Nib.Bind
