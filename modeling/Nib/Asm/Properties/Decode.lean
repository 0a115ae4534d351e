import Nib.Asm.Spec.Decode
import Nib.Asm.Properties.Override
import Nib.Asm.Properties.WellFormed

/-!
# ModR/M operands are read back

* `decodeRm_reg`, `decodeRm_mem` — a register and a memory operand
* `emitModrmMem_encodes` — every memory operand is encoded or refused
-/

namespace Nib.Asm

theorem toByte_natCast {n : Nat} (h : n < 256) : toByte (n : Int) = n := by
  unfold toByte
  omega

theorem modrmByte_eq {mod field rm : Nat} (hm : mod < 4) (hf : field < 8) (hr : rm < 8) :
    toByte (modrmByte mod field rm) = 64 * mod + 8 * field + rm := by
  have hall : ∀ mod < 4, ∀ field < 8, ∀ rm < 8,
      (mod <<< 6) ||| (field <<< 3) ||| rm = 64 * mod + 8 * field + rm := by decide
  rw [modrmByte, hall mod hm field hf rm hr]
  exact toByte_natCast (by omega)

theorem modrm_parts {mod field rm : Nat} (hf : field < 8) (hr : rm < 8) :
    (64 * mod + 8 * field + rm) / 64 = mod ∧ (64 * mod + 8 * field + rm) / 8 % 8 = field ∧
      (64 * mod + 8 * field + rm) % 8 = rm := by
  omega

/-- The displacement of a byte. -/
theorem signExtend_toByte {n : Int} (h : fitsByte n = true) :
    signExtend (toByte n) = (n % 65536).toNat := by
  simp only [fitsByte, Bool.and_eq_true, decide_eq_true_eq] at h
  unfold signExtend toByte
  split_ifs <;> omega

theorem word_toByte (n : Int) : toByte n + 256 * toByte (n / 256) = (n % 65536).toNat := by
  unfold toByte
  omega

/-- A row of the table has the registers of the operand, in one of the two orders. -/
theorem findRm_row {base index : Option Nat} {rm : Nat} (h : findRm base index = some rm) :
    rm < 8 ∧ (modrmRmTable[rm]? = some (base, index) ∨ modrmRmTable[rm]? = some (index, base)) := by
  unfold findRm at h
  obtain ⟨hlt, hrow, -⟩ := List.findIdx?_eq_some_iff_getElem.mp h
  refine ⟨hlt, ?_⟩
  rw [List.getElem?_eq_getElem hlt]
  simp only [Bool.or_eq_true, Bool.and_eq_true, beq_iff_eq] at hrow
  obtain ⟨h1, h2⟩ | ⟨h1, h2⟩ := hrow
  · exact .inl (congrArg some (Prod.ext h1 h2))
  · exact .inr (congrArg some (Prod.ext h1 h2))

/-- The form that was found has the registers of the operand, and `BP` alone is the seventh. -/
theorem findRm_regs {op : Operand} {rm : Nat} (h : findRm op.base op.index = some rm) :
    rm < 8 ∧ rmRegs rm = op.regs ∧ (rm = 6 → op.index = some R_BP ∨
      op.base = some R_BP ∧ op.index = none) := by
  obtain ⟨hlt, hrow⟩ := findRm_row h
  refine ⟨hlt, ?_⟩
  have hall : ∀ rm < 8, ∀ row ∈ modrmRmTable[rm]?,
      rmRegs rm = ({ type := .mem, base := row.1, index := row.2 } : Operand).regs ∧
      rmRegs rm = ({ type := .mem, base := row.2, index := row.1 } : Operand).regs ∧
      (rm = 6 → row = (some R_BP, none)) := by decide
  obtain hrow | hrow := hrow
  · obtain ⟨hregs, -, h6⟩ := hall rm hlt _ hrow
    exact ⟨hregs, fun h => .inr (Prod.mk.inj (h6 h))⟩
  · obtain ⟨-, hregs, h6⟩ := hall rm hlt _ hrow
    exact ⟨hregs, fun h => .inl (Prod.mk.inj (h6 h)).1⟩

/-! ## A memory operand -/

/-- Without an error, the registers are those of a form. -/
theorem emitModrmMem_form {op : Operand} {r : Nat} (he : (emitModrmMem op r).errors = 0)
    (hd : op.isDirect = false) : ∃ rm, findRm op.base op.index = some rm := by
  unfold emitModrmMem at he
  rw [hd, if_neg Bool.false_ne_true] at he
  cases hrm : findRm op.base op.index with
  | none =>
    rw [hrm] at he
    exact absurd he encErr_errors
  | some rm => exact ⟨rm, rfl⟩

/-- `BP` is never the index alone. -/
theorem base_of_six {op : Operand} {rm : Nat} (h : op.Wf) (hrm : findRm op.base op.index = some rm)
    (h6 : rm = 6) : op.base = some R_BP ∧ op.index = none := by
  obtain ⟨-, hrow⟩ := findRm_row hrm
  subst h6
  obtain hrow | hrow := hrow
  · exact ⟨(Prod.mk.inj (Option.some.inj hrow)).1.symm, (Prod.mk.inj (Option.some.inj hrow)).2.symm⟩
  · obtain ⟨hi, hb⟩ := Prod.mk.inj (Option.some.inj hrow)
    have hsome := h.bp hi.symm
    rw [← hb] at hsome
    cases hsome

theorem modrmDisp_eq {op : Operand} (h : op.Wf) (rm : Nat) : modrmDisp op rm = op.disp := by
  unfold modrmDisp
  split_ifs with hbp
  · simp only [Bool.and_eq_true, Bool.not_eq_true'] at hbp
    exact (h.disp hbp.1.1.2).symm
  · rfl

/-- No displacement where it is 0, except of `BP` alone, and a byte where it fits. -/
theorem modField_cases {op : Operand} {rm : Nat} (h : op.Wf)
    (hrm : findRm op.base op.index = some rm) :
    (modField op rm = 0 ∧ rm ≠ 6 ∧ op.disp = 0) ∨ (modField op rm = 1 ∧ fitsByte op.disp = true) ∨
      modField op rm = 2 := by
  have hdisp : (if (rm == 6 && !op.hasDisp && op.base == some R_BP && op.index.isNone) = true
      then 0 else op.disp) = op.disp := modrmDisp_eq h rm
  unfold modField
  simp only [hdisp]
  split_ifs with h0 hfits
  · refine .inl ⟨rfl, ?_⟩
    by_cases h6 : rm = 6
    · obtain ⟨hb, hi⟩ := base_of_six h hrm h6
      cases hd : op.hasDisp <;> simp [h6, hb, hi, hd] at h0
    · refine ⟨h6, ?_⟩
      cases hd : op.hasDisp with
      | false => exact h.disp hd
      | true => simpa [hd, h6] using h0
  · exact .inr (.inl ⟨rfl, hfits⟩)
  · exact .inr (.inr rfl)

section Parts

variable {modrm mod field rm : Nat}
  (h : modrm / 64 = mod ∧ modrm / 8 % 8 = field ∧ modrm % 8 = rm) (rest : List Nat)

include h

theorem decodeRm_none (h0 : mod = 0) (h6 : rm ≠ 6) :
    decodeRm (modrm :: rest) = some (field, .mem { regs := rmRegs rm, disp := 0 }, rest) := by
  simp [decodeRm, h, h0, h6]

theorem decodeRm_byte (h1 : mod = 1) (d : Nat) : decodeRm (modrm :: d :: rest) =
    some (field, .mem { regs := rmRegs rm, disp := signExtend d }, rest) := by
  simp [decodeRm, h, h1]

theorem decodeRm_word (h2 : mod = 0 ∧ rm = 6 ∨ mod = 2) (low high : Nat) :
    decodeRm (modrm :: low :: high :: rest) =
      some (field, .mem { regs := if mod = 0 then [] else rmRegs rm, disp := low + 256 * high },
        rest) := by
  obtain ⟨h0, h6⟩ | h2 := h2
  · simp [decodeRm, h, h0, h6]
  · simp [decodeRm, h, h2]

end Parts

/-- **A memory operand is read back**, whatever follows. -/
theorem decodeRm_mem {op : Operand} {r : Nat} (h : op.Wf) (hr : r < 8)
    (he : (emitModrmMem op r).errors = 0) (rest : List Nat) :
    decodeRm ((emitModrmMem op r).bytes ++ rest) = some (r, .mem op.memRef, rest) := by
  cases hd : op.isDirect with
  | true =>
    have hregs : op.regs = [] := by
      simp only [Operand.isDirect, Bool.and_eq_true, Option.isNone_iff_eq_none] at hd
      rw [Operand.regs, hd.1, hd.2]
    have hmodrm := modrmByte_eq (show 0 < 4 by decide) hr (show 6 < 8 by decide)
    rw [emitModrmMem, hd, if_pos rfl]
    show decodeRm (toByte (modrmByte 0 r 6) :: toByte op.disp :: toByte (op.disp / 256) :: rest) = _
    rw [hmodrm, decodeRm_word (modrm_parts hr (by decide)) _ (.inl ⟨rfl, rfl⟩), word_toByte]
    simp [Operand.memRef, hregs]
  | false =>
    obtain ⟨rm, hrm⟩ := emitModrmMem_form he hd
    obtain ⟨hlt, hregs, -⟩ := findRm_regs hrm
    rw [emitModrmMem, hd, if_neg Bool.false_ne_true, hrm]
    simp only [modrmDisp_eq h rm]
    obtain ⟨hm, h6, h0⟩ | ⟨hm, hfits⟩ | hm := modField_cases h hrm
    · rw [hm]
      show decodeRm (toByte (modrmByte 0 r rm) :: rest) = _
      rw [modrmByte_eq (by decide) hr hlt, decodeRm_none (modrm_parts hr hlt) _ rfl h6, hregs]
      simp [Operand.memRef, h0]
    · rw [hm]
      show decodeRm (toByte (modrmByte 1 r rm) :: toByte op.disp :: rest) = _
      rw [modrmByte_eq (by decide) hr hlt, decodeRm_byte (modrm_parts hr hlt) _ rfl,
        signExtend_toByte hfits, hregs]
      rfl
    · rw [hm]
      show decodeRm (toByte (modrmByte 2 r rm) :: toByte op.disp :: toByte (op.disp / 256) :: rest)
        = _
      rw [modrmByte_eq (by decide) hr hlt, decodeRm_word (modrm_parts hr hlt) _ (.inr rfl),
        word_toByte, hregs]
      rfl

/-- **A register operand is read back.** -/
theorem decodeRm_reg {r n : Nat} (hr : r < 8) (hn : n < 8) (rest : List Nat) :
    decodeRm ((emitModrmReg r n).bytes ++ rest) = some (r, .reg n, rest) := by
  obtain ⟨h1, h2, h3⟩ := @modrm_parts 3 _ _ hr hn
  show decodeRm (toByte (modrmByte 3 r n) :: rest) = _
  rw [modrmByte_eq (by decide) hr hn]
  simp only [decodeRm, h1, h2, h3, if_true]

/-! ## Every memory operand -/

/-- The rows of the table are the eight forms, and a row is found in either operand order. -/
theorem findRm_isSome (op : Operand) (hd : op.isDirect = false) :
    (findRm op.base op.index).isSome = true ↔ ∃ rm < 8, rmRegs rm = op.regs := by
  constructor
  · intro hsome
    obtain ⟨rm, hrm⟩ := Option.isSome_iff_exists.mp hsome
    obtain ⟨hlt, hregs, -⟩ := findRm_regs hrm
    exact ⟨rm, hlt, hregs⟩
  · rintro ⟨rm, hlt, hregs⟩
    unfold Operand.regs at hregs
    have hone : ∀ rm < 8, ∀ a ∈ rmRegs rm, rmRegs rm = [a] →
        (findRm (some a) none).isSome = true ∧ (findRm none (some a)).isSome = true := by decide
    have htwo : ∀ rm < 8, ∀ x ∈ rmRegs rm, ∀ y ∈ rmRegs rm, rmRegs rm = [x, y] →
        (findRm (some x) (some y)).isSome = true ∧ (findRm (some y) (some x)).isSome = true := by
      decide
    cases hb : op.base with
    | none =>
      cases hi : op.index with
      | none => simp [Operand.isDirect, hb, hi] at hd
      | some b =>
        rw [hb, hi] at hregs
        exact (hone rm hlt b (by simp [hregs]) hregs).2
    | some a =>
      cases hi : op.index with
      | none =>
        rw [hb, hi] at hregs
        exact (hone rm hlt a (by simp [hregs]) hregs).1
      | some b =>
        rw [hb, hi] at hregs
        obtain ⟨h1, h2⟩ := htwo rm hlt _ (by simp [hregs]) _ (by simp [hregs]) hregs
        rcases Nat.le_total a b with hab | hab
        · rw [Nat.min_eq_left hab, Nat.max_eq_right hab] at h1
          exact h1
        · rw [Nat.min_eq_right hab, Nat.max_eq_left hab] at h2
          exact h2

theorem isDirect_iff (op : Operand) : op.isDirect = true ↔ op.regs = [] := by
  unfold Operand.isDirect Operand.regs
  cases op.base <;> cases op.index <;> simp

/-- The error is that of a combination of registers that is no form. -/
theorem emitModrmMem_errors (op : Operand) (r : Nat) : (emitModrmMem op r).errors = 0 ↔
    op.regs = [] ∨ ∃ rm < 8, rmRegs rm = op.regs := by
  cases hd : op.isDirect with
  | true =>
    rw [emitModrmMem, hd, if_pos rfl]
    exact iff_of_true rfl (.inl ((isDirect_iff op).mp hd))
  | false =>
    have hregs : op.regs ≠ [] := fun h => by
      rw [(isDirect_iff op).mpr h] at hd
      cases hd
    rw [or_iff_right hregs, ← findRm_isSome op hd]
    constructor
    · intro he
      obtain ⟨rm, hrm⟩ := emitModrmMem_form he hd
      rw [hrm]
      rfl
    · intro hsome
      obtain ⟨rm, hrm⟩ := Option.isSome_iff_exists.mp hsome
      rw [emitModrmMem, hd, if_neg Bool.false_ne_true, hrm]
      simp only []
      split_ifs <;> rfl

/-- `BP` alone has a displacement byte. -/
theorem emitModrmMem_bp {op : Operand} (h : op.Wf) {r : Nat} (hr : r < 8)
    (hbp : op.regs = [R_BP]) (hdisp : op.hasDisp = false) :
    (emitModrmMem op r).bytes = [64 + 8 * r + 6, 0] := by
  have hparts : op.base = some R_BP ∧ op.index = none := by
    unfold Operand.regs at hbp
    cases hb : op.base with
    | none =>
      cases hi : op.index with
      | none => simp [hb, hi] at hbp
      | some b =>
        have hb' : b = R_BP := by simpa [hb, hi] using hbp
        have := h.bp (hi.trans (congrArg some hb'))
        rw [hb] at this
        cases this
    | some a =>
      cases hi : op.index with
      | none => simpa [hb, hi] using hbp
      | some b => simp [hb, hi] at hbp
  have hd : op.isDirect = false := by simp [Operand.isDirect, hparts]
  have hrm : findRm op.base op.index = some 6 := by
    rw [hparts.1, hparts.2]
    rfl
  have hmod : modField op 6 = 1 := by simp [modField, hparts, hdisp, fitsByte]
  have h0 : modrmDisp op 6 = 0 := by simp [modrmDisp, hparts, hdisp]
  rw [emitModrmMem, hd, if_neg Bool.false_ne_true, hrm]
  simp only [hmod, h0]
  show [toByte (modrmByte 1 r 6), toByte 0] = _
  rw [modrmByte_eq (by decide) hr (by decide)]
  rfl

/-- **Every memory operand is encoded or refused.** It is refused exactly when it is neither a
direct address nor one of the eight forms, in either operand order; otherwise the bytes are read
back as the same registers, field and displacement. -/
theorem emitModrmMem_encodes {op : Operand} (h : op.Wf) {r : Nat} (hr : r < 8) (rest : List Nat) :
    ((emitModrmMem op r).errors = 0 ↔ op.regs = [] ∨ ∃ rm < 8, rmRegs rm = op.regs) ∧
      ((emitModrmMem op r).errors = 0 →
        decodeRm ((emitModrmMem op r).bytes ++ rest) = some (r, .mem op.memRef, rest)) ∧
      (op.regs = [R_BP] → op.hasDisp = false →
        (emitModrmMem op r).bytes = [64 + 8 * r + 6, 0]) :=
  ⟨emitModrmMem_errors op r, fun he => decodeRm_mem h hr he rest, emitModrmMem_bp h hr⟩

/-- `[BP]`, with the field 3. -/
theorem emitModrmMem_encodes_bp :
    let op : Operand := { type := .mem, base := some R_BP }
    (emitModrmMem op 3).bytes = [94, 0] ∧
      decodeRm ((emitModrmMem op 3).bytes ++ []) = some (3, .mem op.memRef, []) := by
  have hwf : Operand.Wf { type := .mem, base := some R_BP } := by
    constructor <;> simp
  obtain ⟨-, hread, hbp⟩ := emitModrmMem_encodes hwf (show 3 < 8 by decide) []
  exact ⟨hbp rfl rfl, hread (by decide)⟩

end Nib.Asm
