import Nib.Bind.Spec.Bound
import Nib.Bind.Properties.Widths

/-!
# Checked indexes

* `below_eq` — the comparison that is assembled
* `runBound_eq` — what the lines of a check do
* `IndexVreg.checked_iff` — when a check is that of the array
-/

namespace Nib.Bind

open Nib.Asm

variable {cpu : IndexCpu} {op : Asm.Operand} {n : Int}

example : (parseOperand { labels := [], pass2 := true } { ptr := " CX".toList }).1 =
    Preg.cx.operand := by
  decide

/-! ## The comparison -/

/-- An operand of a register or of memory that is encoded. -/
structure Comparable (op : Asm.Operand) : Prop where
  wf : op.Wf
  override : op.override = none
  errors : ∀ r, (emitModrm op r).errors = 0

theorem asmAlu_imm_errors (h : Comparable op) (k : Nat) (n : Int) :
    (asmAlu k op (immOperand n)).errors = 0 := by
  have himm : (immOperand n).isImm = true := rfl
  unfold asmAlu
  rw [if_pos himm]
  split_ifs
  · rfl
  · rfl
  · simp only [Enc.errors_append, h.errors]
    rfl
  · simp only [Enc.errors_append, h.errors]
    unfold emitImm
    split_ifs <;> rfl

theorem below_alu (cpu : IndexCpu) (n : Int) : cpu.below (.alu 7 op (immOperand n)) =
    if (asmAlu 7 op (immOperand n)).errors ≠ 0 then none
    else
      match decode (asmAlu 7 op (immOperand n)).bytes with
      | some ({ op := .cmp, width, args := [a, b] }, []) =>
        some (decide (cpu.read width a < cpu.read width b))
      | _ => none := rfl

theorem below_eq (h : Comparable op) (cpu : IndexCpu) (n : Int) :
    cpu.below (.alu 7 op (immOperand n)) = some (decide (cpu.read op.width op.rmArg.arg <
      (n % (if op.width = 2 then 65536 else 256)).toNat)) := by
  have he := asmAlu_imm_errors h 7 n
  obtain ⟨-, hreads⟩ := asmAlu_imm_reads (o := .cmp) (show 7 < 8 by decide) rfl h.wf h.override
    (show (immOperand n).isImm = true from rfl) he
  have hdecode := hreads []
  rw [List.append_nil] at hdecode
  rw [below_alu, if_neg (not_not.mpr he), hdecode]
  rfl

/-- A constant is no first operand. -/
theorem below_imm (h : op.type = .imm) (cpu : IndexCpu) (n : Int) :
    cpu.below (.alu 7 op (immOperand n)) = none := by
  have herr : ∀ r, (emitModrm op r).errors = 1 := fun r => by
    simp only [emitModrm, Asm.Operand.isReg, Asm.Operand.isMem, h]
    rfl
  have he : (asmAlu 7 op (immOperand n)).errors ≠ 0 := by
    have himm : (immOperand n).isImm = true := rfl
    unfold asmAlu
    rw [if_pos himm]
    split_ifs with hax hal
    · simp [Asm.Operand.isAx, Asm.Operand.isReg, h] at hax
    · simp [Asm.Operand.isAl, Asm.Operand.isReg, h] at hal
    · simp only [Enc.errors_append, herr]
      omega
    · simp only [Enc.errors_append, herr]
      omega
  exact if_pos he

/-! ## The lines -/

theorem runBound_eq {v : IndexVreg} {limit : Int} (h : limit > 0) (cpu : IndexCpu) (carry : Bool) :
    runBound cpu carry (emitBound v limit) =
      (cpu.below (.alu 7 v.vregAsm (immOperand limit))).map fun below =>
        if below then .continues else .interrupts := by
  rw [emitBound, if_pos h]
  show (cpu.below _).bind _ = _
  rw [Option.map_eq_bind]
  refine congrArg _ (funext fun below => ?_)
  cases below <;> rfl

/-- A comparison of numbers of a width is that with the length exactly when the length has it. -/
theorem below_iff {w n : Int} (hn : 1 ≤ n) (hw : 0 < w) :
    (∀ x : Nat, (x : Int) < w → (x < (n % w).toNat ↔ (x : Int) < n)) ↔ n < w := by
  constructor
  · intro h
    by_contra hle
    have hmod := Int.emod_lt_of_pos n hw
    have := (h (w - 1).toNat (by omega)).mpr (by omega)
    omega
  · intro hlt x _
    rw [Int.emod_eq_of_lt (by omega) hlt]
    omega

/-- What a check has to do, and what it does, for an index that is compared in a width. -/
theorem outcome_iff {p q : Prop} [Decidable p] [Decidable q] :
    (some (if decide p = true then BoundOutcome.continues else .interrupts) =
      some (if q then .continues else .interrupts)) ↔ (p ↔ q) := by
  by_cases hp : p <;> by_cases hq : q <;> simp [hp, hq]

namespace IndexVreg

variable {v : IndexVreg} {elem : Compile.Ty}

/-- Without a positive length there is no check. -/
theorem not_checked (hn : n ≤ 0) (hpos : ∀ cpu, 0 ≤ v.value cpu) : ¬v.Checked elem n := by
  intro h
  have hlen : Compile.checkedLength (some (.array elem n)) = 0 := if_neg (by omega)
  have hrun := h { reg := fun _ => 0, mem := fun _ => 0 } false
  rw [hlen] at hrun
  have := hpos { reg := fun _ => 0, mem := fun _ => 0 }
  rw [if_neg (by omega)] at hrun
  cases hrun

/-- The check of an operand that is compared. -/
theorem checked_of_comparable (hn : 1 ≤ n) (h : Comparable v.vregAsm) : v.Checked elem n ↔
    ∀ cpu : IndexCpu, cpu.read v.vregAsm.width v.vregAsm.rmArg.arg <
      (n % (if v.vregAsm.width = 2 then 65536 else 256)).toNat ↔ v.value cpu < n := by
  have hlen : Compile.checkedLength (some (.array elem n)) = n := if_pos (by omega)
  unfold Checked
  rw [hlen]
  simp only [runBound_eq (show n > 0 by omega), below_eq h, Option.map_some, outcome_iff]
  exact ⟨fun h cpu => h cpu false, fun h cpu _ => h cpu⟩

theorem not_checked_of_imm (hn : 1 ≤ n) (h : v.vregAsm.type = .imm) : ¬v.Checked elem n := by
  intro hall
  have hlen : Compile.checkedLength (some (.array elem n)) = n := if_pos (by omega)
  have hrun := hall { reg := fun _ => 0, mem := fun _ => 0 } false
  rw [hlen, runBound_eq (by omega), below_imm h] at hrun
  cases hrun

/-! ## The index -/

/-- An index that takes every value of its width and is compared in it. -/
theorem compared_iff {w : Nat} (hn : 1 ≤ n) {f : IndexCpu → Nat} (hw : 0 < w)
    (hlt : ∀ cpu, f cpu < w) (hsurj : ∀ x < w, ∃ cpu, f cpu = x) :
    (∀ cpu, f cpu < (n % (w : Int)).toNat ↔ (f cpu : Int) < n) ↔ n < w := by
  rw [← below_iff hn (by omega)]
  constructor
  · intro h x hx
    obtain ⟨cpu, rfl⟩ := hsurj x (by omega)
    exact h cpu
  · exact fun h cpu => h (f cpu) (by exact_mod_cast hlt cpu)

theorem byteReg_lt (cpu : IndexCpu) (c : Nat) : cpu.byteReg c < 256 := by
  have h1 := (cpu.reg c).isLt
  have h2 := (cpu.reg (c - 4)).isLt
  unfold IndexCpu.byteReg
  split_ifs <;> omega

theorem byteReg_surjective (c : Nat) : ∀ x < 256, ∃ cpu : IndexCpu, cpu.byteReg c = x := by
  intro x hx
  refine ⟨{ reg := fun _ => BitVec.ofNat 16 (x * 257), mem := fun _ => 0 }, ?_⟩
  have hmod : x * 257 % 2 ^ 16 = x * 257 := Nat.mod_eq_of_lt (by omega)
  simp only [IndexCpu.byteReg, BitVec.toNat_ofNat, hmod]
  split_ifs <;> omega

theorem reg_surjective (c : Nat) : ∀ x < 65536, ∃ cpu : IndexCpu, (cpu.reg c).toNat = x := by
  intro x hx
  refine ⟨{ reg := fun _ => BitVec.ofNat 16 x, mem := fun _ => 0 }, ?_⟩
  simp only [BitVec.toNat_ofNat]
  omega

theorem mem_surjective (ref : MemRef) : ∀ x < 256, ∃ cpu : IndexCpu, (cpu.mem ref).toNat = x := by
  intro x hx
  refine ⟨{ reg := fun _ => 0, mem := fun _ => BitVec.ofNat 8 x }, ?_⟩
  simp only [BitVec.toNat_ofNat]
  omega

theorem code_lt (r : Preg) : r.code < 8 := by
  cases r <;> decide

theorem comparable_reg {c size : Nat} (hc : c < 8) (hsize : size ≤ 2) (hpos : size ≠ 0) :
    Comparable { type := .reg, reg := c, size := size } where
  wf := ⟨hc, hsize, fun _ => hpos, nofun, fun _ => rfl, fun _ => rfl, nofun, nofun⟩
  override := rfl
  errors _ := rfl

theorem comparable_mem (m : MemVreg) : Comparable m.vregAsm where
  wf := (m.atBp 0 (by decide)).wf
  override := rfl
  errors := (m.atBp 0 (by decide)).errors

/-- A word in memory is compared by its low byte: an index of 256 passes the check of a short array,
and one of 255 does not pass that of a long one. -/
theorem word_not_compared (hn : 1 ≤ n) (ref : MemRef) :
    ¬∀ cpu : IndexCpu, (cpu.mem ref).toNat < (n % 256).toNat ↔ (cpu.word ref : Int) < n := by
  intro h
  let low (x : Nat) : IndexCpu :=
    { reg := fun _ => 0
      mem := fun r => if r = ref then BitVec.ofNat 8 x else BitVec.ofNat 8 (1 - x) }
  have hne : ({ ref with disp := (ref.disp + 1) % 65536 } : MemRef) ≠ ref := fun heq => by
    have := congrArg MemRef.disp heq
    simp only at this
    omega
  by_cases hshort : n < 256
  · have := h (low 0)
    simp only [IndexCpu.word, low, hne, if_true, if_false, BitVec.toNat_ofNat] at this
    omega
  · have := h (low 255)
    simp only [IndexCpu.word, low, hne, if_true, if_false, BitVec.toNat_ofNat] at this
    omega

theorem value_nonneg (v : IndexVreg) (cpu : IndexCpu) : 0 ≤ v.value cpu := by
  unfold value
  split
  · split_ifs <;> exact Int.natCast_nonneg _
  · simp only
    split_ifs <;> exact Int.natCast_nonneg _
  · split_ifs <;> exact Int.emod_nonneg _ (by decide)
  · exact Int.emod_nonneg _ (by decide)

/-- **The check is that of the array exactly when the length has the width of the comparison**: a
byte in a register or in memory, or a word in a register. -/
theorem checked_iff (v : IndexVreg) (hv : v.Placed) (elem : Compile.Ty) (n : Int) :
    v.Checked elem n ↔ v.Checkable n := by
  by_cases hn : 1 ≤ n
  case neg => exact iff_of_false (not_checked (by omega) v.value_nonneg) fun h => hn h.1
  obtain ⟨isByte, home⟩ := v
  unfold Checkable
  rw [and_iff_right hn]
  cases home with
  | reg r =>
    have hplaced := hv r rfl
    cases isByte with
    | true =>
      have hr : r.isByte = true := hplaced
      have hop : r.operand = { type := .reg, reg := r.code, size := 1 } := by
        cases r <;> first | rfl | cases hr
      have hcomp : Comparable (vregAsm ⟨true, .reg r⟩) := by
        show Comparable r.operand
        rw [hop]
        exact comparable_reg (code_lt r) (by decide) (by decide)
      rw [checked_of_comparable hn hcomp]
      simp only [vregAsm, hop]
      exact compared_iff hn (by decide) (fun cpu => byteReg_lt cpu r.code)
        (byteReg_surjective r.code)
    | false =>
      have hr : r.isWord = true := hplaced
      have hop : r.operand = { type := .reg, reg := r.code, size := 2 } := by
        cases r <;> first | rfl | cases hr
      have hcomp : Comparable (vregAsm ⟨false, .reg r⟩) := by
        show Comparable r.operand
        rw [hop]
        exact comparable_reg (code_lt r) (by decide) (by decide)
      rw [checked_of_comparable hn hcomp]
      simp only [vregAsm, hop]
      exact compared_iff hn (by decide) (fun cpu => (cpu.reg r.code).isLt) (reg_surjective r.code)
  | mem home =>
    have hcomp : Comparable (vregAsm ⟨isByte, .mem home⟩) := comparable_mem _
    rw [checked_of_comparable hn hcomp]
    cases isByte with
    | true =>
      rw [and_iff_right rfl]
      exact compared_iff hn (by decide) (fun cpu => (cpu.mem _).isLt) (mem_surjective _)
    | false => exact iff_of_false (word_not_compared hn _) (by simp)
  | rematImm m => exact iff_of_false (not_checked_of_imm hn rfl) id
  | rematLabel name value => exact iff_of_false (not_checked_of_imm hn rfl) id

/-- A word index in `CX`, for ten elements. -/
theorem checked_iff_cx : ({ isByte := false, home := .reg .cx } : IndexVreg).Checked .u8 10 ↔
    ({ isByte := false, home := .reg .cx } : IndexVreg).Checkable 10 := by
  refine checked_iff _ ?_ .u8 10
  rintro r ⟨⟩
  rfl

/-- 255 in `AL` is an index of 256 elements, and the interrupt comes; 256 in a slot of the frame is
none of ten, and it does not come. -/
theorem not_checked_al :
    let al : IndexVreg := { isByte := true, home := .reg .al }
    let slot : IndexVreg := { isByte := false, home := .mem (.spill 0 0) }
    let ones : IndexCpu := { reg := fun _ => 255, mem := fun _ => 0 }
    let high : IndexCpu :=
      { reg := fun _ => 0, mem := fun r => if r.disp = 65535 then 1 else 0 }
    (al.value ones = 255 ∧ runBound ones false (emitBound al 256) = some .interrupts) ∧
      (slot.value high = 256 ∧ runBound high false (emitBound slot 10) = some .continues) ∧
      ¬∀ (v : IndexVreg) elem n, v.Placed → v.Checked elem n := by
  refine ⟨⟨by decide, by decide⟩, ⟨by decide, by decide⟩, fun h => ?_⟩
  have hall := h { isByte := true, home := .reg .al } .u8 256 (by rintro r ⟨⟩; rfl)
    { reg := fun _ => 255, mem := fun _ => 0 } false
  exact absurd hall (by decide)

end IndexVreg

end Nib.Bind
