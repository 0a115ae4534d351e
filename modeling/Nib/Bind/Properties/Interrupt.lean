import Nib.Infra.Run
import Nib.Bind.Spec.Interrupt

/-!
# The interrupt wrapper restores what it saves

* `run_saveSet`, `run_restoreSet` — what has been saved is restored in the opposite order
* `exists_start` — the state in which the body starts
* `epilogue_restores` — the state after `iret`
* `transparent_iff` — a handler is transparent if and only if its body leaves the registers that are
  not saved
-/

namespace Nib.Bind

open Nib.Infra

variable {segs : String → BitVec 16}

/-! ## Registers -/

namespace Cpu

@[simp] theorem setReg_reg (s : Cpu) (r r' : Preg) (w : BitVec 16) :
    (s.setReg r w).reg r' = if r' = r then w else s.reg r' := by
  simp [setReg, Function.update_apply]

@[simp] theorem drop_sp (s : Cpu) (n : Nat) : (s.drop n).sp = s.sp + BitVec.ofNat 16 (2 * n) := by
  simp [drop, sp]

theorem drop_reg (s : Cpu) (n : Nat) {r : Preg} (h : r ≠ .sp) : (s.drop n).reg r = s.reg r := by
  simp [drop, h]

theorem setReg_sp (s : Cpu) {r : Preg} (w : BitVec 16) (h : r ≠ .sp) :
    (s.setReg r w).sp = s.sp := by
  simp [sp, Ne.symm h]

theorem push_reg (s : Cpu) (ws : List (BitVec 16)) {r : Preg} (h : r ≠ .sp) :
    (s.push ws).reg r = s.reg r := by
  simp [push, setReg, h]

theorem push_sp (s : Cpu) (ws : List (BitVec 16)) :
    (s.push ws).sp = s.sp - BitVec.ofNat 16 (2 * ws.length) := by
  rw [← pushWords_sp s.stack]
  simp [push, setReg, sp]

theorem push_stack (s : Cpu) (ws : List (BitVec 16)) :
    (s.push ws).stack = (pushWords s.stack s.sp ws).1 := rfl

theorem push_push (s : Cpu) (w : BitVec 16) (ws : List (BitVec 16)) :
    (s.push [w]).push ws = s.push (w :: ws) := by
  simp [push, setReg, pushWords, sp]

theorem push_nil (s : Cpu) : s.push [] = s := by
  simp [push, setReg, pushWords, sp]

/-- Words above the stack pointer stay when others are pushed. -/
theorem push_wordsAt {s : Cpu} {a : BitVec 16} {vs ws : List (BitVec 16)}
    (hroom : (a - s.sp).toNat + 2 * vs.length + 2 * ws.length ≤ 65536) (h : wordsAt s.stack a vs) :
    wordsAt (s.push ws).stack a vs := wordsAt_pushWords hroom h

theorem push_wordsAt_sp {s : Cpu} {vs ws : List (BitVec 16)}
    (hroom : 2 * vs.length + 2 * ws.length ≤ 65536) (h : wordsAt s.stack s.sp vs) :
    wordsAt (s.push ws).stack (s.push ws).sp (ws.reverse ++ vs) := by
  rw [push_sp, ← pushWords_sp s.stack, push_stack]
  exact pushWords_wordsAt hroom h

end Cpu

/-! ## Saving and restoring -/

theorem wrapRun_runs : RunsBy (wrapStep segs) (wrapRun segs) := ⟨fun _ => rfl, fun _ _ _ => rfl⟩

theorem wrapRun_append {is js : List WrapInsn} {s : Cpu} :
    wrapRun segs (is ++ js) s = (wrapRun segs is s).bind (wrapRun segs js) :=
  wrapRun_runs.append_eq is js s

/-- Registers that can be saved and restored. -/
def Preg.Savable (r : Preg) : Prop := r.canPop = true ∨ r = .flags

theorem Preg.Savable.ne_sp {r : Preg} (h : r.Savable) : r ≠ .sp := by
  rintro rfl
  rcases h with h | h <;> cases h

theorem wrapStep_savedPush {r : Preg} (h : r.Savable) (s : Cpu) :
    wrapStep segs (emitSavedPush r) s = some (s.push [s.reg r]) := by
  rcases h with h | rfl
  · have hpush : r.canPush = true := by
      unfold Preg.canPop at h
      exact (Bool.and_eq_true _ _ ▸ h).1
    cases r <;> first | rfl | cases hpush
  · rfl

theorem wrapStep_savedPop {r : Preg} (h : r.Savable) (s : Cpu) :
    wrapStep segs (emitSavedPop r) s = some ((s.drop 1).setReg r (s.peek 0)) := by
  rcases h with h | rfl
  · cases r <;> first | rfl | cases h
  · rfl

theorem savable_of_savedPop {r : Preg} {s t : Cpu}
    (h : wrapStep segs (emitSavedPop r) s = some t) : r.Savable := by
  cases r <;> first | exact .inl rfl | exact .inr rfl | cases h

/-- The registers are pushed one after the other. -/
theorem run_saveSet : ∀ {rs : List Preg} (s : Cpu), (∀ r ∈ rs, r.Savable) →
    wrapRun segs (rs.map emitSavedPush) s = some (s.push (rs.map s.reg))
  | [], s, _ => congrArg some (Cpu.push_nil s).symm
  | r :: rs, s, h => by
    have hrest : ∀ r ∈ rs, r.Savable := fun q hq => h q (List.mem_cons_of_mem _ hq)
    have hregs : rs.map (s.push [s.reg r]).reg = rs.map s.reg := by
      refine List.map_congr_left fun q hq => ?_
      exact Cpu.push_reg s _ (hrest q hq).ne_sp
    rw [List.map_cons, wrapRun, wrapStep_savedPush (h r (List.mem_cons_self ..))]
    rw [Option.bind_some, run_saveSet _ hrest, hregs, Cpu.push_push, List.map_cons]

/-- Registers that get back the values on the stack, one after the other. -/
theorem run_restoreSet {f : Preg → BitVec 16} {vs : List (BitVec 16)} :
    ∀ {rs : List Preg} {s : Cpu}, (∀ r ∈ rs, r.Savable) →
    wordsAt s.stack s.sp (rs.map f ++ vs) → ∃ t, wrapRun segs (rs.map emitSavedPop) s = some t ∧
      t.stack = s.stack ∧ t.sp = s.sp + BitVec.ofNat 16 (2 * rs.length) ∧
      ∀ r, r ≠ .sp → t.reg r = if r ∈ rs then f r else s.reg r
  | [], s, _, _ => ⟨s, rfl, rfl, (BitVec.add_zero _).symm, fun r _ => by simp⟩
  | r :: rs, s, hsav, ⟨hw, hws⟩ => by
    have hr := hsav r (List.mem_cons_self ..)
    have hpeek : s.peek 0 = f r := by
      rw [Cpu.peek, Nat.mul_zero, BitVec.add_zero]
      exact hw
    have hsp : ((s.drop 1).setReg r (s.peek 0)).sp = s.sp + 2 := by
      rw [Cpu.setReg_sp _ _ hr.ne_sp, Cpu.drop_sp]
      rfl
    have hrest : wordsAt ((s.drop 1).setReg r (s.peek 0)).stack
        ((s.drop 1).setReg r (s.peek 0)).sp (rs.map f ++ vs) := by
      rw [hsp]
      exact hws
    obtain ⟨t, hrun, hstack, htsp, hregs⟩ :=
      run_restoreSet (fun q hq => hsav q (List.mem_cons_of_mem _ hq)) hrest
    refine ⟨t, ?_, hstack, ?_, fun q hq => ?_⟩
    · rw [List.map_cons, wrapRun, wrapStep_savedPop hr]
      exact hrun
    · rw [htsp, hsp, List.length_cons]
      bv_omega
    · rw [hregs q hq, Cpu.setReg_reg, hpeek, Cpu.drop_reg s 1 hq]
      by_cases hqr : q = r
      · subst hqr
        simp
      · simp [hqr]

theorem savable_of_restoreSet : ∀ {rs : List Preg} {s t : Cpu},
    wrapRun segs (rs.map emitSavedPop) s = some t → ∀ r ∈ rs, r.Savable
  | r :: rs, s, t, h, q, hq => by
    rw [List.map_cons, wrapRun] at h
    obtain ⟨s', hstep, hrest⟩ := Option.bind_eq_some_iff.mp h
    rcases List.mem_cons.mp hq with rfl | hq
    · exact savable_of_savedPop hstep
    · exact savable_of_restoreSet hrest q hq

/-- `popa` gives back what `pusha` has stored. -/
theorem run_popa {f : Preg → BitVec 16} {vs : List (BitVec 16)} {s : Cpu}
    (h : wordsAt s.stack s.sp ((pushaRegs.map f).reverse ++ vs)) :
    ∃ t, wrapStep segs .popa s = some t ∧ t.stack = s.stack ∧ t.sp = s.sp + 16 ∧
      ∀ r, r ≠ .sp → t.reg r = if coveredByPusha r then f r else s.reg r := by
  have hpeek : ∀ (i : Nat) (hi : i < ((pushaRegs.map f).reverse ++ vs).length),
      s.peek i = ((pushaRegs.map f).reverse ++ vs)[i] := fun i hi => readWord_of_wordsAt i hi h
  have hlen : 8 ≤ ((pushaRegs.map f).reverse ++ vs).length := by simp [pushaRegs]
  have h0 : s.peek 0 = f .di := hpeek 0 (by omega)
  have h1 : s.peek 1 = f .si := hpeek 1 (by omega)
  have h2 : s.peek 2 = f .bp := hpeek 2 (by omega)
  have h4 : s.peek 4 = f .bx := hpeek 4 (by omega)
  have h5 : s.peek 5 = f .dx := hpeek 5 (by omega)
  have h6 : s.peek 6 = f .cx := hpeek 6 (by omega)
  have h7 : s.peek 7 = f .ax := hpeek 7 (by omega)
  refine ⟨_, rfl, rfl, ?_, fun r hr => ?_⟩
  · simp [Cpu.sp, Cpu.drop]
  · simp only [Cpu.setReg_reg, Cpu.drop_reg s 8 hr, h0, h1, h2, h4, h5, h6, h7]
    cases r <;> rfl

/-! ## What a push does -/

/-- `ws` have been pushed, and at most `n` words below the stack pointer have been written. -/
structure Pushed (n : Nat) (ws : List (BitVec 16)) (s t : Cpu) : Prop where
  length : ws.length ≤ n
  sp : t.sp = s.sp - BitVec.ofNat 16 (2 * ws.length)
  above : ∀ {a vs}, (a - s.sp).toNat + 2 * vs.length + 2 * n ≤ 65536 → wordsAt s.stack a vs →
    wordsAt t.stack a vs
  top : ∀ {vs}, 2 * vs.length + 2 * n ≤ 65536 → wordsAt s.stack s.sp vs →
    wordsAt t.stack t.sp (ws.reverse ++ vs)

theorem pushed_push (s : Cpu) (ws : List (BitVec 16)) : Pushed ws.length ws s (s.push ws) where
  length := Nat.le_refl _
  sp := Cpu.push_sp s ws
  above := Cpu.push_wordsAt
  top := Cpu.push_wordsAt_sp

theorem Pushed.trans {n m : Nat} {ws vs : List (BitVec 16)} {s t u : Cpu} (h : Pushed n ws s t)
    (h' : Pushed m vs t u) : Pushed (n + m) (ws ++ vs) s u where
  length := by
    rw [List.length_append]
    exact Nat.add_le_add h.length h'.length
  sp := by
    rw [h'.sp, h.sp, List.length_append]
    bv_omega
  above := by
    intro a us hroom hus
    cases us with
    | nil => trivial
    | cons u us =>
      have hlen := h.length
      have hsp := h.sp
      rw [List.length_cons] at hroom
      have hd : (a - t.sp).toNat = (a - s.sp).toNat + 2 * ws.length := by
        rw [hsp]
        bv_omega
      have hus' := h.above (by rw [List.length_cons]; omega) hus
      exact h'.above (by rw [hd, List.length_cons]; omega) hus'
  top := by
    intro us hroom hus
    have hlen := h.length
    rw [List.reverse_append, List.append_assoc]
    refine h'.top ?_ (h.top (by omega) hus)
    rw [List.length_append, List.length_reverse]
    omega

/-- `AX` is used to set `DS`, and comes back. -/
theorem run_setDs (src : DsSource) (s : Cpu) :
    ∃ t, wrapRun segs [.push .ax, .movAx src, .movDsAx, .pop .ax] s = some t ∧ Pushed 1 [] s t ∧
      ∀ r, r ≠ .sp → t.reg r = if r = .ds then dsSourceValue segs src else s.reg r := by
  have hp := pushed_push s [s.reg .ax]
  have htop : wordsAt (s.push [s.reg .ax]).stack (s.push [s.reg .ax]).sp [s.reg .ax] :=
    hp.top (by simp) (trivial : wordsAt s.stack s.sp [])
  have hpeek : (s.push [s.reg .ax]).peek 0 = s.reg .ax := by
    rw [Cpu.peek, Nat.mul_zero, BitVec.add_zero]
    exact htop.1
  let s₂ := ((s.push [s.reg .ax]).setReg .ax (dsSourceValue segs src)).setReg .ds
    (dsSourceValue segs src)
  have hsp₂ : s₂.sp = (s.push [s.reg .ax]).sp := by
    rw [Cpu.setReg_sp _ _ (by decide), Cpu.setReg_sp _ _ (by decide)]
  have hpeek₂ : s₂.peek 0 = s.reg .ax := by
    rw [← hpeek, Cpu.peek, Cpu.peek, hsp₂]
    rfl
  have hsp : ((s₂.drop 1).setReg .ax (s.reg .ax)).sp = s.sp := by
    rw [Cpu.setReg_sp _ _ (by decide), Cpu.drop_sp, hsp₂, hp.sp]
    show s.sp - 2 + 2 = s.sp
    bv_omega
  refine ⟨(s₂.drop 1).setReg .ax (s.reg .ax), ?_, ⟨Nat.zero_le _, ?_, hp.above, ?_⟩, ?_⟩
  · rw [← hpeek₂]
    show some _ = some _
    simp [s₂]
  · rw [hsp]
    exact (BitVec.sub_zero _).symm
  · intro vs hroom hvs
    rw [hsp]
    refine hp.above ?_ hvs
    rw [BitVec.sub_self, BitVec.toNat_zero, Nat.zero_add]
    exact hroom
  · intro r hr
    rw [Cpu.setReg_reg, Cpu.drop_reg _ _ hr]
    simp only [s₂, Cpu.setReg_reg]
    by_cases hax : r = .ax
    · subst hax
      rfl
    · rw [if_neg hax, if_neg hax, Cpu.push_reg _ _ hr]

/-! ## The wrapper -/

namespace Handler

variable {h : Handler}

/-- The registers that the wrapper pushes first. -/
def wrapperRegs (h : Handler) : List Preg :=
  if saveSetUsesPusha h.isrSave then pushaRegs else h.isrSave

/-- The registers that are pushed under the body. -/
def bodyRegs (h : Handler) : List Preg :=
  h.saveRegs ++ (if h.dsExplicitSave then [.ds] else [])

theorem wrapperWords_eq (h : Handler) : h.wrapperWords = h.wrapperRegs.length + 3 := by
  unfold wrapperWords wrapperRegs
  split <;> rfl

theorem savedWords_eq (h : Handler) : h.savedWords = h.bodyRegs.length := by
  unfold savedWords bodyRegs
  split <;> simp

theorem wordRegs_canPop : ∀ r ∈ wordRegs, r.canPop = true := by decide

theorem wordRegs_covered : ∀ r ∈ wordRegs, ¬(!coveredByPusha r) = true := by decide

theorem isrSave_savable : ∀ r ∈ h.isrSave, r.Savable := fun r hr =>
  .inl (wordRegs_canPop r (List.mem_filter.mp hr).1)

theorem isrSave_covered : h.isrSave.filter (fun r => !coveredByPusha r) = [] := by
  rw [List.filter_eq_nil_iff]
  exact fun r hr => wordRegs_covered r (List.mem_filter.mp hr).1

theorem run_saveIsr (s : Cpu) :
    wrapRun segs (emitSaveSet h.isrSave (saveSetUsesPusha h.isrSave)) s =
      some (s.push (h.wrapperRegs.map s.reg)) := by
  unfold emitSaveSet wrapperRegs
  cases saveSetUsesPusha h.isrSave with
  | true =>
    rw [isrSave_covered]
    rfl
  | false => exact run_saveSet s isrSave_savable

theorem run_restoreIsr {f : Preg → BitVec 16} {vs : List (BitVec 16)} {s : Cpu}
    (hw : wordsAt s.stack s.sp ((h.wrapperRegs.map f).reverse ++ vs)) :
    ∃ t, wrapRun segs (emitRestoreSet h.isrSave (saveSetUsesPusha h.isrSave)) s = some t ∧
      t.stack = s.stack ∧ t.sp = s.sp + BitVec.ofNat 16 (2 * h.wrapperRegs.length) ∧
      ∀ r, r ≠ .sp → t.reg r =
        if (if saveSetUsesPusha h.isrSave then coveredByPusha r else h.isrSave.contains r) then f r
        else s.reg r := by
  unfold wrapperRegs at hw ⊢
  unfold emitRestoreSet
  rw [isrSave_covered]
  cases hp : saveSetUsesPusha h.isrSave with
  | true =>
    rw [hp] at hw
    obtain ⟨t, hstep, hstack, hsp, hregs⟩ := run_popa hw
    refine ⟨t, ?_, hstack, hsp, hregs⟩
    show (wrapStep segs .popa s).bind some = some t
    rw [hstep]
    rfl
  | false =>
    rw [hp, if_neg Bool.false_ne_true, ← List.map_reverse] at hw
    obtain ⟨t, hrun, hstack, hsp, hregs⟩ :=
      run_restoreSet (fun r hr => isrSave_savable r (List.mem_reverse.mp hr)) hw
    refine ⟨t, hrun, hstack, ?_, fun r hr => ?_⟩
    · rw [hsp, List.length_reverse]
      rfl
    · rw [hregs r hr]
      simp

theorem bodyRegs_savable (hbody : ∀ r ∈ h.saveRegs, r.Savable) : ∀ r ∈ h.bodyRegs, r.Savable := by
  intro r hr
  rcases List.mem_append.mp hr with hr | hr
  · exact hbody r hr
  · split at hr
    · rw [List.mem_singleton] at hr
      subst hr
      exact .inl rfl
    · cases hr

/-- The registers that are pushed under the body, and `DS` after them. -/
theorem run_saveBody (hbody : ∀ r ∈ h.saveRegs, r.Savable) (s : Cpu) :
    ∃ t, wrapRun segs (emitSaveSet h.saveRegs false ++ h.emitDsSetup) s = some t ∧
      Pushed (h.bodyRegs.length + 1) (h.bodyRegs.map s.reg) s t ∧
      ∀ r, r ≠ .sp → t.reg r =
        if r = .ds then (h.dsPolicy.source?.map (dsSourceValue segs)).getD (s.reg .ds)
        else s.reg r := by
  have hsave : wrapRun segs (emitSaveSet h.saveRegs false) s =
      some (s.push (h.saveRegs.map s.reg)) := run_saveSet s hbody
  have hp := pushed_push s (h.saveRegs.map s.reg)
  rw [wrapRun_append, hsave, Option.bind_some]
  unfold bodyRegs emitDsSetup dsExplicitSave
  cases hsrc : h.dsPolicy.source? with
  | none =>
    refine ⟨_, rfl, ?_, fun r hr => ?_⟩
    · rw [Option.isSome_none, Bool.false_and, if_neg Bool.false_ne_true, List.append_nil]
      exact ⟨by simp, hp.sp, fun hroom => hp.above (by rw [List.length_map]; omega),
        fun hroom => hp.top (by rw [List.length_map]; omega)⟩
    · rw [Cpu.push_reg _ _ hr]
      split
      · next he =>
        subst he
        rfl
      · rfl
  | some src =>
    rw [Option.isSome_some, Bool.true_and]
    dsimp only
    cases hds : h.saveRegs.contains .ds with
    | true =>
      obtain ⟨t, hrun, hpush, hregs⟩ := run_setDs src (s.push (h.saveRegs.map s.reg))
      refine ⟨t, hrun, ?_, fun r hr => ?_⟩
      · have := hp.trans hpush
        rw [List.length_map] at this
        simpa using this
      · rw [hregs r hr, Cpu.push_reg _ _ hr]
        rfl
    | false =>
      have hpds := hp.trans (pushed_push (s.push (h.saveRegs.map s.reg))
        [(s.push (h.saveRegs.map s.reg)).reg .ds])
      obtain ⟨t, hrun, hpush, hregs⟩ := run_setDs src ((s.push (h.saveRegs.map s.reg)).push
        [(s.push (h.saveRegs.map s.reg)).reg .ds])
      refine ⟨t, hrun, ?_, fun r hr => ?_⟩
      · have := hpds.trans hpush
        rw [Cpu.push_reg _ _ (by decide)] at this
        simpa using this
      · rw [hregs r hr, Cpu.push_reg _ _ hr, Cpu.push_reg _ _ hr]
        rfl

/-- Popping them again. -/
theorem run_restoreBody (hbody : ∀ r ∈ h.saveRegs, r.Savable) {f : Preg → BitVec 16}
    {vs : List (BitVec 16)} {s : Cpu}
    (hw : wordsAt s.stack s.sp ((h.bodyRegs.map f).reverse ++ vs)) :
    ∃ t, wrapRun segs ((if h.dsExplicitSave then [.pop .ds] else []) ++
        emitRestoreSet h.saveRegs false) s = some t ∧
      t.stack = s.stack ∧ t.sp = s.sp + BitVec.ofNat 16 (2 * h.bodyRegs.length) ∧
      ∀ r, r ≠ .sp → t.reg r = if r ∈ h.bodyRegs then f r else s.reg r := by
  have hsav : ∀ r ∈ h.bodyRegs.reverse, r.Savable := fun r hr =>
    bodyRegs_savable hbody r (List.mem_reverse.mp hr)
  have heq : (if h.dsExplicitSave then [WrapInsn.pop .ds] else []) ++
      emitRestoreSet h.saveRegs false = h.bodyRegs.reverse.map emitSavedPop := by
    unfold bodyRegs emitRestoreSet
    cases h.dsExplicitSave <;> simp [emitSavedPop]
  rw [← List.map_reverse] at hw
  obtain ⟨t, hrun, hstack, hsp, hregs⟩ := run_restoreSet hsav hw
  refine ⟨t, ?_, hstack, ?_, fun r hr => ?_⟩
  · rw [heq]
    exact hrun
  · rw [hsp, List.length_reverse]
  · rw [hregs r hr]
    simp only [List.mem_reverse]

/-! ## Before the body -/

/-- The words of the interrupt. -/
def interruptWords (s : Cpu) : List (BitVec 16) := [s.peek 0, s.peek 1, s.peek 2]

theorem interruptWords_at (s : Cpu) : wordsAt s.stack s.sp (interruptWords s) := by
  refine ⟨?_, rfl, ?_, trivial⟩
  · rw [Cpu.peek, Nat.mul_zero, BitVec.add_zero]
  · have hadd : s.sp + 2 + 2 = s.sp + BitVec.ofNat 16 (2 * 2) := by bv_omega
    rw [hadd]
    rfl

/-- The words under the frame: what the wrapper has pushed, and the words of the interrupt. -/
def underFrame (h : Handler) (s : Cpu) : List (BitVec 16) :=
  (h.wrapperRegs.map s.reg).reverse ++ interruptWords s

theorem underFrame_length (s : Cpu) : (h.underFrame s).length = h.wrapperWords := by
  rw [wrapperWords_eq]
  simp [underFrame, interruptWords]

/-- The frame pointer of the handler. -/
def frameBase (h : Handler) (s : Cpu) : BitVec 16 :=
  s.sp - BitVec.ofNat 16 (2 * (h.wrapperRegs.length + 1))

/-- The registers after the frame has been set up. -/
def framedReg (h : Handler) (s : Cpu) (r : Preg) : BitVec 16 :=
  if h.needsFrame = true ∧ r = .bp then h.frameBase s else s.reg r

/-- The state in which the body starts. -/
structure Started (segs : String → BitVec 16) (h : Handler) (s s₁ : Cpu) : Prop where
  regs : ∀ r, r ≠ .sp → s₁.reg r =
    if r = .ds then (h.dsPolicy.source?.map (dsSourceValue segs)).getD (s.reg .ds)
    else h.framedReg s r
  top : wordsAt s₁.stack s₁.sp ((h.bodyRegs.map (h.framedReg s)).reverse ++
    if h.needsFrame then [] else h.underFrame s)
  frame : h.needsFrame = true → wordsAt s₁.stack (h.frameBase s) (s.reg .bp :: h.underFrame s)
  sp : h.needsFrame = false → s₁.sp =
    s.sp - BitVec.ofNat 16 (2 * h.wrapperRegs.length) - BitVec.ofNat 16 (2 * h.bodyRegs.length)

theorem run_frame (hframe : h.needsFrame = true) (s : Cpu) :
    ∃ t, wrapRun segs h.emitFrame s = some t ∧ t.stack = (s.push [s.reg .bp]).stack ∧
      t.sp = s.sp - 2 - BitVec.ofNat 16 h.frameSize ∧
      ∀ r, r ≠ .sp → t.reg r = if r = .bp then s.sp - 2 else s.reg r := by
  have hsp : ((s.push [s.reg .bp]).setReg .bp (s.push [s.reg .bp]).sp).sp = s.sp - 2 := by
    rw [Cpu.setReg_sp _ _ (by decide), Cpu.push_sp]
    rfl
  have hregs : ∀ r, r ≠ .sp → ((s.push [s.reg .bp]).setReg .bp (s.push [s.reg .bp]).sp).reg r =
      if r = .bp then s.sp - 2 else s.reg r := by
    intro r hr
    rw [Cpu.setReg_reg, Cpu.push_reg _ _ hr, Cpu.push_sp]
    rfl
  unfold emitFrame
  rw [if_pos hframe]
  by_cases hsize : 0 < h.frameSize
  · rw [if_pos hsize]
    refine ⟨_, rfl, rfl, ?_, fun r hr => ?_⟩
    · rw [← hsp]
      simp [Cpu.sp]
    · rw [Cpu.setReg_reg, if_neg hr]
      exact hregs r hr
  · rw [if_neg hsize]
    have hzero : h.frameSize = 0 := Nat.eq_zero_of_not_pos hsize
    refine ⟨_, rfl, rfl, ?_, hregs⟩
    rw [hsp, hzero]
    exact (BitVec.sub_zero _).symm

theorem sub_ofNat_sub_two (a : BitVec 16) (n : Nat) :
    a - BitVec.ofNat 16 (2 * n) - 2 = a - BitVec.ofNat 16 (2 * (n + 1)) := by
  bv_omega

theorem sub_sub_add_add (a x y z : BitVec 16) : a - x - y + y + x + z = a + z := by
  bv_omega

theorem toNat_sub_sub (a : BitVec 16) {n : Nat} (hn : n < 65536) :
    (a - (a - BitVec.ofNat 16 n)).toNat = n := by
  bv_omega

/-- The body starts with everything saved. -/
theorem exists_start (hbare : h.isBare = false) (hfits : h.Fits)
    (hbody : ∀ r ∈ h.saveRegs, r.Savable) (s : Cpu) :
    ∃ s₁, h.start segs s = some s₁ ∧ Started segs h s s₁ := by
  unfold Fits at hfits
  rw [savedWords_eq] at hfits
  have hwrap := wrapperWords_eq h
  unfold start emitPrologue
  rw [if_neg (by rw [hbare]; exact Bool.false_ne_true), List.append_assoc, wrapRun_append,
    wrapRun_append, run_saveIsr, Option.bind_some]
  have hp := pushed_push s (h.wrapperRegs.map s.reg)
  have hunder : wordsAt (s.push (h.wrapperRegs.map s.reg)).stack
      (s.push (h.wrapperRegs.map s.reg)).sp (h.underFrame s) := by
    refine hp.top ?_ (interruptWords_at s)
    rw [List.length_map]
    simp only [interruptWords, List.length_cons, List.length_nil]
    omega
  -- the frame moves `BP`, so what is saved under it and where depends on whether there is one
  cases hframe : h.needsFrame with
  | false =>
    have hrun : wrapRun segs h.emitFrame (s.push (h.wrapperRegs.map s.reg)) =
        some (s.push (h.wrapperRegs.map s.reg)) := by
      unfold emitFrame
      rw [hframe]
      rfl
    have hreg : ∀ r, r ≠ .sp → (s.push (h.wrapperRegs.map s.reg)).reg r = h.framedReg s r := by
      intro r hr
      rw [Cpu.push_reg _ _ hr, framedReg, hframe, if_neg (fun hc => Bool.false_ne_true hc.1)]
    obtain ⟨s₁, hs₁, hpush, hregs⟩ := @run_saveBody segs h hbody
      (s.push (h.wrapperRegs.map s.reg))
    refine ⟨s₁, ?_, ?_, ?_, ?_, ?_⟩
    · rw [hrun]
      exact hs₁
    · intro r hr
      rw [hregs r hr, hreg r hr, Cpu.push_reg _ _ (by decide)]
    · rw [hframe, if_neg Bool.false_ne_true, ← List.map_congr_left fun r hr =>
        hreg r (bodyRegs_savable hbody r hr).ne_sp]
      refine hpush.top ?_ hunder
      rw [underFrame_length]
      omega
    · rw [hframe]
      exact fun hc => absurd hc Bool.false_ne_true
    · intro _
      rw [hpush.sp, hp.sp, List.length_map, List.length_map]
  | true =>
    obtain ⟨sB, hrun, hstack, hsp, hframed⟩ := @run_frame segs h hframe
      (s.push (h.wrapperRegs.map s.reg))
    have hbase : (s.push (h.wrapperRegs.map s.reg)).sp - 2 = h.frameBase s := by
      rw [hp.sp, frameBase, List.length_map]
      exact sub_ofNat_sub_two ..
    have hreg : ∀ r, r ≠ .sp → sB.reg r = h.framedReg s r := by
      intro r hr
      rw [hframed r hr, hbase, framedReg, hframe]
      by_cases hbp : r = .bp
      · rw [if_pos hbp, if_pos ⟨rfl, hbp⟩]
      · rw [if_neg hbp, if_neg fun hc => hbp hc.2, Cpu.push_reg _ _ hr]
    have hunder' : wordsAt sB.stack (h.frameBase s) (s.reg .bp :: h.underFrame s) := by
      have hpush := pushed_push (s.push (h.wrapperRegs.map s.reg))
        [(s.push (h.wrapperRegs.map s.reg)).reg .bp]
      have htop := hpush.top (by rw [underFrame_length, List.length_singleton]; omega) hunder
      rw [hpush.sp] at htop
      rw [hstack, ← hbase, ← Cpu.push_reg s (h.wrapperRegs.map s.reg) (r := .bp) (by decide)]
      exact htop
    obtain ⟨s₁, hs₁, hpush, hregs⟩ := @run_saveBody segs h hbody sB
    refine ⟨s₁, ?_, ?_, ?_, ?_, ?_⟩
    · rw [hrun]
      exact hs₁
    · intro r hr
      have hds : h.framedReg s .ds = s.reg .ds := if_neg fun hc => by cases hc.2
      rw [hregs r hr, hreg r hr, hreg _ (by decide), hds]
    · rw [hframe, if_pos rfl, ← List.map_congr_left fun r hr =>
        hreg r (bodyRegs_savable hbody r hr).ne_sp]
      refine hpush.top ?_ trivial
      rw [List.length_nil]
      omega
    · intro _
      have hd : (h.frameBase s - sB.sp).toNat = h.frameSize := by
        rw [hsp, hbase]
        exact toNat_sub_sub _ (by omega)
      refine hpush.above ?_ hunder'
      rw [hd, List.length_cons, underFrame_length]
      omega
    · rw [hframe]
      exact fun hc => absurd hc Bool.noConfusion

/-! ## After the body -/

/-- The registers that the wrapper has pushed first. -/
def wrapperSaves (h : Handler) (r : Preg) : Bool :=
  if saveSetUsesPusha h.isrSave then coveredByPusha r else h.isrSave.contains r

/-- From under the frame to `iret`. -/
theorem run_wrapperEnd {s u : Cpu} (hu : wordsAt u.stack u.sp (h.underFrame s)) :
    ∃ t, wrapRun segs (emitRestoreSet h.isrSave (saveSetUsesPusha h.isrSave) ++ [.iret]) u =
        some t ∧
      t.sp = u.sp + BitVec.ofNat 16 (2 * h.wrapperRegs.length) + 6 ∧ t.ip = s.peek 0 ∧
      t.reg .cs = s.peek 1 ∧ t.reg .flags = s.peek 2 ∧
      ∀ r ∈ keptRegs, t.reg r = if h.wrapperSaves r then s.reg r else u.reg r := by
  obtain ⟨v, hrun, hstack, hsp, hregs⟩ := @run_restoreIsr segs h _ _ _ hu
  have hv : wordsAt v.stack v.sp (interruptWords s) := by
    have hend := (wordsAt_append.mp hu).2
    rw [List.length_reverse, List.length_map] at hend
    rw [hstack, hsp]
    exact hend
  have hpeek : ∀ (i : Nat) (hi : i < (interruptWords s).length),
      v.peek i = (interruptWords s)[i] := fun i hi => readWord_of_wordsAt i hi hv
  have h0 : v.peek 0 = s.peek 0 := hpeek 0 (by simp [interruptWords])
  have h1 : v.peek 1 = s.peek 1 := hpeek 1 (by simp [interruptWords])
  have h2 : v.peek 2 = s.peek 2 := hpeek 2 (by simp [interruptWords])
  rw [wrapRun_append, hrun, Option.bind_some]
  refine ⟨_, rfl, ?_, h0, ?_, ?_, fun r hr => ?_⟩
  · rw [← hsp]
    simp [Cpu.sp, Cpu.drop]
  · simp [h1]
  · simp [h2]
  · have hne : r ≠ .sp ∧ r ≠ .cs ∧ r ≠ .flags := by
      revert r
      decide
    show (((v.drop 3).setReg .cs (v.peek 1)).setReg .flags (v.peek 2)).reg r = _
    rw [Cpu.setReg_reg, if_neg hne.2.2, Cpu.setReg_reg, if_neg hne.2.1, Cpu.drop_reg _ _ hne.1]
    exact hregs r hne.1

theorem framedReg_bp (hframe : h.needsFrame = true) (s : Cpu) :
    h.framedReg s .bp = h.frameBase s := if_pos ⟨hframe, rfl⟩

theorem framedReg_of_ne {r : Preg} (hr : r ≠ .bp) (s : Cpu) : h.framedReg s r = s.reg r :=
  if_neg fun hc => hr hc.2

theorem framedReg_noFrame (hframe : h.needsFrame = false) (s : Cpu) (r : Preg) :
    h.framedReg s r = s.reg r :=
  if_neg fun hc => Bool.false_ne_true (hframe ▸ hc.1)

theorem saves_eq (h : Handler) (r : Preg) : h.saves r =
    (h.wrapperSaves r || (h.needsFrame && r == .bp) || h.bodyRegs.contains r) := by
  unfold saves wrapperSaves bodyRegs
  cases h.dsExplicitSave with
  | false => simp
  | true =>
    rw [if_pos rfl, Bool.true_and, Bool.eq_iff_iff]
    simp only [Bool.or_eq_true, List.contains_eq_mem, List.mem_append, List.mem_singleton,
      decide_eq_true_eq, beq_iff_eq]
    tauto

/-- `mov sp, bp` and `pop bp`. -/
theorem run_leave {b w : BitVec 16} {ws : List (BitVec 16)} {u : Cpu} (hbp : u.reg .bp = b)
    (hw : wordsAt u.stack b (w :: ws)) :
    ∃ v, wrapRun segs [.movSpBp, .pop .bp] u = some v ∧ v.sp = b + 2 ∧ wordsAt v.stack v.sp ws ∧
      ∀ r, r ≠ .sp → v.reg r = if r = .bp then w else u.reg r := by
  have hsp : (u.setReg .sp (u.reg .bp)).sp = b := by simp [Cpu.sp, hbp]
  have hpeek : (u.setReg .sp (u.reg .bp)).peek 0 = w := by
    rw [Cpu.peek, Nat.mul_zero, BitVec.add_zero, hsp]
    exact hw.1
  have hsp' : (((u.setReg .sp (u.reg .bp)).drop 1).setReg .bp w).sp = b + 2 := by
    rw [Cpu.setReg_sp _ _ (by decide), Cpu.drop_sp, hsp]
    rfl
  refine ⟨((u.setReg .sp (u.reg .bp)).drop 1).setReg .bp w, ?_, hsp', ?_, fun r hr => ?_⟩
  · rw [← hpeek]
    rfl
  · rw [hsp']
    exact hw.2
  · rw [Cpu.setReg_reg, Cpu.drop_reg _ _ hr, Cpu.setReg_reg, if_neg hr]

/-- Everything that is saved comes back, and the rest is as the body has left it. -/
theorem epilogue_restores (hbare : h.isBare = false) (hbody : ∀ r ∈ h.saveRegs, r.Savable)
    {s s₁ t₁ : Cpu} (hs : Started segs h s s₁) (hk : h.KeepsStack s₁ t₁) :
    ∃ t, wrapRun segs h.emitEpilogue t₁ = some t ∧ t.sp = s.sp + 6 ∧ t.ip = s.peek 0 ∧
      t.reg .cs = s.peek 1 ∧ t.reg .flags = s.peek 2 ∧
      ∀ r ∈ keptRegs, t.reg r = if h.saves r then s.reg r else t₁.reg r := by
  have hkept : ∀ r ∈ keptRegs, r ≠ .sp := by decide
  unfold emitEpilogue
  rw [if_neg (by rw [hbare]; exact Bool.false_ne_true), List.append_assoc, List.append_assoc,
    wrapRun_append]
  have htop := hs.top
  cases hframe : h.needsFrame with
  | false =>
    rw [hframe, if_neg Bool.false_ne_true] at htop
    have hwords : wordsAt t₁.stack t₁.sp ((h.bodyRegs.map (h.framedReg s)).reverse ++
        h.underFrame s) := by
      rw [hk.sp]
      refine wordsAt_congr (fun i hi => hk.noFrame hframe i ?_) htop
      rw [List.length_append, List.length_reverse, List.length_map, underFrame_length] at hi
      rw [savedWords_eq]
      exact hi
    obtain ⟨u, hrun, hstack, hsp, hregs⟩ := @run_restoreBody segs h hbody _ _ _ hwords
    have hu : wordsAt u.stack u.sp (h.underFrame s) := by
      have hend := (wordsAt_append.mp hwords).2
      rw [List.length_reverse, List.length_map] at hend
      rw [hstack, hsp]
      exact hend
    obtain ⟨t, hrun', hsp', hip, hcs, hfl, hregs'⟩ := @run_wrapperEnd segs h _ _ hu
    refine ⟨t, ?_, ?_, hip, hcs, hfl, fun r hr => ?_⟩
    · rw [hrun, Option.bind_some, if_neg Bool.false_ne_true, List.nil_append]
      exact hrun'
    · rw [hsp', hsp, hk.sp, hs.sp hframe]
      exact sub_sub_add_add ..
    · rw [hregs' r hr, hregs r (hkept r hr), framedReg_noFrame hframe, saves_eq, hframe,
        Bool.false_and, Bool.or_false, List.contains_eq_mem]
      cases h.wrapperSaves r with
      | true => rfl
      | false => simp
  | true =>
    rw [hframe, if_pos rfl] at htop
    have hbase : s₁.reg .bp = h.frameBase s := by
      rw [hs.regs .bp (by decide), if_neg (by decide), framedReg_bp hframe]
    have hwords : wordsAt t₁.stack t₁.sp ((h.bodyRegs.map (h.framedReg s)).reverse ++ []) := by
      rw [hk.sp]
      refine wordsAt_congr (fun i hi => hk.saved i ?_) htop
      rw [List.append_nil, List.length_reverse, List.length_map] at hi
      rw [savedWords_eq]
      exact hi
    have hunder : wordsAt t₁.stack (h.frameBase s) (s.reg .bp :: h.underFrame s) := by
      refine wordsAt_congr (fun i hi => ?_) (hs.frame hframe)
      rw [List.length_cons, underFrame_length] at hi
      rw [← hbase]
      exact hk.frame hframe i hi
    obtain ⟨u, hrun, hstack, -, hregs⟩ := @run_restoreBody segs h hbody _ _ _ hwords
    have hbp : u.reg .bp = h.frameBase s := by
      rw [hregs .bp (by decide), hk.bp hframe, hbase, framedReg_bp hframe, ite_self]
    obtain ⟨v, hleave, hsp, hv, hvregs⟩ := @run_leave segs _ _ _ _ hbp (hstack ▸ hunder)
    obtain ⟨t, hrun', hsp', hip, hcs, hfl, hregs'⟩ := @run_wrapperEnd segs h _ _ hv
    refine ⟨t, ?_, ?_, hip, hcs, hfl, fun r hr => ?_⟩
    · rw [hrun, Option.bind_some, if_pos rfl, wrapRun_append, hleave, Option.bind_some]
      exact hrun'
    · rw [hsp', hsp, frameBase]
      rw [← sub_ofNat_sub_two]
      exact sub_sub_add_add ..
    · rw [hregs' r hr, hvregs r (hkept r hr), hregs r (hkept r hr), saves_eq, hframe,
        Bool.true_and, List.contains_eq_mem]
      by_cases hrbp : r = .bp
      · subst hrbp
        simp
      · rw [if_neg hrbp, framedReg_of_ne hrbp]
        cases h.wrapperSaves r with
        | true => rfl
        | false => simp [hrbp]

/-! ## Transparency -/

theorem saves_ds {src : DsSource} (hsrc : h.dsPolicy.source? = some src) : h.saves .ds = true := by
  rw [saves_eq]
  have hmem : Preg.ds ∈ h.bodyRegs := by
    unfold bodyRegs dsExplicitSave
    rw [hsrc, Option.isSome_some, Bool.true_and]
    cases hc : h.saveRegs.contains .ds with
    | true => exact List.mem_append_left _ (List.contains_iff_mem.mp hc)
    | false => exact List.mem_append_right _ (List.mem_singleton_self _)
  rw [List.contains_iff_mem.mpr hmem, Bool.or_true]

/-- Registers that are not saved are not changed before the body. -/
theorem Started.reg_of_unsaved {s s₁ : Cpu} (hs : Started segs h s s₁) {r : Preg}
    (hr : r ∈ keptRegs) (hsave : h.saves r = false) : s₁.reg r = s.reg r := by
  have hsp : ∀ r ∈ keptRegs, r ≠ .sp := by decide
  have hframed : h.framedReg s r = s.reg r := by
    refine if_neg fun hc => ?_
    rw [saves_eq, hc.1, hc.2] at hsave
    simp at hsave
  rw [hs.regs r (hsp r hr), hframed]
  split
  · next hds =>
    subst hds
    cases hsrc : h.dsPolicy.source? with
    | none => rfl
    | some src =>
      rw [saves_ds hsrc] at hsave
      cases hsave
  · rfl

theorem Started.ds {s s₁ : Cpu} (hs : Started segs h s s₁) {src : DsSource}
    (hsrc : h.dsPolicy.source? = some src) : s₁.reg .ds = dsSourceValue segs src := by
  rw [hs.regs .ds (by decide), if_pos rfl, hsrc]
  rfl

/-- An epilogue that reaches `iret` has restored every register that is listed. -/
theorem savable_of_epilogue (hbare : h.isBare = false) {u t : Cpu}
    (hend : wrapRun segs h.emitEpilogue u = some t) : ∀ r ∈ h.saveRegs, r.Savable := by
  unfold emitEpilogue at hend
  rw [if_neg (by rw [hbare]; exact Bool.false_ne_true), List.append_assoc, List.append_assoc,
    List.append_assoc, wrapRun_append] at hend
  obtain ⟨v, -, hend⟩ := Option.bind_eq_some_iff.mp hend
  rw [wrapRun_append] at hend
  obtain ⟨w, hrestore, -⟩ := Option.bind_eq_some_iff.mp hend
  intro r hr
  exact savable_of_restoreSet hrestore r (List.mem_reverse.mpr hr)

end Handler

/-- An interrupt with all registers and the stack segment zero. -/
def zeroCpu : Cpu := ⟨fun _ => 0, 0, fun _ => 0⟩

/-- A handler with a frame and `ds(0x0040)`, whose body uses `AX`. -/
def framedHandler : Handler where
  assigned := [.al]
  needsFrame := true
  frameSize := 2
  collected r := r == .ax || r == .al
  dsPolicy := .literal 0x40

def setsAx : Body := fun s => [s.setReg .ax 0x1234]

/-- `asm clobbers(AX, ES)`: the wrapper saves `AX` only. -/
def esHandler : Handler where
  collected r := r == .ax || r == .es

def setsEs : Body := fun s =>
  [s.setReg .ax 0xB800, (s.setReg .ax 0xB800).setReg .es 0xB800]

end Nib.Bind
