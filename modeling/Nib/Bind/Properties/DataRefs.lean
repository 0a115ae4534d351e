import Nib.Bind.DataRefs

/-!
# Whether the data labels are found

* `annotate_pass` — a pass of the loop as a pass over the copies of the function
* `annotateLoop_isSome` — the loop finishes when the copies become quiet
* `annotateDataRefs_finishes_iff` — for all functions
-/

namespace Nib.Bind

open Infra

/-! ## One pass -/

theorem Insn.dataCopy_dst {ins : Insn} {c : Copy Nat} (h : ins.dataCopy = some c) :
    ins.dst = some c.dst := by
  unfold Insn.dataCopy at h
  cases hd : ins.dst with
  | none =>
    rw [hd] at h
    cases h
  | some dst =>
    rw [hd, Option.bind_some] at h
    split at h
    · cases h
      rfl
    · split at h
      · cases h
        rfl
      · cases h

theorem handedLabel_eq (l : DataLabels) {ins : Insn} {dst : Nat} (hd : ins.dst = some dst) :
    handedLabel l ins = ins.dataCopy.bind (Copy.value l) := by
  unfold handedLabel Insn.dataCopy
  rw [hd, Option.bind_some]
  split
  · rw [Option.bind_some, Copy.value, vregDataLabel]
    cases ins.src1 with
    | none => rfl
    | some v => cases h : l v <;> simp [h]
  · split
    · rw [Option.bind_some, Copy.value, vregDataLabel, vregDataLabel]
      cases ins.src1 with
      | none =>
        cases ins.src2 with
        | none => rfl
        | some w => cases h : l w <;> simp [h]
      | some v =>
        cases h : l v with
        | some a => simp [h]
        | none =>
          cases ins.src2 with
          | none => simp [h]
          | some w => cases h' : l w <;> simp [h, h']
    · rfl

theorem annotateInsn_none (s : DataLabels × Bool) {ins : Insn} (h : ins.dataCopy = none) :
    annotateInsn s ins = s := by
  unfold annotateInsn
  cases hd : ins.dst with
  | none => cases handedLabel s.1 ins <;> rfl
  | some dst =>
    rw [handedLabel_eq s.1 hd, h]
    rfl

theorem annotateInsn_quiet (s : DataLabels × Bool) {ins : Insn} {c : Copy Nat}
    (h : ins.dataCopy = some c) (hq : ∀ a, c.value s.1 = some a → s.1 c.dst = some a) :
    annotateInsn s ins = s := by
  have hd := Insn.dataCopy_dst h
  unfold annotateInsn
  rw [handedLabel_eq s.1 hd, h, hd, Option.bind_some]
  cases hv : c.value s.1 with
  | none => rfl
  | some a => exact if_neg fun hne => hne (hq a hv)

theorem annotateInsn_change (s : DataLabels × Bool) {ins : Insn} {c : Copy Nat} {a : String}
    (h : ins.dataCopy = some c) (hv : c.value s.1 = some a) (hne : s.1 c.dst ≠ some a) :
    annotateInsn s ins = (c.apply s.1, true) := by
  have hd := Insn.dataCopy_dst h
  unfold annotateInsn Copy.apply
  rw [handedLabel_eq s.1 hd, h, hd, Option.bind_some, hv]
  exact if_pos hne

/-- A pass of the loop, and when it counts as a change. -/
theorem annotate_pass (insns : List Insn) : ∀ (l : DataLabels) (changed : Bool),
    (insns.foldl annotateInsn (l, changed)).1 = Copy.pass (insns.filterMap Insn.dataCopy) l ∧
      ((insns.foldl annotateInsn (l, changed)).2 = false ↔
        changed = false ∧ Copy.Quiet (insns.filterMap Insn.dataCopy) l) := by
  induction insns with
  | nil => exact fun l changed => ⟨rfl, by simp [Copy.Quiet]⟩
  | cons ins insns ih =>
    intro l changed
    rw [List.foldl_cons]
    cases hc : ins.dataCopy with
    | none =>
      rw [annotateInsn_none _ hc, List.filterMap_cons_none hc]
      exact ih l changed
    | some c =>
      rw [List.filterMap_cons_some hc]
      by_cases hq : ∀ a, c.value l = some a → l c.dst = some a
      · rw [annotateInsn_quiet (l, changed) hc hq]
        obtain ⟨hpass, hchanged⟩ := ih l changed
        refine ⟨?_, ?_⟩
        · show _ = Copy.pass (insns.filterMap Insn.dataCopy) (c.apply l)
          rw [Copy.apply_eq_self hq]
          exact hpass
        · rw [hchanged]
          exact and_congr_right fun _ => (List.forall_mem_cons.trans (and_iff_right hq)).symm
      · push Not at hq
        obtain ⟨a, hv, hne⟩ := hq
        rw [annotateInsn_change (l, changed) hc hv hne]
        obtain ⟨hpass, hchanged⟩ := ih (c.apply l) true
        refine ⟨hpass, ?_⟩
        rw [hchanged]
        constructor
        · intro h
          cases h.1
        · intro h
          exact absurd (h.2 c List.mem_cons_self a hv) hne

/-! ## The loop -/

/-- With fuel for `k` passes the loop finishes if and only if one of them starts quiet. -/
theorem annotateLoop_isSome (fn : Func) : ∀ (fuel : Nat) (l : DataLabels),
    (annotateLoop fn.insns fuel l).isSome = true ↔
      ∃ k < fuel, Copy.Quiet fn.dataCopies ((Copy.pass fn.dataCopies)^[k] l) := by
  intro fuel
  induction fuel with
  | zero =>
    intro l
    constructor
    · intro h
      cases h
    · rintro ⟨k, hk, -⟩
      exact absurd hk (Nat.not_lt_zero k)
  | succ fuel ih =>
    intro l
    obtain ⟨hpass, hchanged⟩ := annotate_pass fn.insns l false
    unfold annotateLoop
    generalize fn.insns.foldl annotateInsn (l, false) = s at hpass hchanged
    obtain ⟨l', changed⟩ := s
    cases changed with
    | false =>
      have hq := (hchanged.mp rfl).2
      exact ⟨fun _ => ⟨0, Nat.succ_pos fuel, hq⟩, fun _ => rfl⟩
    | true =>
      have hnot : ¬Copy.Quiet fn.dataCopies l := fun hq => by
        have := hchanged.mpr ⟨rfl, hq⟩
        cases this
      show (annotateLoop fn.insns fuel l').isSome = true ↔ _
      rw [ih l', show l' = Copy.pass fn.dataCopies l from hpass]
      constructor
      · rintro ⟨k, hk, hq⟩
        exact ⟨k + 1, Nat.succ_lt_succ hk, hq⟩
      · rintro ⟨k, hk, hq⟩
        cases k with
        | zero => exact absurd hq hnot
        | succ k => exact ⟨k, Nat.lt_of_succ_lt_succ hk, hq⟩

theorem annotateFunc_isSome (blocks : List DataBlock) (fn : Func) (fuel : Nat) :
    (annotateFunc blocks fuel fn).isSome = true ↔ ∃ k < fuel,
      Copy.Quiet fn.dataCopies ((Copy.pass fn.dataCopies)^[k] (fn.dataAddress blocks)) :=
  annotateLoop_isSome fn fuel _

theorem annotateFunc_mono {blocks : List DataBlock} {fn : Func} {fuel fuel' : Nat}
    (hle : fuel ≤ fuel') (h : (annotateFunc blocks fuel fn).isSome = true) :
    (annotateFunc blocks fuel' fn).isSome = true := by
  rw [annotateFunc_isSome] at h ⊢
  obtain ⟨k, hk, hq⟩ := h
  exact ⟨k, hk.trans_le hle, hq⟩

theorem annotateFunc_finishes_iff (blocks : List DataBlock) (fn : Func) :
    (∃ fuel, (annotateFunc blocks fuel fn).isSome = true) ↔ Settled blocks fn := by
  refine Iff.trans ?_ (Copy.settles_iff fn.dataCopies (fn.dataAddress blocks))
  constructor
  · rintro ⟨fuel, h⟩
    obtain ⟨k, -, hq⟩ := (annotateFunc_isSome blocks fn fuel).mp h
    exact ⟨k, hq⟩
  · rintro ⟨k, hq⟩
    exact ⟨k + 1, (annotateFunc_isSome blocks fn (k + 1)).mpr ⟨k, Nat.lt_succ_self k, hq⟩⟩

/-! ## All functions -/

theorem annotateDataRefs_isSome (blocks : List DataBlock) (fns : List Func) (fuel : Nat) :
    (annotateDataRefs blocks fns fuel).isSome = true ↔
      ∀ fn ∈ fns, (annotateFunc blocks fuel fn).isSome = true := by
  unfold annotateDataRefs
  induction fns with
  | nil => simp
  | cons fn fns ih =>
    rw [List.mapM_cons, List.forall_mem_cons, ← ih]
    cases annotateFunc blocks fuel fn with
    | none => simp
    | some l => cases fns.mapM (annotateFunc blocks fuel) <;> simp

/-- **The labels are found if and only if those of each function settle.** -/
theorem annotateDataRefs_finishes_iff (blocks : List DataBlock) (fns : List Func) :
    (∃ fuel, (annotateDataRefs blocks fns fuel).isSome = true) ↔
      ∀ fn ∈ fns, Settled blocks fn := by
  constructor
  · rintro ⟨fuel, h⟩ fn hfn
    rw [annotateDataRefs_isSome] at h
    exact (annotateFunc_finishes_iff blocks fn).mp ⟨fuel, h fn hfn⟩
  · intro h
    -- enough fuel for the function that needs most of it
    induction fns with
    | nil => exact ⟨0, rfl⟩
    | cons fn fns ih =>
      obtain ⟨hfn, hfns⟩ := List.forall_mem_cons.mp h
      obtain ⟨a, ha⟩ := (annotateFunc_finishes_iff blocks fn).mpr hfn
      obtain ⟨b, hb⟩ := ih hfns
      refine ⟨max a b, (annotateDataRefs_isSome blocks _ _).mpr (List.forall_mem_cons.mpr ⟨?_, ?_⟩)⟩
      · exact annotateFunc_mono (Nat.le_max_left a b) ha
      · intro g hg
        exact annotateFunc_mono (Nat.le_max_right a b)
          ((annotateDataRefs_isSome blocks fns b).mp hb g hg)

/-- A vreg that is moved from two others, which hold the addresses of two blocks. -/
def twoTables : Func :=
  { insns := [{ op := .mov, dst := some 0, name := "odd" },
      { op := .mov, dst := some 1, name := "even" },
      { op := .mov, dst := some 2, src1 := some 0 },
      { op := .mov, dst := some 2, src1 := some 1 }], nvregs := 3 }

def oddBlock : DataBlock := ⟨"odd".toList, []⟩

def evenBlock : DataBlock := ⟨"even".toList, []⟩

/-- **The two moves undo each other for ever.** -/
theorem twoTables_never_annotated :
    ¬∃ fuel, (annotateDataRefs [oddBlock, evenBlock] [twoTables] fuel).isSome = true := by
  rintro ⟨fuel, h⟩
  have hfn := (annotateDataRefs_isSome _ _ _).mp h twoTables List.mem_cons_self
  have hs := (annotateFunc_finishes_iff _ _).mp ⟨fuel, hfn⟩
  revert hs
  decide

end Nib.Bind
