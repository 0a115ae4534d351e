import Mathlib
import Nib.Infra.Graph
import Nib.Bind.Spec.Params

/-!
# Parameter registers do not overlap

* `assignAll_sound` — one function, where its preferences fit
* `topoSort_nodup` — every function is processed once
* `params_sound` — all functions
* `topoSort_calleesFirst` — functions come after what they call, apart from recursion
-/

namespace Nib.Bind

namespace ParamRegs

/-! ## One function -/

/-- What holds while parameters are given registers. -/
structure Inv (params : List FnParam) (s : ParamRegs) : Prop where
  used : ∀ i r, s.regs i = some r → s.used r = true ∧
    ∀ h, r.aliasLo = some h ∨ r.aliasHi = some h → s.used h = true
  apart : ∀ i j, i ≠ j → ∀ r r', s.regs i = some r → s.regs j = some r' → pregsAlias r r' = false
  takes : ∀ i p r, params[i]? = some p → s.regs i = some r → p.Takes r

theorem inv_init (params : List FnParam) : Inv params {} :=
  ⟨fun _ _ h => (nomatch h), fun _ _ _ _ _ h => (nomatch h), fun _ _ _ _ h => (nomatch h)⟩

/-- Overlapping registers are equal, or one is a half of the other. -/
theorem alias_cases {r r' : Preg} (h : pregsAlias r r' = true) :
    r = r' ∨ (r.aliasLo = some r' ∨ r.aliasHi = some r') ∨
      (r'.aliasLo = some r ∨ r'.aliasHi = some r) := by
  unfold pregsAlias at h
  simp only [Bool.or_eq_true, beq_iff_eq] at h
  rcases h with (((h | h) | h) | h) | h
  · exact .inl h
  · exact .inr (.inl (.inl h))
  · exact .inr (.inl (.inr h))
  · exact .inr (.inr (.inl h))
  · exact .inr (.inr (.inr h))

/-- A register that is not in use, and no half of it, overlaps none that has been given. -/
theorem Inv.apart_of_free {params : List FnParam} {s : ParamRegs} (h : Inv params s) {i : Nat}
    {r r' : Preg} (hi : s.regs i = some r') (hr : s.used r = false)
    (hhalves : ∀ x, r.aliasLo = some x ∨ r.aliasHi = some x → s.used x = false) :
    pregsAlias r r' = false := by
  obtain ⟨hused, hused'⟩ := h.used i r' hi
  cases hal : pregsAlias r r' with
  | false => rfl
  | true =>
    rcases alias_cases hal with rfl | hx | hx
    · exact absurd hused (by simp [hr])
    · exact absurd hused (by simp [hhalves r' hx])
    · exact absurd (hused' r hx) (by simp [hr])

/-- Giving a register that fits keeps the invariant. -/
theorem Inv.give {params : List FnParam} {s : ParamRegs} (h : Inv params s) {i : Nat} {r : Preg}
    (hr : s.used r = false) (hhalves : ∀ x, r.aliasLo = some x ∨ r.aliasHi = some x →
      s.used x = false) (htakes : ∀ p, params[i]? = some p → p.Takes r) :
    Inv params (s.give i r) := by
  have hself : (s.give i r).regs i = some r := Function.update_self ..
  have hother : ∀ j, j ≠ i → (s.give i r).regs j = s.regs j := fun j hj =>
    Function.update_of_ne hj ..
  refine ⟨?_, ?_, ?_⟩
  · intro j r' hj
    by_cases hji : j = i
    · subst hji
      obtain rfl := Option.some.inj (hself.symm.trans hj)
      refine ⟨by simp [ParamRegs.give], fun x hx => ?_⟩
      rcases hx with hx | hx <;> simp [ParamRegs.give, hx]
    · rw [hother j hji] at hj
      obtain ⟨h1, h2⟩ := h.used j r' hj
      exact ⟨by simp [ParamRegs.give, h1], fun x hx => by simp [ParamRegs.give, h2 x hx]⟩
  · intro j k hjk r₁ r₂ hj hk
    by_cases hji : j = i
    · subst hji
      obtain rfl := Option.some.inj (hself.symm.trans hj)
      rw [hother k (Ne.symm hjk)] at hk
      exact h.apart_of_free hk hr hhalves
    · rw [hother j hji] at hj
      by_cases hki : k = i
      · subst hki
        obtain rfl := Option.some.inj (hself.symm.trans hk)
        rw [pregsAlias_comm]
        exact h.apart_of_free hj hr hhalves
      · rw [hother k hki] at hk
        exact h.apart j k hjk r₁ r₂ hj hk
  · intro j p r' hp hj
    by_cases hji : j = i
    · subst hji
      obtain rfl := Option.some.inj (hself.symm.trans hj)
      exact htakes p hp
    · rw [hother j hji] at hj
      exact h.takes j p r' hp hj

/-- A fold keeps what each step keeps in the state it is taken in. -/
theorem foldl_keeps {α β : Type} {f : β → α → β} {P : β → Prop} {l : List α} {b : β} (hb : P b)
    (h : ∀ before x after, l = before ++ x :: after → P (before.foldl f b) →
      P (f (before.foldl f b) x)) : P (l.foldl f b) := by
  have hpre : ∀ (l₁ l₂ : List α), l = l₁ ++ l₂ → P (l₁.foldl f b) := by
    intro l₁
    induction l₁ using List.reverseRecOn with
    | nil => exact fun _ _ => hb
    | append_singleton l₁ x ih =>
      intro l₂ hl
      rw [List.append_assoc] at hl
      rw [List.foldl_append]
      exact h l₁ x l₂ hl (ih _ hl)
  exact hpre l [] (List.append_nil l).symm

theorem mem_zipIdx_get {params : List FnParam} {p : FnParam × Nat} (h : p ∈ params.zipIdx) :
    params[p.2]? = some p.1 := List.mem_zipIdx_iff_getElem?.mp h

/-- A parameter that is copied is one of the parameters. -/
theorem copyWishes_mem {vregs : VregTable} {params : List FnParam} {insns : List Insn}
    {w : Preg × Nat} (h : w ∈ copyWishes vregs params insns) : ∃ p, params[w.2]? = some p := by
  unfold copyWishes at h
  obtain ⟨ins, -, hw⟩ := List.mem_flatMap.mp h
  split at hw
  · split at hw
    · split at hw
      · obtain ⟨p, hp, rfl⟩ := List.mem_map.mp hw
        exact ⟨p.1, mem_zipIdx_get (List.mem_filter.mp hp).1⟩
      · exact absurd hw List.not_mem_nil
    · exact absurd hw List.not_mem_nil
  · exact absurd hw List.not_mem_nil

theorem inv_honor {vregs : VregTable} {params : List FnParam} {s : ParamRegs} {p : FnParam × Nat}
    (hinv : Inv params s) (hp : params[p.2]? = some p.1)
    (hfits : p.1.place ≠ .stack → ∀ r, (vregs p.1.vreg).prefer = some r → s.used r = false →
      Fits s p.1 r) : Inv params (honor vregs s p) := by
  unfold honor
  split
  · exact hinv
  · rename_i hplace
    split
    · exact hinv
    · rename_i r hr
      split
      · exact hinv
      · rename_i hused
        have hfree : s.used r = false := by simpa using hused
        obtain ⟨htakes, hhalves⟩ := hfits hplace r hr hfree
        refine hinv.give hfree hhalves fun q hq => ?_
        obtain rfl := Option.some.inj (hp.symm.trans hq)
        exact htakes

theorem inv_follow {params : List FnParam} {s : ParamRegs} {w : Preg × Nat}
    (hinv : Inv params s) {p : FnParam} (hp : params[w.2]? = some p)
    (hfits : s.regs w.2 = none → s.used w.1 = false → Fits s p w.1) :
    Inv params (follow s w) := by
  unfold follow
  split
  · rename_i hw
    rw [Bool.and_eq_true, Option.isNone_iff_eq_none, Bool.not_eq_true'] at hw
    obtain ⟨htakes, hhalves⟩ := hfits hw.1 hw.2
    refine hinv.give hw.2 hhalves fun q hq => ?_
    obtain rfl := Option.some.inj (hp.symm.trans hq)
    exact htakes
  · exact hinv

theorem inv_preferred {vregs : VregTable} {params : List FnParam} {insns : List Insn}
    (h : PreferencesFit vregs params insns) : Inv params (preferred vregs params insns) := by
  refine foldl_keeps (foldl_keeps (inv_init params) ?_) ?_
  · intro before p after hl hinv
    exact inv_honor hinv (mem_zipIdx_get (hl ▸ by simp)) (h.honored before p after hl)
  · intro before w after hl hinv
    have hw : w ∈ copyWishes vregs params insns := by
      rw [hl]
      simp
    obtain ⟨p, hp⟩ := copyWishes_mem hw
    exact inv_follow hinv hp fun hnone hused => h.followed before w after hl hnone hused p hp

theorem isFree_iff {s : ParamRegs} {r : Preg} (h : s.isFree r = true) :
    s.used r = false ∧ ∀ x, r.aliasLo = some x ∨ r.aliasHi = some x → s.used x = false := by
  unfold isFree at h
  simp only [Bool.and_eq_true, Bool.not_eq_true'] at h
  obtain ⟨⟨⟨hr, hlo⟩, hhi⟩, -⟩ := h
  refine ⟨hr, fun x hx => ?_⟩
  rcases hx with hx | hx
  · simpa [hx] using hlo
  · simpa [hx] using hhi

/-- The free registers are of the class they are taken for. -/
theorem order_cls {isByte : Bool} {r : Preg} (h : r ∈ if isByte then byteOrder else wordOrder) :
    r.cls = some (if isByte then .byte else .word) := by
  cases isByte with
  | true =>
    simp only [if_true, byteOrder, List.mem_cons, List.not_mem_nil, or_false] at h
    rcases h with rfl | rfl | rfl | rfl | rfl | rfl | rfl | rfl <;> rfl
  | false =>
    simp only [Bool.false_eq_true, if_false, wordOrder, List.mem_cons, List.not_mem_nil,
      or_false] at h
    rcases h with rfl | rfl | rfl | rfl | rfl | rfl | rfl <;> rfl

/-- A fill does not take a register away. -/
theorem fill_regs_some {vregs : VregTable} {s : ParamRegs} (p : FnParam × Nat) {i : Nat}
    (h : (s.regs i).isSome) : ((fill vregs s p).regs i).isSome := by
  unfold fill
  split
  · exact h
  · rename_i hp
    split
    · by_cases hi : i = p.2
      · subst hi
        exact absurd (.inr h) hp
      · rw [show (s.give p.2 _).regs i = s.regs i from Function.update_of_ne hi ..]
        exact h
    · exact h

/-- **The registers of one function do not overlap**, are of the class of the parameter and keep
the pins, where the preferences fit and there is a register for every parameter. -/
theorem assignAll_sound {vregs : VregTable} {params : List FnParam} {insns : List Insn}
    (h : PreferencesFit vregs params insns)
    (hall : missingRegs params (assignAll vregs params insns).regs = 0) :
    ParamsSound params (assignAll vregs params insns).regs := by
  have hinv : Inv params (assignAll vregs params insns) ∧
      ∀ i, ((preferred vregs params insns).regs i).isSome →
        ((assignAll vregs params insns).regs i).isSome := by
    refine foldl_keeps (P := fun s => Inv params s ∧
      ∀ i, ((preferred vregs params insns).regs i).isSome → (s.regs i).isSome)
      ⟨inv_preferred h, fun _ hi => hi⟩ ?_
    rintro before p after hl ⟨hinv, hmore⟩
    refine ⟨?_, fun i hi => fill_regs_some p (hmore i hi)⟩
    have hp : params[p.2]? = some p.1 := mem_zipIdx_get (hl ▸ by simp)
    generalize before.foldl (fill vregs) (preferred vregs params insns) = s at hinv hmore
    unfold fill
    split
    · exact hinv
    · rename_i hplace
      rw [not_or] at hplace
      split
      · rename_i r hr
        obtain ⟨hfree, hhalves⟩ := isFree_iff (List.find?_some hr)
        -- the parameter has no preference that was followed
        have hnone : (preferred vregs params insns).regs p.2 = none := by
          cases hreg : (preferred vregs params insns).regs p.2 with
          | none => rfl
          | some r' => exact absurd (hmore p.2 (by simp [hreg])) hplace.2
        obtain ⟨hpin, hcls⟩ := h.left p.2 p.1 hp hplace.1 hnone
        refine hinv.give hfree hhalves fun q hq => ?_
        obtain rfl := Option.some.inj (hp.symm.trans hq)
        refine ⟨?_, fun pin h => by rw [hpin] at h; cases h⟩
        rw [hcls]
        exact order_cls (List.mem_of_find?_eq_some hr)
      · exact hinv
  refine ⟨?_, hinv.1.apart⟩
  intro i p hp hplace
  have hnil := List.eq_nil_of_length_eq_zero hall
  cases hreg : (assignAll vregs params insns).regs i with
  | none =>
    have hmem : (p, i) ∈ params.zipIdx.filter fun p =>
        p.1.place != .stack && ((assignAll vregs params insns).regs p.2).isNone := by
      refine List.mem_filter.mpr ⟨List.mem_zipIdx_iff_getElem?.mpr hp, ?_⟩
      simp [hplace, hreg]
    rw [hnil] at hmem
    exact absurd hmem List.not_mem_nil
  | some r => exact ⟨r, rfl, hinv.1.takes i p r hp hreg⟩

end ParamRegs

/-! ## The order of functions -/

theorem topoRound_nodup {edges : List CallEdge} {n : Nat} {order : List Nat} (h : order.Nodup) :
    (topoRound edges n order).Nodup := by
  refine ParamRegs.foldl_keeps h ?_
  intro before i after _ hnodup
  split
  · exact hnodup
  · rename_i hnew
    split
    · refine List.nodup_append.mpr
        ⟨hnodup, List.nodup_cons.mpr ⟨List.not_mem_nil, List.nodup_nil⟩, ?_⟩
      intro a ha b hb hab
      rw [List.mem_singleton.mp hb] at hab
      exact hnew (by simpa [← hab] using ha)
    · exact hnodup

theorem topoRounds_nodup {edges : List CallEdge} {n : Nat} : ∀ (k : Nat) {order : List Nat},
    order.Nodup → (topoRounds edges n k order).Nodup
  | 0, _, h => h
  | k + 1, order, h => by
    unfold topoRounds
    dsimp only
    split
    · exact topoRound_nodup h
    · exact topoRounds_nodup k (topoRound_nodup h)

/-- **Every function is processed once.** -/
theorem topoSort_nodup (edges : List CallEdge) (n : Nat) : (topoSort edges n).Nodup := by
  unfold topoSort
  refine List.nodup_append.mpr ⟨topoRounds_nodup _ (List.nodup_range.filter _),
    List.nodup_range.filter _, ?_⟩
  intro a ha b hb hab
  have hb' := (List.mem_filter.mp hb).2
  simp [← hab, ha] at hb'

theorem mem_topoSort {edges : List CallEdge} {n i : Nat} (h : i < n) : i ∈ topoSort edges n := by
  unfold topoSort
  dsimp only
  by_cases hi : i ∈ topoRounds edges n (n + 1)
      ((List.range n).filter fun i => (calleesOf edges i).isEmpty)
  · exact List.mem_append_left _ hi
  · exact List.mem_append_right _ (List.mem_filter.mpr ⟨List.mem_range.mpr h, by simpa using hi⟩)

/-! ## All functions -/

namespace PropState

/-- Only the preferences and the segment marks change. -/
structure KeepsRegs (s s' : PropState) : Prop where
  regs : s'.regs = s.regs
  errors : s'.errors = s.errors

theorem KeepsRegs.refl (s : PropState) : KeepsRegs s s := ⟨rfl, rfl⟩

theorem KeepsRegs.trans {a b c : PropState} (h : KeepsRegs a b) (h' : KeepsRegs b c) :
    KeepsRegs a c := ⟨h'.regs.trans h.regs, h'.errors.trans h.errors⟩

theorem keepsRegs_foldl {α : Type} {f : PropState → α → PropState}
    (h : ∀ s x, KeepsRegs s (f s x)) (l : List α) (s : PropState) : KeepsRegs s (l.foldl f s) :=
  ParamRegs.foldl_keeps (.refl s) fun _ _ _ _ hk => hk.trans (h _ _)

theorem keepsRegs_prefer (s : PropState) (fi v : Nat) (r : Option Preg) :
    KeepsRegs s (s.prefer fi v r) := by
  unfold prefer
  split
  · exact .refl s
  · split <;> exact ⟨rfl, rfl⟩

theorem keepsRegs_preferReturns (s : PropState) (caller : Nat) (rets : List (Option Nat))
    (returns : List FnReturn) : KeepsRegs s (s.preferReturns caller rets returns) := by
  refine keepsRegs_foldl (fun s x => ?_) _ _
  dsimp only
  split
  · exact keepsRegs_prefer ..
  · exact .refl s

theorem keepsRegs_callerArg (fi caller : Nat) (s : PropState) (a : Nat × FnParam × Nat) :
    KeepsRegs s (callerArg fi caller s a) := by
  unfold callerArg
  split
  · exact .refl s
  · dsimp only
    split
    · exact (keepsRegs_prefer ..).trans ⟨rfl, rfl⟩
    · exact keepsRegs_prefer ..

theorem keepsRegs_callerEdge (fi : Nat) (fn : BindFn) (s : PropState) (e : CallEdge) :
    KeepsRegs s (callerEdge fi fn s e) := by
  unfold callerEdge
  split
  · exact .refl s
  · exact (keepsRegs_foldl (keepsRegs_callerArg fi e.caller) _ _).trans
      (keepsRegs_preferReturns ..)

theorem keepsRegs_preferParams (s : PropState) (f : BindFn × Nat) :
    KeepsRegs s (preferParams s f) := by
  refine keepsRegs_foldl (fun s x => ?_) _ _
  dsimp only
  split
  · split <;> exact ⟨rfl, rfl⟩
  · exact .refl s

/-- What processing a function does to the registers and the errors. -/
theorem resolve_effect {fns : List BindFn} {edges : List CallEdge} {s : PropState} {fi : Nat}
    {fn : BindFn} (h : fns[fi]? = some fn) :
    let regs := (ParamRegs.assignAll (s.vregs fi) fn.params fn.insns).regs
    (resolve fns edges s fi).regs = Function.update s.regs fi regs ∧
      (resolve fns edges s fi).errors = s.errors + missingRegs fn.params regs := by
  have hk := keepsRegs_foldl (keepsRegs_callerEdge fi fn) edges (s.assignFn fn fi)
  unfold resolve
  rw [h]
  exact ⟨hk.regs, hk.errors⟩

theorem resolve_other {fns : List BindFn} {edges : List CallEdge} (s : PropState) {fi fj : Nat}
    (h : fj ≠ fi) : (resolve fns edges s fi).regs fj = s.regs fj := by
  cases hf : fns[fi]? with
  | none => simp [resolve, hf]
  | some fn =>
    rw [(resolve_effect hf).1]
    exact Function.update_of_ne h ..

theorem resolve_errors {fns : List BindFn} {edges : List CallEdge} (s : PropState) (fi : Nat) :
    s.errors ≤ (resolve fns edges s fi).errors := by
  cases hf : fns[fi]? with
  | none => simp [resolve, hf]
  | some fn =>
    rw [(resolve_effect hf).2]
    exact Nat.le_add_right ..

theorem foldl_resolve_other {fns : List BindFn} {edges : List CallEdge} : ∀ (l : List Nat)
    (s : PropState) {fj : Nat}, fj ∉ l → (l.foldl (resolve fns edges) s).regs fj = s.regs fj
  | [], _, _, _ => rfl
  | fi :: l, s, fj, h => by
    rw [List.mem_cons, not_or] at h
    rw [List.foldl_cons, foldl_resolve_other l _ h.2, resolve_other s h.1]

theorem foldl_resolve_errors {fns : List BindFn} {edges : List CallEdge} : ∀ (l : List Nat)
    (s : PropState), s.errors ≤ (l.foldl (resolve fns edges) s).errors
  | [], _ => Nat.le_refl _
  | fi :: l, s => Nat.le_trans (resolve_errors s fi) (foldl_resolve_errors l _)

/-- The registers of a function are those given when it was processed. -/
theorem foldl_resolve_regs {fns : List BindFn} {edges : List CallEdge} {before after : List Nat}
    {s : PropState} {fi : Nat} {fn : BindFn} (hf : fns[fi]? = some fn)
    (hnodup : (before ++ fi :: after).Nodup)
    (herr : ((before ++ fi :: after).foldl (resolve fns edges) s).errors = 0) :
    let vregs := (before.foldl (resolve fns edges) s).vregs fi
    let regs := (ParamRegs.assignAll vregs fn.params fn.insns).regs
    ((before ++ fi :: after).foldl (resolve fns edges) s).regs fi = regs ∧
      missingRegs fn.params regs = 0 := by
  obtain ⟨hregs, herrs⟩ := resolve_effect
    (s := before.foldl (resolve fns edges) s) hf
  have hafter : fi ∉ after := by
    have h := (List.nodup_append.mp hnodup).2.1
    exact (List.nodup_cons.mp h).1
  rw [List.foldl_append, List.foldl_cons] at herr ⊢
  refine ⟨?_, ?_⟩
  · rw [foldl_resolve_other after _ hafter, hregs]
    exact Function.update_self ..
  · have hle := @foldl_resolve_errors fns edges after
      (resolve fns edges (before.foldl (resolve fns edges) s) fi)
    omega

end PropState

open PropState

/-- Whenever a function is processed, its preferences fit. -/
def AllPreferencesFit (fns : List BindFn) (externs : List ExternFn) : Prop :=
  ∀ before fi after, topoSort (buildCallGraph fns) fns.length = before ++ fi :: after →
    ∀ fn, fns[fi]? = some fn →
      PreferencesFit ((before.foldl (resolve fns (buildCallGraph fns))
        (afterExterns fns externs)).vregs fi) fn.params fn.insns

/-- A function with a byte in `AL` and a word. -/
def pinnedFn : BindFn where
  name := "f"
  params := [{ vreg := 0, cls := .byte, pin := some .al }, { vreg := 1 }]
  vregs := fun v => if v = 0 then { prefer := some .al, isByte := true } else {}

theorem pinnedFn_fits : PreferencesFit pinnedFn.vregs pinnedFn.params pinnedFn.insns := by
  refine ⟨?_, ?_, ?_⟩
  · intro before p after hl hplace r hr hused
    have hp : p = (({ vreg := 0, cls := .byte, pin := some .al } : FnParam), 0) ∨
        p = ({ vreg := 1 }, 1) := by
      have hmem : p ∈ pinnedFn.params.zipIdx := hl ▸ by simp
      simpa [pinnedFn] using hmem
    rcases hp with rfl | rfl
    · obtain rfl : Preg.al = r := by simpa [pinnedFn] using hr
      refine ⟨⟨rfl, fun pin h => Option.some.inj h⟩, fun h hh => ?_⟩
      rcases hh with hh | hh <;> cases hh
    · cases hr
  · intro before w after hl
    have hnil : ParamRegs.copyWishes pinnedFn.vregs pinnedFn.params pinnedFn.insns = [] := rfl
    rw [hnil] at hl
    simp at hl
  · intro i p hp hplace hnone
    match i with
    | 0 => cases hnone
    | 1 =>
      cases hp
      exact ⟨rfl, rfl⟩
    | i + 2 => cases hp

/-- The parameters of a function that starts with `AL = a; AX = b`. -/
def overlapFn : BindFn where
  name := "f"
  params := [{ vreg := 0, cls := .byte }, { vreg := 1 }]
  insns := [{ op := .mov, dst := some 2, src1 := some 0 },
    { op := .mov, dst := some 3, src1 := some 1 }]
  vregs := fun v =>
    if v = 0 then { isByte := true }
    else if v = 2 then { prefer := some .al, isByte := true, fixed := true }
    else if v = 3 then { prefer := some .ax, fixed := true }
    else {}

section

open Nib.Infra

variable {edges : List CallEdge} {n : Nat} {order : List Nat}

/-- Function `i` calls function `j`. -/
def Calls (edges : List CallEdge) (i j : Nat) : Prop := j ∈ calleesOf edges i

/-- Functions in order: each of the program's once, after all that it calls. -/
structure CalleesFirst (edges : List CallEdge) (n : Nat) (order : List Nat) : Prop where
  once : order.Nodup
  inRange : ∀ i ∈ order, i < n
  after : ∀ i ∈ order, ∀ j, Calls edges i j → j ∈ order ∧ order.idxOf j < order.idxOf i

theorem CalleesFirst.snoc (h : CalleesFirst edges n order) {i : Nat} (hi : i < n)
    (hnew : i ∉ order) (hready : ∀ j, Calls edges i j → j ∈ order) :
    CalleesFirst edges n (order ++ [i]) := by
  refine ⟨?_, fun j hj => ?_, fun j hj k hk => ?_⟩
  · exact List.nodup_append.mpr ⟨h.once, List.nodup_singleton i, fun a ha b hb hab =>
      hnew (List.mem_singleton.mp hb ▸ hab ▸ ha)⟩
  · rcases List.mem_append.mp hj with hj | hj
    · exact h.inRange j hj
    · rwa [List.mem_singleton.mp hj]
  · rcases List.mem_append.mp hj with hj | hj
    · obtain ⟨hmem, hlt⟩ := h.after j hj k hk
      refine ⟨List.mem_append_left _ hmem, ?_⟩
      rwa [List.idxOf_append_of_mem hmem, List.idxOf_append_of_mem hj]
    · obtain rfl := List.mem_singleton.mp hj
      have hmem := hready k hk
      refine ⟨List.mem_append_left _ hmem, ?_⟩
      rw [List.idxOf_append_of_mem hmem, List.idxOf_append_of_notMem hnew]
      exact (List.idxOf_lt_length_iff.mpr hmem).trans_le (Nat.le_add_right _ _)

theorem CalleesFirst.length_le (h : CalleesFirst edges n order) : order.length ≤ n := by
  have hsub : order ⊆ List.range n := fun i hi => List.mem_range.mpr (h.inRange i hi)
  have hle := (h.once.subperm hsub).length_le
  rwa [List.length_range] at hle

/-- What a visit of function `i` does to the order. -/
def topoVisit (edges : List CallEdge) (order : List Nat) (i : Nat) : List Nat :=
  if order.contains i then order
  else if (calleesOf edges i).all order.contains then order ++ [i]
  else order

theorem topoRound_eq : topoRound edges n order = (List.range n).foldl (topoVisit edges) order :=
  rfl

theorem ready_iff {i : Nat} : (calleesOf edges i).all order.contains = true ↔
    ∀ j, Calls edges i j → j ∈ order := by
  rw [List.all_eq_true]
  exact forall_congr' fun j => imp_congr_right fun _ => List.contains_iff_mem

theorem CalleesFirst.visit (h : CalleesFirst edges n order) {i : Nat} (hi : i < n) :
    CalleesFirst edges n (topoVisit edges order i) := by
  unfold topoVisit
  split
  · exact h
  · next hnew =>
    split
    · next hready =>
      exact h.snoc hi (fun hmem => hnew (List.contains_iff_mem.mpr hmem)) (ready_iff.mp hready)
    · exact h

theorem topoVisit_extends (i : Nat) : order <+: topoVisit edges order i := by
  unfold topoVisit
  split
  · exact List.prefix_refl _
  · split
    · exact List.prefix_append _ _
    · exact List.prefix_refl _

theorem foldl_topoVisit_extends (l : List Nat) : ∀ order : List Nat,
    order <+: l.foldl (topoVisit edges) order := by
  induction l with
  | nil => exact fun _ => List.prefix_refl _
  | cons i l ih => exact fun order => (topoVisit_extends i).trans (ih _)

/-- A function that is ready when it is visited is in the order afterwards. -/
theorem foldl_topoVisit_ready (l : List Nat) : ∀ order : List Nat, ∀ i ∈ l,
    (∀ j, Calls edges i j → j ∈ order) → i ∈ l.foldl (topoVisit edges) order := by
  induction l with
  | nil => exact fun _ _ hi => absurd hi List.not_mem_nil
  | cons k l ih =>
    intro order i hi hready
    rcases List.mem_cons.mp hi with rfl | hi
    · refine (foldl_topoVisit_extends l _).subset ?_
      unfold topoVisit
      split
      · next hmem => exact List.contains_iff_mem.mp hmem
      · rw [if_pos (ready_iff.mpr hready)]
        exact List.mem_append_right _ (List.mem_singleton_self i)
    · exact ih _ i hi fun j hj => (topoVisit_extends k).subset (hready j hj)

theorem CalleesFirst.round (h : CalleesFirst edges n order) :
    CalleesFirst edges n (topoRound edges n order) := by
  rw [topoRound_eq]
  have hall : ∀ (l : List Nat) (order : List Nat), (∀ i ∈ l, i < n) →
      CalleesFirst edges n order → CalleesFirst edges n (l.foldl (topoVisit edges) order) := by
    intro l
    induction l with
    | nil => exact fun _ _ h => h
    | cons i l ih =>
      exact fun order hl h => ih _ (fun j hj => hl j (List.mem_cons_of_mem _ hj))
        (h.visit (hl i List.mem_cons_self))
  exact hall _ _ (fun i hi => List.mem_range.mp hi) h

/-- The rounds end when no function is ready any more. -/
theorem topoRounds_stuck : ∀ (k : Nat) {order : List Nat}, CalleesFirst edges n order →
    n < order.length + k → CalleesFirst edges n (topoRounds edges n k order) ∧
      ∀ i < n, (∀ j, Calls edges i j → j ∈ topoRounds edges n k order) →
        i ∈ topoRounds edges n k order
  | 0, _, h, hk => absurd h.length_le (by omega)
  | k + 1, order, h, hk => by
    have hpre : order <+: topoRound edges n order := foldl_topoVisit_extends _ _
    unfold topoRounds
    dsimp only
    split
    -- a round that adds nothing has met no function that is ready
    · next hlen =>
      have hsame := hpre.eq_of_length hlen.symm
      refine ⟨h.round, fun i hi hready => ?_⟩
      rw [← hsame] at hready
      exact foldl_topoVisit_ready _ order i (List.mem_range.mpr hi) hready
    -- any other round leaves fewer functions for the rounds that are left
    · next hlen =>
      have hle := hpre.length_le
      exact topoRounds_stuck k h.round (by omega)

theorem leaves_calleesFirst : CalleesFirst edges n
    ((List.range n).filter fun i => (calleesOf edges i).isEmpty) := by
  refine ⟨List.nodup_range.filter _, fun i hi => List.mem_range.mp (List.mem_filter.mp hi).1,
    fun i hi j hj => ?_⟩
  have hnil := List.isEmpty_iff.mp (List.mem_filter.mp hi).2
  rw [Calls, hnil] at hj
  cases hj

theorem calls_lt {fns : List BindFn} {i j : Nat} (h : Calls (buildCallGraph fns) i j) :
    j < fns.length := by
  obtain ⟨e, he, hcallee⟩ := List.mem_filterMap.mp h
  obtain ⟨x, -, hx⟩ := List.mem_flatMap.mp (List.mem_filter.mp he).1
  obtain ⟨ins, -, rfl⟩ := List.mem_map.mp hx
  unfold callEdge at hcallee
  simp only at hcallee
  split at hcallee
  · cases hcallee
  · exact (List.findIdx?_eq_some_iff_findIdx_eq.mp hcallee).1

/-- **Functions are processed after what they call.** Every function is processed once. One that
does not lead into recursion comes after all its callees, and before all that do. -/
theorem topoSort_calleesFirst (fns : List BindFn) :
    let order := topoSort (buildCallGraph fns) fns.length
    order.Perm (List.range fns.length) ∧
      ∀ i < fns.length, ¬ReachesCycle (Calls (buildCallGraph fns)) i →
        (∀ j, Calls (buildCallGraph fns) i j → order.idxOf j < order.idxOf i) ∧
        ∀ j < fns.length, ReachesCycle (Calls (buildCallGraph fns)) j →
          order.idxOf i < order.idxOf j := by
  intro order
  obtain ⟨hfirst, hstuck⟩ := @topoRounds_stuck (buildCallGraph fns) fns.length (fns.length + 1) _
    leaves_calleesFirst (by omega)
  have horder : order = topoRounds (buildCallGraph fns) fns.length (fns.length + 1)
      ((List.range fns.length).filter fun i => (calleesOf (buildCallGraph fns) i).isEmpty) ++
      (List.range fns.length).filter fun i => !(topoRounds (buildCallGraph fns) fns.length
        (fns.length + 1) ((List.range fns.length).filter fun i =>
          (calleesOf (buildCallGraph fns) i).isEmpty)).contains i := rfl
  generalize topoRounds (buildCallGraph fns) fns.length (fns.length + 1)
    ((List.range fns.length).filter fun i => (calleesOf (buildCallGraph fns) i).isEmpty) = front
    at hfirst hstuck horder
  -- what is left over has a callee that is left over as well
  have hleft : ∀ i < fns.length, i ∉ front → ReachesCycle (Calls (buildCallGraph fns)) i := by
    intro i hi hnew
    let left : Set Nat := {i | i < fns.length ∧ i ∉ front}
    have hfin : left.Finite := (Set.finite_lt_nat fns.length).subset fun _ hi => hi.1
    refine reachesCycle_of_stuck hfin (fun j hj => ?_) ⟨hi, hnew⟩
    by_contra hnone
    exact hj.2 (hstuck j hj.1 fun k hk => by_contra fun hk' => hnone ⟨k, ⟨calls_lt hk, hk'⟩, hk⟩)
  have hfront : ∀ i ∈ front, ¬ReachesCycle (Calls (buildCallGraph fns)) i := fun i hi =>
    not_reachesCycle_of_rank (S := {i | i ∈ front}) hfirst.after hi
  refine ⟨?_, fun i hi hacyclic => ?_⟩
  · refine (List.perm_ext_iff_of_nodup (topoSort_nodup _ _) List.nodup_range).mpr fun i => ?_
    rw [List.mem_range]
    refine ⟨fun hmem => ?_, mem_topoSort⟩
    change i ∈ order at hmem
    rw [horder] at hmem
    rcases List.mem_append.mp hmem with hmem | hmem
    · exact hfirst.inRange i hmem
    · exact List.mem_range.mp (List.mem_filter.mp hmem).1
  · have hmem : i ∈ front := by_contra fun hnew => hacyclic (hleft i hi hnew)
    rw [horder, List.idxOf_append_of_mem hmem]
    constructor
    · intro j hj
      obtain ⟨hjmem, hlt⟩ := hfirst.after i hmem j hj
      rwa [List.idxOf_append_of_mem hjmem]
    · intro j hj hcycle
      have hjnew : j ∉ front := fun hjmem => hfront j hjmem hcycle
      rw [List.idxOf_append_of_notMem hjnew]
      exact (List.idxOf_lt_length_iff.mpr hmem).trans_le (Nat.le_add_right _ _)

end

end Nib.Bind
