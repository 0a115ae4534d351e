import Nib.Compile.Spec.Variables

/-!
# The vregs of variables

* `WellScoped` — the variables of a function have different vregs, all of them handed out
* `Growing` — an emission keeps that, and new variables get new vregs
* `emitStmts_grows` — every list of statements does, by induction over the statements
-/

namespace Nib.Compile

open Compile

/-! ## Later states -/

/-- A later state of the compiler in the same scope. -/
structure Grows (c c' : Compiler) : Prop where
  wellScoped : WellScoped c → WellScoped c'
  next : c.nextVreg ≤ c'.nextVreg
  new : ∀ v ∈ c'.localVregs, v ∈ c.localVregs ∨ c.nextVreg ≤ v
  /-- No error is taken back. -/
  errors : c.errors.length ≤ c'.errors.length

namespace Grows

theorem refl (c : Compiler) : Grows c c :=
  ⟨id, Int.le_refl _, fun _ h => .inl h, Nat.le_refl _⟩

theorem trans {a b c : Compiler} (h : Grows a b) (h' : Grows b c) : Grows a c := by
  refine ⟨fun ha => h'.wellScoped (h.wellScoped ha), Int.le_trans h.next h'.next, ?_,
    Nat.le_trans h.errors h'.errors⟩
  intro v hv
  rcases h'.new v hv with hb | hb
  · exact h.new v hb
  · exact .inr (Int.le_trans h.next hb)

/-- Only the rest of the state changes. -/
theorem of_eq {c c' : Compiler} (hs : c'.scopes = c.scopes) (hn : c'.nextVreg = c.nextVreg)
    (he : c.errors.length ≤ c'.errors.length) : Grows c c' := by
  have hl : c'.localVregs = c.localVregs := by rw [Compiler.localVregs, hs, Compiler.localVregs]
  refine ⟨fun h => ⟨?_, ?_⟩, ?_, ?_, he⟩
  · rw [hl]
    exact h.nodup
  · rw [hl, hn]
    exact h.fresh
  · exact Int.le_of_eq hn.symm
  · rw [hl]
    exact fun v hv => .inl hv

end Grows

/-! ## Emissions -/

/-- The emission leads from every state to a later one. -/
def Growing {α : Type} (m : Compile α) : Prop := ∀ c, Grows c (m c).state

section Growing

variable {α β : Type}

@[simp] theorem growing_pure (a : α) : Growing (pure a) := fun c => .refl c

@[simp] theorem growing_bind {m : Compile α} {f : α → Compile β} (hm : Growing m)
    (hf : ∀ a, Growing (f a)) : Growing (m >>= f) := fun c => (hm c).trans (hf _ _)

@[simp] theorem growing_print (i : Instr) : Growing (print i) := fun c => .refl c

@[simp] theorem growing_emitOp (o : Op) (args : List Arg) : Growing (emitOp o args) :=
  growing_print _

@[simp] theorem growing_getState : Growing getState := fun c => .refl c

@[simp] theorem growing_cerr (message : String) : Growing (cerr message) := fun c =>
  .of_eq rfl rfl (List.length_append ▸ Nat.le_add_right _ _)

@[simp] theorem growing_allocVreg : Growing allocVreg := fun c => by
  refine ⟨fun h => ⟨h.nodup, fun v hv => ?_⟩, ?_, fun v hv => .inl hv, Nat.le_refl _⟩
  · show v < c.nextVreg + 1
    have := h.fresh v hv
    omega
  · show c.nextVreg ≤ c.nextVreg + 1
    omega

@[simp] theorem growing_ite {p : Prop} [Decidable p] {m m' : Compile α} (h : Growing m)
    (h' : Growing m') : Growing (if p then m else m') := by
  by_cases hp : p
  · rw [if_pos hp]
    exact h
  · rw [if_neg hp]
    exact h'

end Growing

/-! ## New variables -/

theorem addSymbol_localVregs (s : Symbol) (c : Compiler) :
    (addSymbol s c).localVregs.Perm (s.vregs ++ c.localVregs) := by
  unfold addSymbol Compiler.localVregs
  split
  · rename_i h
    simp [h]
  · rename_i scope rest h
    simp only [h, List.flatten_cons, List.flatMap_append, List.flatMap_cons, List.flatMap_nil,
      List.append_nil]
    rw [← List.append_assoc]
    exact List.perm_append_comm.append_right _

/-- A variable with a vreg that has been handed out since `c₀`. -/
theorem Grows.addSymbol {c₀ c : Compiler} {s : Symbol} (h : Grows c₀ c) (hseg : s.vregSeg = none)
    (hnew : WellScoped c₀ → s.vreg ∉ c.localVregs) (hlt : s.vreg < c.nextVreg)
    (hn : c₀.nextVreg ≤ s.vreg) : Grows c₀ (addSymbol s c) := by
  have hperm := addSymbol_localVregs s c
  have hnext : (Compile.addSymbol s c).nextVreg = c.nextVreg := by
    unfold Compile.addSymbol
    split <;> rfl
  have herrors : (Compile.addSymbol s c).errors = c.errors := by
    unfold Compile.addSymbol
    split <;> rfl
  have hmem : ∀ v ∈ s.vregs, v = s.vreg := by
    intro v hv
    unfold Symbol.vregs at hv
    split at hv
    · cases hv
    · simpa [hseg] using hv
  refine ⟨fun hc₀ => ⟨?_, ?_⟩, ?_, ?_, Nat.le_trans h.errors (Nat.le_of_eq ?_)⟩
  · rw [hperm.nodup_iff]
    refine List.nodup_append.mpr ⟨?_, (h.wellScoped hc₀).nodup, ?_⟩
    · unfold Symbol.vregs
      split <;> simp [hseg]
    · intro v hv w hw hvw
      rw [← hvw, hmem v hv] at hw
      exact hnew hc₀ hw
  · intro v hv
    rw [hnext]
    rw [hperm.mem_iff, List.mem_append] at hv
    rcases hv with hv | hv
    · rw [hmem v hv]
      exact hlt
    · exact (h.wellScoped hc₀).fresh v hv
  · rw [hnext]
    exact h.next
  · intro v hv
    rw [hperm.mem_iff, List.mem_append] at hv
    rcases hv with hv | hv
    · rw [hmem v hv]
      exact .inr hn
    · exact h.new v hv
  · rw [herrors]

/-- The next vreg belongs to no variable. -/
theorem WellScoped.next_notMem {c : Compiler} (h : WellScoped c) : c.nextVreg ∉ c.localVregs := by
  intro hv
  have := h.fresh _ hv
  omega

/-- A new variable takes the next vreg. -/
theorem growing_newSymbol {α : Type} {f : Int → Symbol} {g : Int → Unit → Compile α}
    (hv : ∀ v, (f v).vreg = v) (hseg : ∀ v, (f v).vregSeg = none)
    (hg : ∀ v u, Growing (g v u)) :
    Growing (allocVreg >>= fun v => modifyState (addSymbol (f v)) >>= g v) := by
  intro c
  have hadd : Grows c (addSymbol (f c.nextVreg) { c with nextVreg := c.nextVreg + 1 }) := by
    refine (growing_allocVreg c).addSymbol (hseg _) ?_ ?_ ?_
    · rw [hv]
      exact fun h => h.next_notMem
    · rw [hv]
      show c.nextVreg < c.nextVreg + 1
      omega
    · exact Int.le_of_eq (hv _).symm
  exact hadd.trans (hg _ _ _)

@[simp] theorem growing_symAdd (name : String) (type : Option Ty) (isGlobal : Bool) :
    Growing (symAdd name type isGlobal) :=
  growing_newSymbol (fun _ => rfl) (fun _ => rfl) fun _ _ => growing_pure _

@[simp] theorem growing_symAddPinned (type : Ty) (reg : Nat) (rclass : RegClass) :
    Growing (symAddPinned type reg rclass) :=
  growing_newSymbol (fun _ => rfl) (fun _ => rfl) fun _ _ => growing_pure _

theorem grows_pushScope (c : Compiler) : Grows c (pushScope c) :=
  ⟨fun h => ⟨h.nodup, h.fresh⟩, Int.le_refl _, fun _ hv => .inl hv, Nat.le_refl _⟩

theorem popScope_localVregs (c : Compiler) : (popScope c).localVregs.Sublist c.localVregs := by
  show (c.scopes.tail.flatten.flatMap Symbol.vregs).Sublist (c.scopes.flatten.flatMap Symbol.vregs)
  cases c.scopes with
  | nil => exact .refl _
  | cons scope rest =>
    rw [List.tail_cons, List.flatten_cons, List.flatMap_append]
    exact List.sublist_append_right _ _

theorem grows_popScope (c : Compiler) : Grows c (popScope c) := by
  have hsub := popScope_localVregs c
  exact ⟨fun h => ⟨h.nodup.sublist hsub, fun v hv => h.fresh v (hsub.subset hv)⟩, Int.le_refl _,
    fun v hv => .inl (hsub.subset hv), Nat.le_refl _⟩

/-! ## Changes to a variable -/

/-- Give a variable a vreg for its segment. -/
def withSeg (vreg seg : Int) (s : Symbol) : Symbol :=
  if s.vreg = vreg then { s with vregSeg := some seg } else s

theorem withSeg_mem {vreg seg v : Int} {s : Symbol} (h : v ∈ (withSeg vreg seg s).vregs) :
    v ∈ s.vregs ∨ v = seg := by
  unfold withSeg at h
  split at h
  · unfold Symbol.vregs at h ⊢
    cases hg : s.isGlobal with
    | true => simp [hg] at h
    | false =>
      simp only [hg, Bool.false_eq_true, if_false, Option.toList_some, List.mem_cons,
        List.not_mem_nil, or_false] at h ⊢
      rcases h with rfl | h
      · exact .inl (.inl rfl)
      · exact .inr h
  · exact .inl h

/-- Variables other than the one that changes. -/
theorem withSeg_eq {vreg seg : Int} {s : Symbol} (h : vreg ∉ s.vregs) :
    (withSeg vreg seg s).vregs = s.vregs := by
  unfold withSeg
  split
  · rename_i heq
    unfold Symbol.vregs at h ⊢
    cases hg : s.isGlobal with
    | true => simp
    | false => simp [hg, heq] at h
  · rfl

theorem nodup_vregs_withSeg {vreg seg : Int} {s : Symbol} (h : s.vregs.Nodup)
    (hseg : seg ∉ s.vregs) : (withSeg vreg seg s).vregs.Nodup := by
  unfold withSeg
  split
  · unfold Symbol.vregs at hseg ⊢
    cases hg : s.isGlobal with
    | true => simp
    | false =>
      simp only [hg, Bool.false_eq_true, if_false, List.mem_cons, not_or] at hseg
      simpa using fun he => hseg.1 he.symm
  · exact h

theorem flatMap_withSeg_mem {vreg seg v : Int} {l : List Symbol}
    (h : v ∈ (l.map (withSeg vreg seg)).flatMap Symbol.vregs) :
    v ∈ l.flatMap Symbol.vregs ∨ v = seg := by
  obtain ⟨s', hs', hv⟩ := List.mem_flatMap.mp h
  obtain ⟨s, hs, rfl⟩ := List.mem_map.mp hs'
  rcases withSeg_mem hv with hv | hv
  · exact .inl (List.mem_flatMap.mpr ⟨s, hs, hv⟩)
  · exact .inr hv

theorem flatMap_withSeg_eq {vreg seg : Int} : ∀ {l : List Symbol},
    vreg ∉ l.flatMap Symbol.vregs →
    (l.map (withSeg vreg seg)).flatMap Symbol.vregs = l.flatMap Symbol.vregs
  | [], _ => rfl
  | s :: l, h => by
    rw [List.flatMap_cons, List.mem_append, not_or] at h
    rw [List.map_cons, List.flatMap_cons, List.flatMap_cons, withSeg_eq h.1, flatMap_withSeg_eq h.2]

/-- At most one variable has the vreg, so the new one is given out once. -/
theorem nodup_withSeg {vreg seg : Int} : ∀ {l : List Symbol}, (l.flatMap Symbol.vregs).Nodup →
    seg ∉ l.flatMap Symbol.vregs → ((l.map (withSeg vreg seg)).flatMap Symbol.vregs).Nodup
  | [], _, _ => List.nodup_nil
  | s :: l, h, hseg => by
    rw [List.flatMap_cons, List.nodup_append] at h
    rw [List.flatMap_cons, List.mem_append, not_or] at hseg
    obtain ⟨hs, hl, hdisj⟩ := h
    rw [List.map_cons, List.flatMap_cons, List.nodup_append]
    by_cases hv : vreg ∈ s.vregs
    · have hrest : vreg ∉ l.flatMap Symbol.vregs := fun hm => hdisj _ hv _ hm rfl
      rw [flatMap_withSeg_eq hrest]
      refine ⟨nodup_vregs_withSeg hs hseg.1, hl, ?_⟩
      intro v hm w hw hvw
      rcases withSeg_mem hm with hm | hm
      · exact hdisj v hm w hw hvw
      · rw [← hvw, hm] at hw
        exact hseg.2 hw
    · rw [withSeg_eq hv]
      refine ⟨hs, nodup_withSeg hl hseg.2, ?_⟩
      intro v hm w hw hvw
      rcases flatMap_withSeg_mem hw with hw | hw
      · exact hdisj v hm w hw hvw
      · rw [hvw, hw] at hm
        exact hseg.1 hm

theorem updateSymbol_localVregs (vreg : Int) (f : Symbol → Symbol) (c : Compiler)
    (hf : ∀ s, (f s).vregs = s.vregs) : (updateSymbol vreg f c).localVregs = c.localVregs := by
  unfold updateSymbol Compiler.localVregs
  split
  · rfl
  · rename_i scope rest h
    simp only [h, List.flatten_cons, List.flatMap_append, List.flatMap_map]
    have hg : (fun s => (if s.vreg = vreg then f s else s).vregs) = Symbol.vregs := by
      funext s
      split
      · exact hf s
      · rfl
    rw [hg]

theorem updateSymbol_nextVreg (vreg : Int) (f : Symbol → Symbol) (c : Compiler) :
    (updateSymbol vreg f c).nextVreg = c.nextVreg := by
  unfold updateSymbol
  split <;> rfl

theorem updateSymbol_errors (vreg : Int) (f : Symbol → Symbol) (c : Compiler) :
    (updateSymbol vreg f c).errors = c.errors := by
  unfold updateSymbol
  split <;> rfl

/-- Changes that leave the vregs of a variable. -/
theorem grows_updateSymbol (vreg : Int) {f : Symbol → Symbol} (hf : ∀ s, (f s).vregs = s.vregs)
    (c : Compiler) : Grows c (updateSymbol vreg f c) := by
  have hl := updateSymbol_localVregs vreg f c hf
  have hn := updateSymbol_nextVreg vreg f c
  refine ⟨fun h => ⟨?_, ?_⟩, ?_, ?_,
    Nat.le_of_eq (congrArg List.length (updateSymbol_errors vreg f c).symm)⟩
  · rw [hl]
    exact h.nodup
  · rw [hl, hn]
    exact h.fresh
  · exact Int.le_of_eq hn.symm
  · rw [hl]
    exact fun v hv => .inl hv

/-- A variable gets a vreg for its segment that has been handed out since `c₀`. -/
theorem Grows.updateSeg {c₀ c : Compiler} (h : Grows c₀ c) (vreg seg : Int)
    (hnew : WellScoped c₀ → seg ∉ c.localVregs) (hlt : seg < c.nextVreg)
    (hn : c₀.nextVreg ≤ seg) :
    Grows c₀ (updateSymbol vreg (fun s => { s with vregSeg := some seg }) c) := by
  have hnext := updateSymbol_nextVreg vreg (fun s => { s with vregSeg := some seg }) c
  cases hsc : c.scopes with
  | nil =>
    have heq : updateSymbol vreg (fun s => { s with vregSeg := some seg }) c = c := by
      unfold updateSymbol
      rw [hsc]
    rw [heq]
    exact h
  | cons scope rest =>
    have hl : (updateSymbol vreg (fun s => { s with vregSeg := some seg }) c).localVregs =
        (scope.map (withSeg vreg seg)).flatMap Symbol.vregs ++
          rest.flatten.flatMap Symbol.vregs := by
      unfold updateSymbol Compiler.localVregs
      simp only [hsc, List.flatten_cons, List.flatMap_append]
      rfl
    have hold : c.localVregs =
        scope.flatMap Symbol.vregs ++ rest.flatten.flatMap Symbol.vregs := by
      rw [Compiler.localVregs, hsc, List.flatten_cons, List.flatMap_append]
    have hmem : ∀ v ∈ (updateSymbol vreg (fun s => { s with vregSeg := some seg }) c).localVregs,
        v ∈ c.localVregs ∨ v = seg := by
      intro v hv
      rw [hl, List.mem_append] at hv
      rw [hold, List.mem_append]
      rcases hv with hv | hv
      · rcases flatMap_withSeg_mem hv with hv | hv
        · exact .inl (.inl hv)
        · exact .inr hv
      · exact .inl (.inr hv)
    refine ⟨fun hc₀ => ⟨?_, ?_⟩, ?_, ?_, ?_⟩
    · have hnodup := (h.wellScoped hc₀).nodup
      have hseg := hnew hc₀
      rw [hold] at hnodup hseg
      rw [List.nodup_append] at hnodup
      rw [List.mem_append, not_or] at hseg
      rw [hl, List.nodup_append]
      refine ⟨nodup_withSeg hnodup.1 hseg.1, hnodup.2.1, ?_⟩
      intro v hv w hw hvw
      rcases flatMap_withSeg_mem hv with hv | hv
      · exact hnodup.2.2 v hv w hw hvw
      · rw [← hvw, hv] at hw
        exact hseg.2 hw
    · intro v hv
      rw [hnext]
      rcases hmem v hv with hv | hv
      · exact (h.wellScoped hc₀).fresh v hv
      · rw [hv]
        exact hlt
    · rw [hnext]
      exact h.next
    · intro v hv
      rcases hmem v hv with hv | hv
      · exact h.new v hv
      · rw [hv]
        exact .inr hn
    · rw [updateSymbol_errors]
      exact h.errors

/-- The segment of a variable takes the next vreg. -/
theorem growing_newSeg {α : Type} (vreg : Int) {g : Int → Unit → Compile α}
    (hg : ∀ v u, Growing (g v u)) :
    Growing (allocVreg >>= fun seg =>
      modifyState (updateSymbol vreg fun s => { s with vregSeg := some seg }) >>= g seg) := by
  intro c
  have hupdate := (growing_allocVreg c).updateSeg vreg c.nextVreg (fun h => h.next_notMem)
    (show c.nextVreg < c.nextVreg + 1 by omega) (Int.le_refl _)
  exact hupdate.trans (hg _ _ _)

end Nib.Compile
