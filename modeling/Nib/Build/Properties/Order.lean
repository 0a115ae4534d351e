import Nib.Build.Spec.Scan
import Mathlib.Data.List.Nodup
import Mathlib.Data.List.Perm.Basic
import Mathlib.Data.Set.Finite.Lattice

/-!
# The build order

* `InBuild.visit` — a module that is appended comes after all that it uses
* `sweep_unchanged` — a sweep that changes nothing has found no module ready
* `topoLoop_some` — the sweeps end
* `topoSort_order` — what `topoSort` returns
-/

namespace Nib.Build

open Nib.Infra

variable {t : ModuleTable} {s : TopoState} {i dep : Nat} {m : Entry}

theorem ModuleTable.Uses.lt_left (h : t.Uses i dep) : i < t.size := by
  obtain ⟨m, hm, -⟩ := h
  exact (List.getElem?_eq_some_iff.mp hm).1

theorem ModuleTable.Uses.lt_right (h : t.Uses i dep) : dep < t.size := by
  obtain ⟨m, hm, hdep⟩ := h
  exact t.inRange m (List.mem_of_getElem? hm) dep hdep

/-! ## One step -/

/-- What is in the order is what has been visited, each module once and after all it uses. -/
structure InBuild (t : ModuleTable) (s : TopoState) : Prop where
  length : s.visited.length = t.size
  visited : ∀ i, s.isVisited i = true ↔ i ∈ s.buildOrder
  once : s.buildOrder.Nodup
  after : ∀ i ∈ s.buildOrder, ∀ dep, t.Uses i dep →
    dep ∈ s.buildOrder ∧ s.buildOrder.idxOf dep < s.buildOrder.idxOf i

theorem InBuild.lt (h : InBuild t s) (hi : i ∈ s.buildOrder) : i < t.size := by
  rw [← h.visited, TopoState.isVisited, List.getD_eq_getElem?_getD] at hi
  by_contra hge
  rw [List.getElem?_eq_none (by rw [h.length]; omega)] at hi
  exact Bool.false_ne_true hi

theorem InBuild.length_le (h : InBuild t s) : s.buildOrder.length ≤ t.size := by
  have hsub : s.buildOrder ⊆ List.range t.size := fun i hi => List.mem_range.mpr (h.lt hi)
  have hle := (h.once.subperm hsub).length_le
  rwa [List.length_range] at hle

/-- What a visit does: nothing, or it appends a module that is ready. -/
theorem visit_cases (s : TopoState) (i : Nat) (m : Entry) :
    (s.visit i m = s ∧ (s.isVisited i = false → ∃ dep ∈ m.deps, s.isVisited dep = false)) ∨
      (s.isVisited i = false ∧ (∀ dep ∈ m.deps, s.isVisited dep = true) ∧
        s.visit i m =
          { visited := s.visited.set i true, buildOrder := s.buildOrder ++ [i],
            changed := true }) := by
  unfold TopoState.visit
  by_cases hv : s.isVisited i = true
  · rw [if_pos hv]
    exact .inl ⟨rfl, fun h => absurd (hv.symm.trans h) (by decide)⟩
  rw [if_neg hv]
  by_cases hready : m.deps.all s.isVisited = true
  · rw [if_pos hready]
    exact .inr ⟨Bool.eq_false_iff.mpr hv, List.all_eq_true.mp hready, rfl⟩
  · rw [if_neg hready]
    refine .inl ⟨rfl, fun _ => ?_⟩
    simpa using hready

theorem InBuild.visit (h : InBuild t s) (hm : t.entries[i]? = some m) :
    InBuild t (s.visit i m) := by
  rcases visit_cases s i m with ⟨heq, -⟩ | ⟨hnew, hready, heq⟩
  · rwa [heq]
  rw [heq]
  have hlt : i < s.visited.length := by
    rw [h.length]
    exact (List.getElem?_eq_some_iff.mp hm).1
  have hnot : i ∉ s.buildOrder := by
    rw [← h.visited, hnew]
    exact Bool.false_ne_true
  refine ⟨by rw [List.length_set, h.length], fun j => ?_, ?_, fun j hj dep hdep => ?_⟩
  · rw [List.mem_append, List.mem_singleton, ← h.visited]
    simp only [TopoState.isVisited, List.getD_eq_getElem?_getD]
    by_cases hij : i = j
    · subst hij
      simp [List.getElem?_set_self hlt]
    · rw [List.getElem?_set_ne hij]
      exact ⟨.inl, fun h => h.resolve_right fun hji => hij hji.symm⟩
  · exact List.nodup_append.mpr ⟨h.once, List.nodup_singleton i, fun a ha b hb hab =>
      hnot (List.mem_singleton.mp hb ▸ hab ▸ ha)⟩
  · rcases List.mem_append.mp hj with hj | hj
    · obtain ⟨hmem, hlt⟩ := h.after j hj dep hdep
      refine ⟨List.mem_append_left _ hmem, ?_⟩
      rwa [List.idxOf_append_of_mem hmem, List.idxOf_append_of_mem hj]
    · obtain rfl := List.mem_singleton.mp hj
      obtain ⟨m', hm', hdep⟩ := hdep
      obtain rfl := Option.some.inj (hm.symm.trans hm')
      have hmem := (h.visited dep).mp (hready dep hdep)
      refine ⟨List.mem_append_left _ hmem, ?_⟩
      rw [List.idxOf_append_of_mem hmem, List.idxOf_append_of_notMem hnot]
      exact Nat.lt_of_lt_of_le (List.idxOf_lt_length_iff.mpr hmem) (Nat.le_add_right _ _)

/-! ## One sweep -/

theorem InBuild.sweep {l before : List Entry} (h : InBuild t s) (hl : t.entries = before ++ l) :
    InBuild t (s.sweep before.length l) := by
  induction l generalizing s before with
  | nil => exact h
  | cons m l ih =>
    have hm : t.entries[before.length]? = some m := by
      rw [hl, List.getElem?_append_right (Nat.le_refl _), Nat.sub_self, List.getElem?_cons_zero]
    have hrest := @ih _ (before ++ [m]) (h.visit hm) (by rw [hl, List.append_assoc]; rfl)
    rwa [List.length_append, List.length_singleton] at hrest

/-- A sweep appends at least as many modules as the flag tells. -/
theorem sweep_grows (l : List Entry) : ∀ (s : TopoState) (i : Nat),
    s.buildOrder.length ≤ (s.sweep i l).buildOrder.length ∧
      ((s.sweep i l).changed = true → s.changed = true ∨
        s.buildOrder.length < (s.sweep i l).buildOrder.length) := by
  induction l with
  | nil => exact fun s i => ⟨Nat.le_refl _, .inl⟩
  | cons m l ih =>
    intro s i
    obtain ⟨hle, hlt⟩ := ih (s.visit i m) (i + 1)
    rw [TopoState.sweep]
    rcases visit_cases s i m with ⟨heq, -⟩ | ⟨-, -, heq⟩
    · rw [heq] at hle hlt ⊢
      exact ⟨hle, hlt⟩
    · have hlen : (s.visit i m).buildOrder.length = s.buildOrder.length + 1 := by
        rw [heq, List.length_append, List.length_singleton]
      exact ⟨by omega, fun _ => .inr (by omega)⟩

/-- Nothing that is left is ready. -/
def Stuck (s : TopoState) (m : Entry) (i : Nat) : Prop :=
  s.isVisited i = false → ∃ dep ∈ m.deps, s.isVisited dep = false

theorem sweep_changed (l : List Entry) : ∀ (s : TopoState) (i : Nat), s.changed = true →
    (s.sweep i l).changed = true := by
  induction l with
  | nil => exact fun _ _ h => h
  | cons m l ih =>
    intro s i h
    refine ih _ _ ?_
    rcases visit_cases s i m with ⟨heq, -⟩ | ⟨-, -, heq⟩
    · rwa [heq]
    · rw [heq]

theorem sweep_unchanged {l : List Entry} : ∀ {s : TopoState} {i : Nat},
    (s.sweep i l).changed = false →
      s.sweep i l = s ∧ ∀ k m, l[k]? = some m → Stuck s m (i + k) := by
  induction l with
  | nil => exact fun _ => ⟨rfl, fun k m hk => by cases hk⟩
  | cons m l ih =>
    intro s i h
    rw [TopoState.sweep] at h ⊢
    rcases visit_cases s i m with ⟨heq, hstuck⟩ | ⟨-, -, heq⟩
    · rw [heq] at h ⊢
      obtain ⟨hsame, hrest⟩ := ih h
      refine ⟨hsame, fun k m' hk => ?_⟩
      cases k with
      | zero =>
        obtain rfl := Option.some.inj hk
        exact hstuck
      | succ k =>
        rw [show i + (k + 1) = i + 1 + k by omega]
        exact hrest k m' hk
    · have hc := sweep_changed l (s.visit i m) (i + 1) (by rw [heq])
      rw [hc] at h
      cases h

/-! ## All sweeps -/

/-- The state after the last sweep. -/
structure Finished (t : ModuleTable) (s : TopoState) : Prop extends InBuild t s where
  stuck : ∀ i m, t.entries[i]? = some m → Stuck s m i

theorem topoLoop_some : ∀ {fuel : Nat} {s : TopoState}, InBuild t s →
    t.size < s.buildOrder.length + fuel → ∃ s', t.topoLoop fuel s = some s' ∧ Finished t s'
  | 0, _, h, hfuel => absurd h.length_le (by omega)
  | fuel + 1, s, h, hfuel => by
    have hstart : InBuild t { s with changed := false } := ⟨h.length, h.visited, h.once, h.after⟩
    have hsweep := @InBuild.sweep t _ t.entries [] hstart rfl
    rw [ModuleTable.topoLoop]
    obtain ⟨-, hgrows⟩ := sweep_grows t.entries { s with changed := false } 0
    cases hc : ({ s with changed := false }.sweep 0 t.entries : TopoState).changed with
    | true =>
      rcases hgrows hc with hc | hlt
      · cases hc
      · rw [if_pos rfl]
        change s.buildOrder.length < _ at hlt
        exact topoLoop_some hsweep (by omega)
    | false =>
      rw [if_neg Bool.false_ne_true]
      obtain ⟨hsame, hstuck⟩ := sweep_unchanged hc
      refine ⟨_, rfl, hsweep, fun i m hm => ?_⟩
      rw [hsame]
      simpa using hstuck i m hm

/-- What has not been visited leads into a cycle, and nothing else does. -/
theorem Finished.reachesCycle_iff (h : Finished t s) (hi : i < t.size) :
    s.isVisited i = false ↔ ReachesCycle t.Uses i := by
  constructor
  · intro hnew
    let left : Set Nat := {i | i < t.size ∧ s.isVisited i = false}
    have hfin : left.Finite := (Set.finite_lt_nat t.size).subset fun _ hi => hi.1
    refine reachesCycle_of_stuck hfin (fun j hj => ?_) ⟨hi, hnew⟩
    have hm := List.getElem?_eq_getElem hj.1
    obtain ⟨dep, hdep, hnew⟩ := h.stuck j _ hm hj.2
    have huses : t.Uses j dep := ⟨_, hm, hdep⟩
    exact ⟨dep, ⟨huses.lt_right, hnew⟩, huses⟩
  · intro hcycle
    by_contra hv
    have hmem := (h.visited i).mp (by simpa using hv)
    exact not_reachesCycle_of_rank (S := {i | i ∈ s.buildOrder}) h.after hmem hcycle

theorem inBuild_start (t : ModuleTable) :
    InBuild t { visited := List.replicate t.size false } := by
  have hnone : ∀ i, (List.replicate t.size false).getD i false = false := by
    intro i
    rw [List.getD_eq_getElem?_getD, List.getElem?_replicate]
    split_ifs <;> rfl
  refine ⟨List.length_replicate, fun i => ?_, List.nodup_nil, fun i hi => ?_⟩
  · rw [TopoState.isVisited, hnone]
    exact ⟨fun h => absurd h Bool.false_ne_true, fun h => absurd h List.not_mem_nil⟩
  · exact absurd hi List.not_mem_nil

/-- **The sort ends with every module in the order once.** Without a cycle every module comes after
all that it uses. A cycle is reported for the modules from which one is reached. -/
theorem topoSort_order (t : ModuleTable) : ∃ r, t.topoSort = some r ∧
    r.buildOrder.Perm (List.range t.size) ∧
    (t.Acyclic → t.Ordered r.buildOrder ∧ r.cycles = []) ∧
    r.cycles.Nodup ∧ ∀ i, i ∈ r.cycles ↔ i < t.size ∧ ReachesCycle t.Uses i := by
  obtain ⟨s, hs, h⟩ := topoLoop_some (t := t) (inBuild_start t)
    (show t.size < 0 + (t.size + 1) by omega)
  have hcycles : ∀ i, i ∈ (List.range t.size).filter (fun i => !s.isVisited i) ↔
      i < t.size ∧ ReachesCycle t.Uses i := by
    intro i
    rw [List.mem_filter, List.mem_range, Bool.not_eq_true']
    exact and_congr_right fun hi => h.reachesCycle_iff hi
  have hnodup : ((List.range t.size).filter fun i => !s.isVisited i).Nodup :=
    List.nodup_range.filter _
  refine ⟨_, by rw [ModuleTable.topoSort, hs]; rfl, ?_, fun hacyclic => ?_, hnodup, hcycles⟩
  · refine (List.perm_ext_iff_of_nodup (List.nodup_append.mpr ⟨h.once, hnodup, ?_⟩)
      List.nodup_range).mpr fun i => ?_
    · intro a ha b hb hab
      have hb := (List.mem_filter.mp hb).2
      rw [← hab, (h.visited a).mpr ha] at hb
      exact Bool.false_ne_true hb
    · rw [List.mem_append, List.mem_filter, List.mem_range, ← h.visited]
      constructor
      · rintro (hi | hi)
        · exact h.lt ((h.visited i).mp hi)
        · exact hi.1
      · intro hi
        cases s.isVisited i with
        | true => exact .inl rfl
        | false => exact .inr ⟨hi, rfl⟩
  · have hnil : (List.range t.size).filter (fun i => !s.isVisited i) = [] := by
      refine List.eq_nil_iff_forall_not_mem.mpr fun i hi => ?_
      obtain ⟨c, -, hc⟩ := ((hcycles i).mp hi).2
      exact hacyclic c hc
    refine ⟨fun i dep huses => ?_, hnil⟩
    have hi : s.isVisited i = true := by
      by_contra hv
      have hmem : i ∈ (List.range t.size).filter fun i => !s.isVisited i :=
        List.mem_filter.mpr ⟨List.mem_range.mpr huses.lt_left, by simpa using hv⟩
      rw [hnil] at hmem
      exact List.not_mem_nil hmem
    rw [hnil, List.append_nil]
    exact (h.after i ((h.visited i).mp hi) dep huses).2

end Nib.Build
