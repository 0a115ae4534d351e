import Nib.Bind.Properties.Igraph

/-!
# Register allocation is sound on the edges of the graph

Every step of the allocator colours a vreg only with a register no neighbour holds, the fixed
vregs apart. So soundness is a matter of edges.

* `allocate_colored` — interfering vregs get registers that do not alias
* `allocate_sound_iff` — the allocation is sound for all pins and preferences exactly if every
  clash is seen by the walk that builds the graph
-/

namespace Nib.Bind

open Nib.Infra Igraph

theorem pregsAlias_of_takenBy {p preg : Preg} (h : takenBy preg (some p) = false) :
    pregsAlias p preg = false := by
  simp only [takenBy, Bool.or_eq_false_iff] at h
  exact h.2

/-- The invariant of the allocator: only vregs in range hold a register, and interfering vregs
hold registers that do not alias unless both are fixed. -/
structure Colored {n : Nat} (g : Igraph n) (vregs : VregTable) (a : Assignment) : Prop where
  inRange : ∀ {v p}, a.assigned v = some p → v < n
  noAlias : ∀ {v w p q}, g.Adj v w → a.assigned v = some p → a.assigned w = some q →
    pregsAlias p q = false ∨ ((vregs v).fixed = true ∧ (vregs w).fixed = true)

namespace Func

variable {fn : Func} {g : Igraph fn.nvregs} {vregs : VregTable} {bpAvailable : Bool}

theorem mem_neighbors {v w : Nat} (hw : w < fn.nvregs) :
    w ∈ fn.neighbors g v ↔ g.Adj v w := by
  simp [neighbors, Adj, hw]

/-- Colouring a vreg with a register no neighbour holds. -/
theorem colored_update {a : Assignment} (h : Colored g vregs a) (hirr : ∀ x, ¬g.Adj x x)
    {v : Nat} (hv : v < fn.nvregs) {preg : Preg}
    (hfree : ∀ {w q}, g.Adj v w → a.assigned w = some q → pregsAlias q preg = false) :
    Colored g vregs (a.assign v (some preg)) where
  inRange {u p} hu := by
    by_cases huv : u = v
    · exact huv ▸ hv
    · rw [Assignment.assign_of_ne _ _ huv] at hu
      exact h.inRange hu
  noAlias {x y p q} hadj hx hy := by
    by_cases hxv : x = v
    · subst hxv
      have hyx : y ≠ x := fun hyx => hirr x (hyx ▸ hadj)
      rw [Assignment.assign_self] at hx
      rw [Assignment.assign_of_ne _ _ hyx] at hy
      cases hx
      exact Or.inl (pregsAlias_comm _ _ ▸ hfree hadj hy)
    · rw [Assignment.assign_of_ne _ _ hxv] at hx
      by_cases hyv : y = v
      · subst hyv
        rw [Assignment.assign_self] at hy
        cases hy
        exact Or.inl (hfree hadj.symm hx)
      · rw [Assignment.assign_of_ne _ _ hyv] at hy
        exact h.noAlias hadj hx hy

theorem foldl_preserves {α β : Type} (P : β → Prop) {f : β → α → β} :
    ∀ (l : List α) {b : β}, (∀ b, ∀ i ∈ l, P b → P (f b i)) → P b → P (l.foldl f b)
  | [], _, _, h => h
  | i :: l, b, hf, h =>
    foldl_preserves P l (fun c j hj => hf c j (List.mem_cons_of_mem i hj))
      (hf b i List.mem_cons_self h)

/-! ## Phase 1 -/

/-- After the first loop only fixed vregs hold a register. -/
theorem colorFixed_colored (g : Igraph fn.nvregs) (vregs : VregTable) :
    Colored g vregs ((List.range fn.nvregs).foldl (colorFixed vregs) {}) := by
  let P : Assignment → Prop := fun a =>
    ∀ v p, a.assigned v = some p → v < fn.nvregs ∧ (vregs v).fixed = true
  have hP : P ((List.range fn.nvregs).foldl (colorFixed vregs) {}) := by
    refine foldl_preserves P _ (fun a i hi ha => ?_) (fun v p h => by simp at h)
    unfold colorFixed
    simp only
    split
    · exact ha
    · split
      · next hfix =>
        intro v p hv
        by_cases hvi : v = i
        · subst hvi
          exact ⟨List.mem_range.mp hi, ((Bool.and_eq_true _ _).mp hfix).1⟩
        · rw [Assignment.assign_of_ne _ _ hvi] at hv
          exact ha v p hv
      · exact ha
  exact ⟨fun h => (hP _ _ h).1, fun _ hx hy => Or.inr ⟨(hP _ _ hx).2, (hP _ _ hy).2⟩⟩

theorem colorPreferred_colored (hirr : ∀ x, ¬g.Adj x x) {a : Assignment} {i : Nat}
    (hi : i < fn.nvregs) (h : Colored g vregs a) :
    Colored g vregs (fn.colorPreferred g vregs bpAvailable a i) := by
  unfold colorPreferred
  simp only
  split
  · exact h
  · split
    · exact h
    · next preg _ =>
      split
      · next hok =>
        have hfree := ((Bool.and_eq_true _ _).mp hok).2
        simp only [Bool.not_eq_true', preferConflicts, List.any_eq_false, List.mem_range,
          Bool.and_eq_true, bne_iff_ne, not_and, Bool.not_eq_true] at hfree
        refine colored_update h hirr hi fun {w q} hadj hw => ?_
        have hwi : w ≠ i := fun hwi => hirr i (hwi ▸ hadj)
        exact pregsAlias_of_takenBy (hw ▸ hfree w (h.inRange hw) ⟨hwi, hadj⟩)
      · exact h

theorem precolor_colored (hirr : ∀ x, ¬g.Adj x x) :
    Colored g vregs (fn.precolor g vregs bpAvailable) :=
  foldl_preserves _ _ (fun _ _ hi => colorPreferred_colored hirr (List.mem_range.mp hi))
    (colorFixed_colored g vregs)

/-! ## Phase 2 -/

theorem cheapest_mem {candidate : Nat → Bool} {v : Nat} (h : fn.cheapest vregs candidate = some v) :
    v < fn.nvregs ∧ candidate v = true := by
  let P : Option Nat × Int → Prop := fun best =>
    ∀ u, best.1 = some u → u < fn.nvregs ∧ candidate u = true
  have hP : P ((List.range fn.nvregs).foldl (cheapestStep vregs candidate) (none, intMax)) := by
    refine foldl_preserves P _ (fun best i hi hbest => ?_) (fun u hu => by simp at hu)
    unfold cheapestStep
    split
    · next hc =>
      intro u hu
      cases hu
      exact ⟨List.mem_range.mp hi, ((Bool.and_eq_true _ _).mp hc).1⟩
    · exact hbest
  exact hP v h

theorem pickSimplify_mem {removed : Nat → Bool} {v : Nat}
    (h : fn.pickSimplify g vregs bpAvailable removed = some v) :
    v < fn.nvregs ∧ removed v = false := by
  rw [pickSimplify, Option.or_eq_some_iff] at h
  rcases h with h | ⟨-, h⟩
  · obtain ⟨hv, hc⟩ := cheapest_mem h
    exact ⟨hv, by simpa using ((Bool.and_eq_true _ _).mp hc).1⟩
  · obtain ⟨hv, hc⟩ := cheapest_mem h
    exact ⟨hv, by simpa using hc⟩

/-- Only vregs that were not handled yet are ever pushed. -/
theorem mem_simplify : ∀ (k : Nat) (removed : Nat → Bool) (stack : List Nat) {v : Nat},
    v ∈ fn.simplify g vregs bpAvailable k removed stack →
      v ∈ stack ∨ (v < fn.nvregs ∧ removed v = false)
  | 0, _, _, _, h => Or.inl h
  | k + 1, removed, stack, v, h => by
    unfold simplify at h
    split at h
    · next u hu =>
      obtain ⟨hlt, hnot⟩ := pickSimplify_mem hu
      rcases mem_simplify k _ _ h with h | ⟨hv, hr⟩
      · rcases List.mem_cons.mp h with rfl | h
        · exact Or.inr ⟨hlt, hnot⟩
        · exact Or.inl h
      · refine Or.inr ⟨hv, ?_⟩
        by_cases hvu : v = u
        · exact hvu ▸ hnot
        · rwa [Function.update_of_ne hvu] at hr
    · exact Or.inl h

theorem mem_workStack {a : Assignment} {v : Nat}
    (h : v ∈ fn.workStack g vregs bpAvailable a) : v < fn.nvregs ∧ a.assigned v = none := by
  rcases mem_simplify _ _ _ h with h | ⟨hv, hr⟩
  · exact absurd h List.not_mem_nil
  · refine ⟨hv, ?_⟩
    simp only [handled, Bool.or_eq_false_iff] at hr
    exact Option.isSome_eq_false_iff.mp hr.1.2 |> Option.isNone_iff_eq_none.mp

/-! ## Phase 3 -/

theorem not_conflicts {assigned : Nat → Option Preg} {v : Nat} {preg : Preg}
    (h : fn.colorConflicts g assigned v preg = false) {w : Nat} {q : Preg} (hw : w < fn.nvregs)
    (hadj : g.Adj v w) (hq : assigned w = some q) : pregsAlias q preg = false := by
  rw [colorConflicts, List.any_eq_false] at h
  have := h w ((mem_neighbors hw).mpr hadj)
  rw [hq, Bool.not_eq_true] at this
  exact pregsAlias_of_takenBy this

theorem chooseColor_free {assigned : Nat → Option Preg} {v : Nat} {pool : List Preg} {preg : Preg}
    (h : fn.chooseColor g vregs assigned v pool = some preg) :
    fn.colorConflicts g assigned v preg = false := by
  let P : Option Preg × Int → Prop := fun best =>
    ∀ p, best.1 = some p → fn.colorConflicts g assigned v p = false
  have hP : P (pool.zipIdx.foldl (fn.chooseColorStep g vregs assigned v) (none, intMin)) := by
    refine foldl_preserves P _ (fun best x _ hbest => ?_) (fun p hp => by simp at hp)
    unfold chooseColorStep
    split
    · exact hbest
    · next hc =>
      split
      · intro p hp
        cases hp
        simpa using hc
      · exact hbest
  exact hP preg h

theorem preferredColor_free {assigned : Nat → Option Preg} {v : Nat} {pool : List Preg}
    {preg : Preg} (h : fn.preferredColor g vregs bpAvailable assigned v pool = some preg) :
    fn.colorConflicts g assigned v preg = false := by
  unfold preferredColor at h
  split at h
  · exact absurd h (by simp)
  · split at h
    · exact absurd h (by simp)
    · split at h
      · next hc =>
        cases h
        simpa using ((Bool.and_eq_true _ _).mp hc).2
      · exact absurd h (by simp)

/-- What popping one vreg can do to the colours: nothing, or give it a free register. -/
theorem selectOne_cases (fn : Func) (g : Igraph fn.nvregs) (vregs : VregTable)
    (bpAvailable : Bool) (a : Assignment) (v : Nat) :
    (fn.selectOne g vregs bpAvailable a v).assigned = a.assigned ∨
      ∃ preg, fn.colorConflicts g a.assigned v preg = false ∧
        fn.selectOne g vregs bpAvailable a v = a.assign v (some preg) := by
  unfold selectOne
  simp only
  split
  · next preg hp =>
    refine Or.inr ⟨preg, ?_, rfl⟩
    rcases Option.or_eq_some_iff.mp hp with hp | ⟨-, hp⟩
    · exact preferredColor_free hp
    · exact chooseColor_free hp
  · split <;> exact Or.inl rfl

/-- The invariant reads the colours only. -/
theorem colored_congr {a b : Assignment} (h : Colored g vregs a) (heq : b.assigned = a.assigned) :
    Colored g vregs b := by
  obtain ⟨h1, h2⟩ := h
  exact ⟨fun hv => h1 (heq ▸ hv), fun hadj hx hy => h2 hadj (heq ▸ hx) (heq ▸ hy)⟩

theorem selectOne_colored (hirr : ∀ x, ¬g.Adj x x) {a : Assignment} {v : Nat}
    (hv : v < fn.nvregs) (h : Colored g vregs a) :
    Colored g vregs (fn.selectOne g vregs bpAvailable a v) := by
  rcases selectOne_cases fn g vregs bpAvailable a v with heq | ⟨preg, hfree, heq⟩
  · exact colored_congr h heq
  · rw [heq]
    exact colored_update h hirr hv fun hadj hw => not_conflicts hfree (h.inRange hw) hadj hw

theorem igraph_irrefl (fn : Func) (x : Nat) : ¬fn.igraph.Adj x x := fun h =>
  ((adj_igraph fn x x).mp h).1.1 rfl

end Func

/-- **Interfering vregs get registers that do not alias, unless both are fixed.** -/
theorem allocate_colored (fn : Func) (vregs : VregTable) (bpAvailable : Bool) :
    Colored fn.igraph vregs (allocate fn vregs bpAvailable) :=
  Func.foldl_preserves _ _
    (fun _ _ hv => Func.selectOne_colored (Func.igraph_irrefl fn) (Func.mem_workStack hv).1)
    (Func.precolor_colored (Func.igraph_irrefl fn))

/-! ## What is given to a vreg -/

namespace Func

variable {fn : Func} {vregs : VregTable}

section

variable {g : Igraph fn.nvregs} {bpAvailable : Bool}

theorem chooseColor_mem {assigned : Nat → Option Preg} {v : Nat} {pool : List Preg} {preg : Preg}
    (h : fn.chooseColor g vregs assigned v pool = some preg) : preg ∈ pool := by
  let P : Option Preg × Int → Prop := fun best => ∀ p, best.1 = some p → p ∈ pool
  have hP : P (pool.zipIdx.foldl (fn.chooseColorStep g vregs assigned v) (none, intMin)) := by
    refine foldl_preserves P _ (fun best x hx hbest => ?_) (fun p hp => by simp at hp)
    unfold chooseColorStep
    split
    · exact hbest
    · split
      · intro p hp
        cases hp
        exact (List.mem_zipIdx' hx).2 ▸ List.getElem_mem _
      · exact hbest
  exact hP preg h

theorem preferredColor_mem {assigned : Nat → Option Preg} {v : Nat} {pool : List Preg}
    {preg : Preg} (h : fn.preferredColor g vregs bpAvailable assigned v pool = some preg) :
    preg ∈ pool := by
  unfold preferredColor at h
  split at h
  · cases h
  · split at h
    · cases h
    · split at h
      · next hc =>
        cases h
        exact List.contains_iff_mem.mp ((Bool.and_eq_true _ _).mp hc).1
      · cases h

/-- What popping one vreg does: it gets a register of its pool, or stays without anything to be
rematerialized, or gets the next slot. -/
theorem selectOne_home (fn : Func) (g : Igraph fn.nvregs) (vregs : VregTable)
    (bpAvailable : Bool) (a : Assignment) (v : Nat) :
    let b := fn.selectOne g vregs bpAvailable a v
    (∃ preg ∈ (vregs v).pool bpAvailable, b = a.assign v (some preg)) ∨
      ((vregs v).canRematerialize = true ∧ b = a) ∨
      ((vregs v).canRematerialize = false ∧ b.assigned = a.assigned ∧
        b.spillSlot = Function.update a.spillSlot v (some a.nspillSlots) ∧
        b.nspillSlots = a.nspillSlots + 1) := by
  intro b
  simp only [b, selectOne]
  split
  · next preg hp =>
    refine .inl ⟨preg, ?_, rfl⟩
    rcases Option.or_eq_some_iff.mp hp with hp | ⟨-, hp⟩
    · exact preferredColor_mem hp
    · exact chooseColor_mem hp
  · split
    · next hremat => exact .inr (.inl ⟨hremat, rfl⟩)
    · next hremat => exact .inr (.inr ⟨Bool.not_eq_true _ ▸ hremat, rfl, rfl, rfl⟩)

end

/-! ## Frame slots -/

/-- Every spilled vreg has a slot of its own, and no slot is left out. -/
structure OwnSlots (fn : Func) (a : Assignment) : Prop where
  bound : ∀ v s, a.spillSlot v = some s → s < a.nspillSlots
  own : ∀ v w s, a.spillSlot v = some s → a.spillSlot w = some s → v = w
  dense : ∀ s < a.nspillSlots, ∃ v < fn.nvregs, a.spillSlot v = some s

/-- What popping one vreg can do to the slots: nothing, or give it the next one. -/
theorem selectOne_slots (fn : Func) (g : Igraph fn.nvregs) (vregs : VregTable)
    (bpAvailable : Bool) (a : Assignment) (v : Nat) :
    let b := fn.selectOne g vregs bpAvailable a v
    (b.spillSlot = a.spillSlot ∧ b.nspillSlots = a.nspillSlots) ∨
      (b.spillSlot = Function.update a.spillSlot v (some a.nspillSlots) ∧
        b.nspillSlots = a.nspillSlots + 1) := by
  rcases selectOne_home fn g vregs bpAvailable a v with ⟨preg, -, heq⟩ | ⟨-, heq⟩ | ⟨-, -, hslots⟩
  · rw [heq]
    exact .inl ⟨rfl, rfl⟩
  · rw [heq]
    exact .inl ⟨rfl, rfl⟩
  · exact .inr hslots

theorem OwnSlots.selectOne {a : Assignment} (h : OwnSlots fn a) (g : Igraph fn.nvregs)
    {bpAvailable : Bool} {v : Nat} (hv : v < fn.nvregs) (hnone : a.spillSlot v = none) :
    OwnSlots fn (fn.selectOne g vregs bpAvailable a v) := by
  rcases selectOne_slots fn g vregs bpAvailable a v with ⟨hslot, hn⟩ | ⟨hslot, hn⟩
  · exact ⟨by rw [hslot, hn]; exact h.bound, by rw [hslot]; exact h.own,
      by rw [hslot, hn]; exact h.dense⟩
  have hcases : ∀ w s, (fn.selectOne g vregs bpAvailable a v).spillSlot w = some s →
      (w = v ∧ s = a.nspillSlots) ∨ (w ≠ v ∧ a.spillSlot w = some s) := by
    intro w s hs
    rw [hslot] at hs
    by_cases hwv : w = v
    · subst hwv
      rw [Function.update_self] at hs
      exact .inl ⟨rfl, (Option.some.inj hs).symm⟩
    · rw [Function.update_of_ne hwv] at hs
      exact .inr ⟨hwv, hs⟩
  refine ⟨fun w s hs => ?_, fun w u s hw hu => ?_, fun s hs => ?_⟩
  · rw [hn]
    rcases hcases w s hs with ⟨-, rfl⟩ | ⟨-, hs⟩
    · exact Nat.lt_succ_self _
    · exact (h.bound w s hs).trans (Nat.lt_succ_self _)
  · rcases hcases w s hw with ⟨hwv, hs⟩ | ⟨-, hw'⟩ <;>
      rcases hcases u s hu with ⟨huv, hs'⟩ | ⟨-, hu'⟩
    · exact hwv.trans huv.symm
    · exact absurd (h.bound u s hu') (by omega)
    · exact absurd (h.bound w s hw') (by omega)
    · exact h.own w u s hw' hu'
  · rw [hn] at hs
    rcases Nat.lt_succ_iff_lt_or_eq.mp hs with hs | rfl
    · obtain ⟨w, hw, hws⟩ := h.dense s hs
      have hwv : w ≠ v := by
        rintro rfl
        rw [hnone] at hws
        cases hws
      exact ⟨w, hw, by rw [hslot, Function.update_of_ne hwv]; exact hws⟩
    · exact ⟨v, hv, by rw [hslot, Function.update_self]⟩

/-- No vreg is pushed twice. -/
theorem simplify_nodup {g : Igraph fn.nvregs} {bpAvailable : Bool} :
    ∀ (k : Nat) (removed : Nat → Bool) (stack : List Nat), stack.Nodup →
      (∀ v ∈ stack, removed v = true) →
      (fn.simplify g vregs bpAvailable k removed stack).Nodup
  | 0, _, _, hstack, _ => hstack
  | k + 1, removed, stack, hstack, hremoved => by
    unfold simplify
    split
    · next v hv =>
      obtain ⟨-, hnot⟩ := pickSimplify_mem hv
      have hmem : v ∉ stack := fun h => by
        rw [hremoved v h] at hnot
        cases hnot
      refine simplify_nodup k _ _ (List.nodup_cons.mpr ⟨hmem, hstack⟩) fun u hu => ?_
      rcases List.mem_cons.mp hu with rfl | hu
      · exact Function.update_self ..
      · have huv : u ≠ v := fun h => hmem (h ▸ hu)
        rw [Function.update_of_ne huv]
        exact hremoved u hu
    · exact hstack

theorem foldl_selectOne_slots (g : Igraph fn.nvregs) {bpAvailable : Bool} (l : List Nat)
    (hnodup : l.Nodup) (hl : ∀ v ∈ l, v < fn.nvregs) {a : Assignment} (h : OwnSlots fn a)
    (hnone : ∀ v ∈ l, a.spillSlot v = none) :
    OwnSlots fn (l.foldl (fn.selectOne g vregs bpAvailable) a) := by
  induction l generalizing a with
  | nil => exact h
  | cons v l ih =>
    obtain ⟨hv, hnodup⟩ := List.nodup_cons.mp hnodup
    refine ih hnodup (fun u hu => hl u (List.mem_cons_of_mem _ hu))
      (h.selectOne g (hl v List.mem_cons_self) (hnone v List.mem_cons_self)) fun u hu => ?_
    have hu' := hnone u (List.mem_cons_of_mem _ hu)
    have huv : u ≠ v := fun h => hv (h ▸ hu)
    rcases selectOne_slots fn g vregs bpAvailable a v with ⟨hslot, -⟩ | ⟨hslot, -⟩
    · rw [hslot, hu']
    · rw [hslot, Function.update_of_ne huv, hu']

theorem precolor_slots (g : Igraph fn.nvregs) {bpAvailable : Bool} :
    (fn.precolor g vregs bpAvailable).spillSlot = (fun _ => none) ∧
      (fn.precolor g vregs bpAvailable).nspillSlots = 0 := by
  let P : Assignment → Prop := fun a => a.spillSlot = (fun _ => none) ∧ a.nspillSlots = 0
  refine foldl_preserves P _ (fun a i _ h => ?_)
    (foldl_preserves P _ (fun a i _ h => ?_) ⟨rfl, rfl⟩)
  · unfold colorPreferred
    simp only
    split
    · exact h
    · split
      · exact h
      · split <;> exact h
  · unfold colorFixed
    simp only
    split
    · exact h
    · split <;> exact h

theorem allocate_slots (fn : Func) (vregs : VregTable) (bpAvailable : Bool) :
    OwnSlots fn (allocate fn vregs bpAvailable) := by
  obtain ⟨hslot, hn⟩ : (fn.precolor fn.igraph vregs bpAvailable).spillSlot = (fun _ => none) ∧
      (fn.precolor fn.igraph vregs bpAvailable).nspillSlots = 0 := precolor_slots fn.igraph
  refine foldl_selectOne_slots _ _ (simplify_nodup _ _ _ List.nodup_nil (by simp))
    (fun v hv => (mem_workStack hv).1) ⟨?_, ?_, ?_⟩ fun v _ => by rw [hslot]
  · rw [hslot]; simp
  · rw [hslot]; simp
  · rw [hn]; simp

end Func

/-! ## Homes -/

/-- **Where the allocator leaves the vregs.** -/
structure Homed (fn : Func) (vregs : VregTable) (bpAvailable : Bool) (a : Assignment) : Prop where
  /-- A fixed vreg has its own register. -/
  pinned : ∀ v < fn.nvregs, (vregs v).isStackHome = false → (vregs v).fixed = true →
    ∀ preg, (vregs v).prefer = some preg → a.assigned v = some preg
  /-- Any other register comes from the pool, or is a preference that may be followed. -/
  allowed : ∀ v preg, a.assigned v = some preg → preg ∈ (vregs v).pool bpAvailable ∨
    ((vregs v).prefer = some preg ∧
      ((vregs v).fixed = true ∨ (vregs v).preferAllowed bpAvailable preg = true))
  /-- Nothing that is used and not at home in memory is left out. -/
  home : ∀ v < fn.nvregs, (vregs v).isStackHome = false → (vregs v).isLocalSlot = false →
    (0 ≤ (vregs v).defPos ∨ 0 ≤ (vregs v).lastUse) →
      (a.assigned v).isSome ∨ (a.spillSlot v).isSome ∨ (vregs v).canRematerialize = true
  /-- Only those have a slot that have nothing else. -/
  single : ∀ v, (a.spillSlot v).isSome → a.assigned v = none ∧
    (vregs v).canRematerialize = false ∧ (vregs v).isStackHome = false ∧
    (vregs v).isLocalSlot = false

/-- Spill costs stay below `INT_MAX` in a function of up to 140000 uses of each vreg. -/
theorem VregInfo.spillCost_lt (vr : VregInfo) (h : vr.useCount ≤ 140000) :
    vr.spillCost < intMax := by
  have huses : 1 ≤ vr.usesForCost ∧ vr.usesForCost ≤ 140000 := by
    unfold usesForCost
    split <;> omega
  have hframe : vr.frameSpillCost ≤ 21000130 := by
    unfold frameSpillCost loopWeight V20.movMem16Reg V20.movRegMem16
    split <;> omega
  have hbest : vr.bestSpillCost ≤ vr.frameSpillCost := by
    unfold bestSpillCost
    simp only [Bool.and_eq_true, decide_eq_true_eq]
    split <;> split at * <;> omega
  unfold spillCost intMax V20.popReg16
  simp only
  split <;> split <;> split <;> omega

namespace Func

variable {fn : Func} {g : Igraph fn.nvregs} {vregs : VregTable} {bpAvailable : Bool}

/-! ### Every vreg is worked -/

theorem cheapestStep_isSome {candidate : Nat → Bool} {best : Option Nat × Int} {i : Nat}
    (h : best.1.isSome) : (cheapestStep vregs candidate best i).1.isSome := by
  unfold cheapestStep
  split
  · rfl
  · exact h

theorem foldl_cheapest_isSome {candidate : Nat → Bool} (l : List Nat) {best : Option Nat × Int}
    (h : best.1.isSome ∨ (best.2 = intMax ∧
      ∃ i ∈ l, candidate i = true ∧ (vregs i).spillCost < intMax)) :
    (l.foldl (cheapestStep vregs candidate) best).1.isSome := by
  induction l generalizing best with
  | nil =>
    rcases h with h | ⟨-, i, hi, -⟩
    · exact h
    · cases hi
  | cons j l ih =>
    refine ih ?_
    rcases h with h | ⟨hmax, i, hi, hc, hlt⟩
    · exact .inl (cheapestStep_isSome h)
    · unfold cheapestStep
      split
      · exact .inl rfl
      · next hj =>
        refine .inr ⟨hmax, i, (List.mem_cons.mp hi).resolve_left fun hij => hj ?_, hc, hlt⟩
        rw [← hij, hc, hmax]
        simpa using hlt

theorem pickSimplify_isSome {removed : Nat → Bool} {v : Nat} (hv : v < fn.nvregs)
    (hr : removed v = false) (hcost : (vregs v).spillCost < intMax) :
    ∃ u, fn.pickSimplify g vregs bpAvailable removed = some u := by
  have hsome : (fn.cheapest vregs fun i => !removed i).isSome :=
    foldl_cheapest_isSome _ (.inr ⟨rfl, v, List.mem_range.mpr hv, by simp [hr], hcost⟩)
  refine Option.isSome_iff_exists.mp ?_
  rw [pickSimplify, Option.isSome_or, hsome, Bool.or_true]

theorem countP_update {l : List Nat} (hl : l.Nodup) {removed : Nat → Bool} {u : Nat} (hu : u ∈ l)
    (hr : removed u = false) :
    l.countP (fun i => !removed i) =
      l.countP (fun i => !Function.update removed u true i) + 1 := by
  induction l with
  | nil => cases hu
  | cons x l ih =>
    obtain ⟨hx, hl⟩ := List.nodup_cons.mp hl
    by_cases hxu : x = u
    · subst hxu
      have hsame : l.countP (fun i => !removed i) =
          l.countP (fun i => !Function.update removed x true i) :=
        List.countP_congr fun i hi => by
          have hix : i ≠ x := fun h => hx (h ▸ hi)
          rw [Function.update_of_ne hix]
      rw [List.countP_cons_of_pos (by simp [hr]), List.countP_cons_of_neg (by simp), hsame]
    · have hu := (List.mem_cons.mp hu).resolve_left fun h => hxu h.symm
      simp only [List.countP_cons, Function.update_of_ne hxu, ih hl hu]
      omega

theorem simplify_complete (hcost : ∀ v < fn.nvregs, (vregs v).spillCost < intMax) :
    ∀ (k : Nat) (removed : Nat → Bool) (stack : List Nat),
      (List.range fn.nvregs).countP (fun i => !removed i) = k →
      ∀ v, v ∈ stack ∨ (v < fn.nvregs ∧ removed v = false) →
        v ∈ fn.simplify g vregs bpAvailable k removed stack
  | 0, removed, stack, hk, v, hv => by
    rcases hv with hv | ⟨hv, hr⟩
    · exact hv
    · exact absurd hr (by simpa using List.countP_eq_zero.mp hk v (List.mem_range.mpr hv))
  | k + 1, removed, stack, hk, v, hv => by
    unfold simplify
    have hpos : 0 < (List.range fn.nvregs).countP fun i => !removed i := by omega
    obtain ⟨w, hw, hwr⟩ := List.countP_pos_iff.mp hpos
    rw [Bool.not_eq_true'] at hwr
    obtain ⟨u, hu⟩ : ∃ u, fn.pickSimplify g vregs bpAvailable removed = some u :=
      pickSimplify_isSome (List.mem_range.mp hw) hwr (hcost w (List.mem_range.mp hw))
    obtain ⟨hun, hur⟩ := pickSimplify_mem hu
    rw [hu]
    -- the vreg that is picked is one less to work
    have hcount := countP_update List.nodup_range (List.mem_range.mpr hun) hur
    refine simplify_complete hcost k _ _ (by omega) v ?_
    rcases hv with hv | ⟨hv, hr⟩
    · exact .inl (List.mem_cons_of_mem _ hv)
    · by_cases hvu : v = u
      · exact .inl (hvu ▸ List.mem_cons_self)
      · exact .inr ⟨hv, by rwa [Function.update_of_ne hvu]⟩

theorem workStack_handled {a : Assignment} {v : Nat}
    (h : v ∈ fn.workStack g vregs bpAvailable a) : handled vregs a v = false := by
  rcases mem_simplify _ _ _ h with h | ⟨-, hr⟩
  · exact absurd h List.not_mem_nil
  · exact hr

/-! ### Every vreg has a home -/

/-- The vreg has a register or a slot, or needs neither. -/
def HasHome (vregs : VregTable) (a : Assignment) (v : Nat) : Prop :=
  (a.assigned v).isSome ∨ (a.spillSlot v).isSome ∨ (vregs v).canRematerialize = true

theorem selectOne_hasHome {a : Assignment} {v w : Nat} (h : w = v ∨ HasHome vregs a w) :
    HasHome vregs (fn.selectOne g vregs bpAvailable a v) w := by
  by_cases hwv : w = v
  · subst hwv
    rcases selectOne_home fn g vregs bpAvailable a w with
      ⟨preg, -, heq⟩ | ⟨hremat, -⟩ | ⟨-, -, hslot, -⟩
    · rw [heq]
      exact .inl (by rw [Assignment.assign_self]; rfl)
    · exact .inr (.inr hremat)
    · exact .inr (.inl (by rw [hslot, Function.update_self]; rfl))
  · have h := h.resolve_left hwv
    rcases selectOne_home fn g vregs bpAvailable a v with
      ⟨preg, -, heq⟩ | ⟨-, heq⟩ | ⟨-, hassigned, hslot, -⟩
    · unfold HasHome
      rw [heq, Assignment.assign_of_ne _ _ hwv]
      exact h
    · rw [heq]
      exact h
    · unfold HasHome
      rw [hassigned, hslot, Function.update_of_ne hwv]
      exact h

theorem foldl_hasHome (l : List Nat) {a : Assignment} {w : Nat} (h : w ∈ l ∨ HasHome vregs a w) :
    HasHome vregs (l.foldl (fn.selectOne g vregs bpAvailable) a) w := by
  induction l generalizing a with
  | nil => exact h.resolve_left List.not_mem_nil
  | cons v l ih =>
    refine ih ?_
    rcases h with h | h
    · rcases List.mem_cons.mp h with rfl | h
      · exact .inr (selectOne_hasHome (.inl rfl))
      · exact .inl h
    · exact .inr (selectOne_hasHome (.inr h))

/-- The registers are allowed, and slots are for vregs without anything else. -/
structure Placed (vregs : VregTable) (bpAvailable : Bool) (a : Assignment) : Prop where
  allowed : ∀ v preg, a.assigned v = some preg → preg ∈ (vregs v).pool bpAvailable ∨
    ((vregs v).prefer = some preg ∧
      ((vregs v).fixed = true ∨ (vregs v).preferAllowed bpAvailable preg = true))
  single : ∀ v, (a.spillSlot v).isSome → a.assigned v = none ∧
    (vregs v).canRematerialize = false ∧ (vregs v).isStackHome = false ∧
    (vregs v).isLocalSlot = false

theorem Placed.selectOne {a : Assignment} {v : Nat} (h : Placed vregs bpAvailable a)
    (hnone : a.assigned v = none ∧ a.spillSlot v = none) (hhome : (vregs v).isStackHome = false)
    (hlocal : (vregs v).isLocalSlot = false) :
    Placed vregs bpAvailable (fn.selectOne g vregs bpAvailable a v) := by
  rcases selectOne_home fn g vregs bpAvailable a v with
    ⟨preg, hpool, heq⟩ | ⟨-, heq⟩ | ⟨hremat, hassigned, hslot, -⟩
  · rw [heq]
    refine ⟨fun w q hq => ?_, fun w hw => ?_⟩
    · by_cases hwv : w = v
      · subst hwv
        rw [Assignment.assign_self] at hq
        cases hq
        exact .inl hpool
      · rw [Assignment.assign_of_ne _ _ hwv] at hq
        exact h.allowed w q hq
    · have hwv : w ≠ v := by
        rintro rfl
        change (a.spillSlot w).isSome at hw
        rw [hnone.2] at hw
        cases hw
      rw [Assignment.assign_of_ne _ _ hwv]
      exact h.single w hw
  · rwa [heq]
  · refine ⟨by rw [hassigned]; exact h.allowed, fun w hw => ?_⟩
    rw [hassigned]
    rw [hslot] at hw
    by_cases hwv : w = v
    · subst hwv
      exact ⟨hnone.1, hremat, hhome, hlocal⟩
    · rw [Function.update_of_ne hwv] at hw
      exact h.single w hw

/-- A vreg that is not popped keeps its register and its slot. -/
theorem selectOne_of_ne {a : Assignment} {v w : Nat} (hwv : w ≠ v) :
    (fn.selectOne g vregs bpAvailable a v).assigned w = a.assigned w ∧
      (fn.selectOne g vregs bpAvailable a v).spillSlot w = a.spillSlot w := by
  rcases selectOne_home fn g vregs bpAvailable a v with
    ⟨preg, -, heq⟩ | ⟨-, heq⟩ | ⟨-, hassigned, hslot, -⟩
  · rw [heq]
    exact ⟨Assignment.assign_of_ne _ _ hwv, rfl⟩
  · rw [heq]
    exact ⟨rfl, rfl⟩
  · rw [hassigned, hslot, Function.update_of_ne hwv]
    exact ⟨rfl, rfl⟩

theorem foldl_selectOne_of_notMem {a : Assignment} {w : Nat} (l : List Nat) (h : w ∉ l) :
    (l.foldl (fn.selectOne g vregs bpAvailable) a).assigned w = a.assigned w := by
  induction l generalizing a with
  | nil => rfl
  | cons v l ih =>
    obtain ⟨hwv, hl⟩ := not_or.mp (List.mem_cons.not.mp h)
    rw [List.foldl_cons, ih hl, (selectOne_of_ne hwv).1]

theorem foldl_placed (l : List Nat) (hnodup : l.Nodup) {a : Assignment}
    (h : Placed vregs bpAvailable a)
    (hfree : ∀ v ∈ l, (a.assigned v = none ∧ a.spillSlot v = none) ∧
      (vregs v).isStackHome = false ∧ (vregs v).isLocalSlot = false) :
    Placed vregs bpAvailable (l.foldl (fn.selectOne g vregs bpAvailable) a) := by
  induction l generalizing a with
  | nil => exact h
  | cons v l ih =>
    obtain ⟨hv, hnodup⟩ := List.nodup_cons.mp hnodup
    obtain ⟨hnone, hhome, hlocal⟩ := hfree v List.mem_cons_self
    refine ih hnodup (h.selectOne hnone hhome hlocal) fun w hw => ?_
    obtain ⟨⟨h1, h2⟩, h3⟩ := hfree w (List.mem_cons_of_mem _ hw)
    have hwv : w ≠ v := fun hwv => hv (hwv ▸ hw)
    exact ⟨⟨(selectOne_of_ne hwv).1.trans h1, (selectOne_of_ne hwv).2.trans h2⟩, h3⟩

/-! ### Pins and preferences -/

theorem precolor_allowed {v : Nat} {preg : Preg}
    (h : (fn.precolor g vregs bpAvailable).assigned v = some preg) :
    (vregs v).prefer = some preg ∧
      ((vregs v).fixed = true ∨ (vregs v).preferAllowed bpAvailable preg = true) := by
  let P : Assignment → Prop := fun a => ∀ v preg, a.assigned v = some preg →
    (vregs v).prefer = some preg ∧
      ((vregs v).fixed = true ∨ (vregs v).preferAllowed bpAvailable preg = true)
  have hassign : ∀ (a : Assignment) i preg, P a → (vregs i).prefer = some preg →
      ((vregs i).fixed = true ∨ (vregs i).preferAllowed bpAvailable preg = true) →
      P (a.assign i (some preg)) := by
    intro a i preg ha hp hallowed w q hq
    by_cases hwi : w = i
    · subst hwi
      rw [Assignment.assign_self] at hq
      cases hq
      exact ⟨hp, hallowed⟩
    · rw [Assignment.assign_of_ne _ _ hwi] at hq
      exact ha w q hq
  have hP : P (fn.precolor g vregs bpAvailable) := by
    refine foldl_preserves P _ (fun a i _ ha => ?_)
      (foldl_preserves P _ (fun a i _ ha => ?_) fun w q hq => by cases hq)
    · unfold colorPreferred
      simp only
      split
      · exact ha
      · split
        · exact ha
        · next preg hp =>
          split
          · next hc => exact hassign a i preg ha hp (.inr ((Bool.and_eq_true _ _).mp hc).1)
          · exact ha
    · unfold colorFixed
      simp only
      split
      · exact ha
      · split
        · next hc =>
          obtain ⟨hfixed, hsome⟩ := (Bool.and_eq_true _ _).mp hc
          obtain ⟨preg, hp⟩ := Option.isSome_iff_exists.mp hsome
          rw [hp]
          exact hassign a i preg ha hp (.inl hfixed)
        · exact ha
  exact hP v preg h

theorem precolor_pinned {v : Nat} (hv : v < fn.nvregs) (hhome : (vregs v).isStackHome = false)
    (hfixed : (vregs v).fixed = true) {preg : Preg} (hp : (vregs v).prefer = some preg) :
    (fn.precolor g vregs bpAvailable).assigned v = some preg := by
  have hfold : ∀ (l : List Nat) (a : Assignment), v ∈ l ∨ a.assigned v = some preg →
      (l.foldl (colorFixed vregs) a).assigned v = some preg := by
    intro l
    induction l with
    | nil => exact fun a h => h.resolve_left List.not_mem_nil
    | cons i l ih =>
      intro a h
      refine ih _ ?_
      by_cases hiv : v = i
      · subst hiv
        right
        simp only [colorFixed, hhome, hfixed, hp, Option.isSome_some, Bool.and_self,
          Bool.false_eq_true, if_false, if_true, Assignment.assign_self]
      · rcases h with h | h
        · exact .inl ((List.mem_cons.mp h).resolve_left hiv)
        · right
          unfold colorFixed
          simp only
          split
          · exact h
          · split
            · rwa [Assignment.assign_of_ne _ _ hiv]
            · exact h
  let P : Assignment → Prop := fun a => a.assigned v = some preg
  refine foldl_preserves P _ (fun a i _ ha => ?_)
    (hfold _ _ (.inl (List.mem_range.mpr hv)))
  unfold colorPreferred
  simp only
  split
  · exact ha
  · next hc =>
    have hiv : v ≠ i := by
      rintro rfl
      simp [hfixed] at hc
    split
    · exact ha
    · split
      · change (a.assign i _).assigned v = _
        rw [Assignment.assign_of_ne _ _ hiv]
        exact ha
      · exact ha

end Func

/-- **Every vreg that needs a home gets one, and only registers that its uses allow.** -/
theorem allocate_homed (fn : Func) (vregs : VregTable) (bpAvailable : Bool)
    (h : ∀ v < fn.nvregs, (vregs v).useCount ≤ 140000) :
    Homed fn vregs bpAvailable (allocate fn vregs bpAvailable) := by
  have hslots : (fn.precolor fn.igraph vregs bpAvailable).spillSlot = (fun _ => none) ∧
      (fn.precolor fn.igraph vregs bpAvailable).nspillSlots = 0 := Func.precolor_slots fn.igraph
  have hplaced : Func.Placed vregs bpAvailable (allocate fn vregs bpAvailable) := by
    refine Func.foldl_placed _ (Func.simplify_nodup _ _ _ List.nodup_nil (by simp))
      ⟨fun v preg hv => .inr (Func.precolor_allowed hv),
        fun v hv => by rw [hslots.1] at hv; cases hv⟩ fun v hv => ?_
    have hhandled := Func.workStack_handled hv
    simp only [Func.handled, Bool.or_eq_false_iff] at hhandled
    exact ⟨⟨(Func.mem_workStack hv).2, by rw [hslots.1]⟩, hhandled.1.1.1, hhandled.1.1.2⟩
  refine ⟨fun v hv hhome hfixed preg hp => ?_, hplaced.allowed, fun v hv hhome hlocal hpos => ?_,
    hplaced.single⟩
  · have hcolor : (fn.precolor fn.igraph vregs bpAvailable).assigned v = some preg :=
      Func.precolor_pinned hv hhome hfixed hp
    refine (Func.foldl_selectOne_of_notMem _ fun hmem => ?_).trans hcolor
    rw [(Func.mem_workStack hmem).2] at hcolor
    cases hcolor
  · refine Func.foldl_hasHome _ ?_
    by_cases hcolor : ((fn.precolor fn.igraph vregs bpAvailable).assigned v).isSome
    · exact .inr (.inl hcolor)
    · refine .inl (Func.simplify_complete (fun w hw => (vregs w).spillCost_lt (h w hw)) _ _ _ rfl v
        (.inr ⟨hv, ?_⟩))
      simp only [Func.handled, hhome, hlocal, Bool.not_eq_true _ ▸ hcolor, Bool.false_or,
        Bool.and_eq_false_iff, decide_eq_false_iff_not, not_lt]
      exact hpos

/-- One vreg, with nothing in its way. -/
def oneVreg : Func where
  nvregs := 1
  insns := [{ op := .mov, dst := some 0, imm := some 1 }]

theorem allocate_homed_oneVreg :
    Homed oneVreg (fun _ => { defPos := 0, lastUse := 0 }) true
      (allocate oneVreg (fun _ => { defPos := 0, lastUse := 0 }) true) :=
  allocate_homed _ _ _ fun _ _ => Nat.zero_le _

/-! ## Without an edge -/

/-- A function that prefers one register for two vregs. -/
def preferTable (v w : Nat) (preg : Preg) : VregTable := fun u =>
  if u = v ∨ u = w then { prefer := some preg } else {}

theorem preferTable_fixed (v w : Nat) (preg : Preg) (u : Nat) :
    (preferTable v w preg u).fixed = false := by
  unfold preferTable
  split <;> rfl

namespace Func

variable {fn : Func} {v w : Nat}

theorem colorFixed_preferTable (preg : Preg) (l : List Nat) (a : Assignment) :
    l.foldl (colorFixed (preferTable v w preg)) a = a := by
  refine foldl_preserves (· = a) l (fun b i _ hb => ?_) rfl
  simp [colorFixed, preferTable_fixed, hb]

/-- One step of the preference loop, if neither vreg sees the other. -/
theorem colorPreferred_preferTable {g : Igraph fn.nvregs} (hvw : ¬g.Adj v w) {a : Assignment}
    (ha : ∀ u p, a.assigned u = some p → u = v ∨ u = w) (i : Nat) :
    fn.colorPreferred g (preferTable v w .ax) true a i =
      if i = v ∨ i = w then a.assign i (some .ax) else a := by
  by_cases hi : i = v ∨ i = w
  · have hfree : fn.preferConflicts g a.assigned i .ax = false := by
      rw [preferConflicts, List.any_eq_false]
      intro j _ hj
      simp only [Bool.and_eq_true, bne_iff_ne] at hj
      obtain ⟨⟨hji, hadj⟩, htaken⟩ := hj
      cases haj : a.assigned j with
      | none =>
        rw [haj] at htaken
        exact absurd htaken (by simp [takenBy])
      | some p =>
        rcases hi with rfl | rfl <;> rcases ha j p haj with rfl | rfl
        · exact hji rfl
        · exact hvw hadj
        · exact hvw (Adj.symm hadj)
        · exact hji rfl
    have heq : preferTable v w .ax i = { prefer := some .ax } := if_pos hi
    rw [if_pos hi]
    simp [colorPreferred, heq, hfree, VregInfo.preferAllowed, Preg.isSegment]
  · rw [if_neg hi]
    simp [colorPreferred, preferTable, hi]

/-- The preference loop colours exactly the visited ones of the two vregs. -/
theorem foldl_colorPreferred_preferTable {g : Igraph fn.nvregs} (hvw : ¬g.Adj v w) :
    ∀ (l : List Nat) {a : Assignment}, (∀ u p, a.assigned u = some p → u = v ∨ u = w) →
      ∀ u, u = v ∨ u = w → u ∈ l ∨ a.assigned u = some .ax →
        (l.foldl (fn.colorPreferred g (preferTable v w .ax) true) a).assigned u = some .ax
  | [], _, _, u, _, hu => hu.resolve_left List.not_mem_nil
  | i :: l, a, ha, u, huvw, hu => by
    have hstep := colorPreferred_preferTable hvw ha i
    refine foldl_colorPreferred_preferTable hvw l ?_ u huvw ?_
    · intro x p hx
      rw [hstep] at hx
      split at hx
      · next hi =>
        by_cases hxi : x = i
        · exact hxi ▸ hi
        · exact ha x p (by rwa [Assignment.assign_of_ne _ _ hxi] at hx)
      · exact ha x p hx
    · rw [hstep]
      by_cases hui : u = i
      · subst hui
        rw [if_pos huvw]
        exact Or.inr (Assignment.assign_self ..)
      · refine hu.imp (fun h => (List.mem_cons.mp h).resolve_left hui) fun h => ?_
        split
        · rwa [Assignment.assign_of_ne _ _ hui]
        · exact h

/-- Popping other vregs leaves a colour alone. -/
theorem selectOne_other {g : Igraph fn.nvregs} {vregs : VregTable} {bpAvailable : Bool}
    {a : Assignment} {u x : Nat} (hux : u ≠ x) :
    (fn.selectOne g vregs bpAvailable a x).assigned u = a.assigned u := by
  rcases selectOne_cases fn g vregs bpAvailable a x with heq | ⟨preg, -, heq⟩
  · rw [heq]
  · rw [heq, Assignment.assign_of_ne _ _ hux]

/-- A pre-coloured vreg keeps its register. -/
theorem allocate_of_precolor {vregs : VregTable} {bpAvailable : Bool} {u : Nat} {p : Preg}
    (h : (fn.precolor fn.igraph vregs bpAvailable).assigned u = some p) :
    (allocate fn vregs bpAvailable).assigned u = some p := by
  refine foldl_preserves (fun a : Assignment => a.assigned u = some p) _ (fun a x hx ha => ?_) h
  have hux : u ≠ x := by
    rintro rfl
    rw [(mem_workStack hx).2] at h
    exact absurd h (by simp)
  rwa [selectOne_other hux]

end Func

/-- Two vregs without an edge that prefer the same register both get it. -/
theorem allocate_preferTable {fn : Func} {v w : Nat} (hvw : ¬fn.igraph.Adj v w) {u : Nat}
    (huvw : u = v ∨ u = w) (hu : u < fn.nvregs) :
    (allocate fn (preferTable v w .ax) true).assigned u = some .ax := by
  refine Func.allocate_of_precolor ?_
  rw [Func.precolor, Func.colorFixed_preferTable]
  exact Func.foldl_colorPreferred_preferTable hvw _ (fun _ _ h => by simp at h) u huvw
    (Or.inl (List.mem_range.mpr hu))

/-! ## Soundness -/

/-- **The allocation of a function is sound, whatever its pins, preferences and constraints,
exactly if the walk that builds the graph sees every clash.** -/
theorem allocate_sound_iff (fn : Func) :
    (∀ vregs bpAvailable, AllocationSound fn vregs (allocate fn vregs bpAvailable)) ↔
      ∀ i v w, v < fn.nvregs → w < fn.nvregs → fn.Clash i v w → fn.SeenTogether v w := by
  constructor
  · intro h i v w hv hw hc
    by_contra hseen
    have hvw : ¬fn.igraph.Adj v w := fun hadj => hseen ((Func.adj_igraph fn v w).mp hadj).2
    have hsound := h (preferTable v w .ax) true i v w .ax .ax hc
      (allocate_preferTable hvw (Or.inl rfl) hv) (allocate_preferTable hvw (Or.inr rfl) hw)
    rcases hsound with hal | ⟨hfix, -⟩
    · rw [pregsAlias_self] at hal
      exact absurd hal (by decide)
    · rw [preferTable_fixed] at hfix
      exact absurd hfix (by decide)
  · intro h vregs bpAvailable i v w p q hc hv hw
    have hcol := allocate_colored fn vregs bpAvailable
    have hpair : Pair fn.nvregs v w := ⟨hc.2.2, hcol.inRange hv, hcol.inRange hw⟩
    have hseen := h i v w hpair.2.1 hpair.2.2 hc
    exact hcol.noAlias ((Func.adj_igraph fn v w).mpr ⟨hpair, hseen⟩) hv hw

/-- The body of a function that uses the first of two returned values only. -/
def secondReturnUnused : Func where
  nvregs := 2
  insns :=
    [ { op := .mcall, dst := some 0, retVregs := [1], name := "g" },
      { op := .retval, src1 := some 0 },
      { op := .ret } ]

/-- Its vreg table after the liveness scan: no pins and no preferences. -/
def secondReturnUnusedVregs : VregTable := fun v =>
  if v = 0 then { useCount := 1, defPos := 0, lastUse := 1 } else { defPos := 0, lastUse := 0 }

/-- Both returned values are assigned `AX`. -/
theorem secondReturnUnused_unsound :
    ¬AllocationSound secondReturnUnused secondReturnUnusedVregs
      (allocate secondReturnUnused secondReturnUnusedVregs true) := by
  intro h
  have hnext : secondReturnUnused.Next 0 1 :=
    ⟨{ start := 0, stop := 3 }, by decide, by decide, by decide, Or.inl ⟨by decide, rfl⟩⟩
  have hlive : secondReturnUnused.LiveAfter 0 0 :=
    ⟨1, hnext, .read ⟨{ op := .retval, src1 := some 0 }, by decide, by decide⟩⟩
  have hclash : secondReturnUnused.Clash 0 1 0 :=
    ⟨⟨{ op := .mcall, dst := some 0, retVregs := [1], name := "g" }, by decide, by decide⟩,
      hlive, by decide⟩
  have hsound := h 0 1 0 .ax .ax hclash (by decide) (by decide)
  revert hsound
  decide

end Nib.Bind
