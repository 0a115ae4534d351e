import Mathlib
import Nib.Bind.Spec.Spill
import Nib.Bind.Properties.Alloc

/-!
# Frame slots

* `compactSpillSlots_spec` — what numbering the slots again comes to
* `Packs.slotsKept` — a byte pair gets a slot that nothing else is in
* `Frame.laidOut` — nothing in the frame overlaps
-/

namespace Nib.Bind

open Nib.Infra

theorem SiblingTable.Pair.ne {siblings : SiblingTable} {low high : Nat}
    (h : siblings.Pair low high) : low ≠ high := by
  rintro rfl
  obtain ⟨group, hlow, hhigh⟩ := h
  rw [hlow] at hhigh
  cases hhigh

namespace Func

variable {fn : Func} {vregs : VregTable} {siblings : SiblingTable}

/-! ## Numbering the slots again -/

/-- The numbers from 0 on, each for one slot. -/
structure Numbering (m : SlotMap) : Prop where
  inj : ∀ s t k, m.slot s = some k → m.slot t = some k → s = t
  lt : ∀ s k, m.slot s = some k → k < m.next
  onto : ∀ k < m.next, ∃ s, m.slot s = some k

theorem numbering_nil : Numbering {} := ⟨by simp, by simp, by simp⟩

theorem visit_of_some {m : SlotMap} {s k : Nat} (h : m.slot s = some k) : m.visit s = m := by
  rw [SlotMap.visit, h]

theorem visit_of_none {m : SlotMap} {s : Nat} (h : m.slot s = none) :
    m.visit s = { slot := Function.update m.slot s (some m.next), next := m.next + 1 } := by
  rw [SlotMap.visit, h]

theorem visit_self (m : SlotMap) (s : Nat) : ∃ k, (m.visit s).slot s = some k := by
  cases h : m.slot s with
  | some k => exact ⟨k, by rw [visit_of_some h, h]⟩
  | none => exact ⟨m.next, by rw [visit_of_none h]; exact Function.update_self ..⟩

/-- A slot that has a number keeps it. -/
theorem visit_keeps {m : SlotMap} {s t k : Nat} (h : m.slot t = some k) :
    (m.visit s).slot t = some k := by
  cases hs : m.slot s with
  | some j => rwa [visit_of_some hs]
  | none =>
    rw [visit_of_none hs]
    have hne : t ≠ s := by
      rintro rfl
      rw [hs] at h
      cases h
    exact (Function.update_of_ne hne ..).trans h

/-- A number belongs to the slot that is visited, or was there before. -/
theorem visit_cases {m : SlotMap} {s t k : Nat} (h : (m.visit s).slot t = some k) :
    m.slot t = some k ∨ (t = s ∧ m.slot s = none ∧ k = m.next) := by
  cases hs : m.slot s with
  | some j => rw [visit_of_some hs] at h; exact .inl h
  | none =>
    rw [visit_of_none hs] at h
    dsimp only at h
    by_cases hts : t = s
    · subst hts
      rw [Function.update_self] at h
      cases h
      exact .inr ⟨rfl, rfl, rfl⟩
    · rw [Function.update_of_ne hts] at h
      exact .inl h

theorem Numbering.visit {m : SlotMap} (h : Numbering m) (s : Nat) : Numbering (m.visit s) := by
  refine ⟨fun t u k ht hu => ?_, fun t k ht => ?_, fun k hk => ?_⟩
  · rcases visit_cases ht with ht' | ⟨rfl, -, hk⟩ <;>
      rcases visit_cases hu with hu' | ⟨rfl, -, hk'⟩
    · exact h.inj t u k ht' hu'
    · exact absurd (h.lt t k ht') (by omega)
    · exact absurd (h.lt u k hu') (by omega)
    · rfl
  · have hmono : m.next ≤ (m.visit s).next := by
      cases hs : m.slot s with
      | some j => rw [visit_of_some hs]
      | none => rw [visit_of_none hs]; exact Nat.le_succ _
    rcases visit_cases ht with ht' | ⟨rfl, hs, rfl⟩
    · exact (h.lt t k ht').trans_le hmono
    · rw [visit_of_none hs]
      exact Nat.lt_succ_self _
  · cases hs : m.slot s with
    | some j => rw [visit_of_some hs] at hk ⊢; exact h.onto k hk
    | none =>
      rw [visit_of_none hs] at hk
      rcases Nat.lt_succ_iff_lt_or_eq.mp hk with hk | rfl
      · obtain ⟨t, ht⟩ := h.onto k hk
        exact ⟨t, visit_keeps ht⟩
      · exact ⟨s, by rw [visit_of_none hs]; exact Function.update_self ..⟩

/-- The loop after `n` vregs: those have the numbers of their slots, the others their slots. -/
structure Compacted (p : SpillPlan) (n : Nat) (st : SpillPlan × SlotMap) : Prop where
  numbering : Numbering st.2
  used : ∀ s k, st.2.slot s = some k → ∃ v < n, p.spillSlot v = some s
  before : ∀ v < n, ∀ s, p.spillSlot v = some s →
    ∃ k, st.2.slot s = some k ∧ st.1.spillSlot v = some k
  beforeNone : ∀ v < n, p.spillSlot v = none → st.1.spillSlot v = none
  after : ∀ v, n ≤ v → st.1.spillSlot v = p.spillSlot v
  rest : { st.1 with spillSlot := p.spillSlot } = p

theorem compacted_step {p : SpillPlan} {n : Nat} {st : SpillPlan × SlotMap}
    (h : Compacted p n st) : Compacted p (n + 1) (compactStep st n) := by
  have hn := h.after n le_rfl
  unfold compactStep
  split
  · next hnone =>
    rw [hn] at hnone
    refine ⟨h.numbering, fun s k hk => ?_, fun v hv s hs => ?_, fun v hv hs => ?_,
      fun v hv => h.after v (by omega), h.rest⟩
    · obtain ⟨v, hv, hs⟩ := h.used s k hk
      exact ⟨v, by omega, hs⟩
    · rcases Nat.lt_succ_iff_lt_or_eq.mp hv with hv | rfl
      · exact h.before v hv s hs
      · rw [hnone] at hs
        cases hs
    · rcases Nat.lt_succ_iff_lt_or_eq.mp hv with hv | rfl
      · exact h.beforeNone v hv hs
      · rw [h.after v le_rfl, hs]
  -- the slot of vreg `n` has a number now, if it had none
  · next s hsome =>
    rw [hn] at hsome
    obtain ⟨k, hk⟩ := visit_self st.2 s
    refine ⟨h.numbering.visit s, fun t j hj => ?_, fun v hv t ht => ?_, fun v hv ht => ?_,
      fun v hv => ?_, h.rest⟩
    · rcases visit_cases hj with hj | ⟨rfl, -, -⟩
      · obtain ⟨v, hv, hs⟩ := h.used t j hj
        exact ⟨v, by omega, hs⟩
      · exact ⟨n, by omega, hsome⟩
    · by_cases hvn : v = n
      · subst hvn
        cases hsome.symm.trans ht
        exact ⟨k, hk, (Function.update_self ..).trans hk⟩
      · obtain ⟨j, hj, hv'⟩ := h.before v (by omega) t ht
        exact ⟨j, visit_keeps hj, (Function.update_of_ne hvn ..).trans hv'⟩
    · have hvn : v ≠ n := by
        rintro rfl
        rw [ht] at hsome
        cases hsome
      exact (Function.update_of_ne hvn ..).trans (h.beforeNone v (by omega) ht)
    · exact (Function.update_of_ne (by omega) ..).trans (h.after v (by omega))

theorem compacted_range (p : SpillPlan) : ∀ n,
    Compacted p n ((List.range n).foldl compactStep (p, {}))
  | 0 => ⟨numbering_nil, by simp, by simp, by simp, fun _ _ => rfl, rfl⟩
  | n + 1 => by
    rw [List.range_succ, List.foldl_append]
    exact compacted_step (compacted_range p n)

/-- What numbering the slots again comes to. -/
theorem compactSpillSlots_spec (fn : Func) (p : SpillPlan) : ∃ m : SlotMap, Numbering m ∧
    (∀ s k, m.slot s = some k → ∃ v < fn.nvregs, p.spillSlot v = some s) ∧
    (∀ v < fn.nvregs, ∀ s, p.spillSlot v = some s →
      ∃ k, m.slot s = some k ∧ (fn.compactSpillSlots p).spillSlot v = some k) ∧
    (∀ v < fn.nvregs, p.spillSlot v = none → (fn.compactSpillSlots p).spillSlot v = none) ∧
    (fn.compactSpillSlots p).nspillSlots = m.next := by
  have h := compacted_range p fn.nvregs
  exact ⟨_, h.numbering, h.used, h.before, h.beforeNone, rfl⟩

theorem compactSpillSlots_keeps (fn : Func) (p : SpillPlan) :
    (fn.compactSpillSlots p).assigned = p.assigned ∧
      (fn.compactSpillSlots p).byteOffset = p.byteOffset ∧
      (fn.compactSpillSlots p).span = p.span := by
  have h := (compacted_range p fn.nvregs).rest
  have hassigned := congrArg (fun q : SpillPlan => q.assigned) h
  have hoffset := congrArg SpillPlan.byteOffset h
  have hspan := congrArg SpillPlan.span h
  exact ⟨hassigned, hoffset, hspan⟩

/-- A slot in the new numbering is the number of a slot in the old one. -/
theorem slot_of_compacted {p : SpillPlan} {v k : Nat} (hv : v < fn.nvregs)
    (h : (fn.compactSpillSlots p).spillSlot v = some k) {m : SlotMap}
    (hm : ∀ v < fn.nvregs, ∀ s, p.spillSlot v = some s →
      ∃ k, m.slot s = some k ∧ (fn.compactSpillSlots p).spillSlot v = some k)
    (hnone : ∀ v < fn.nvregs, p.spillSlot v = none →
      (fn.compactSpillSlots p).spillSlot v = none) :
    ∃ s, p.spillSlot v = some s ∧ m.slot s = some k := by
  cases hs : p.spillSlot v with
  | none => rw [hnone v hv hs] at h; cases h
  | some s =>
    obtain ⟨j, hj, hk⟩ := hm v hv s hs
    cases hk.symm.trans h
    exact ⟨s, rfl, hj⟩

theorem compactSpillSlots_slotsKept {p : SpillPlan} (h : fn.SlotsKept vregs siblings p) :
    fn.SlotsKept vregs siblings (fn.compactSpillSlots p) := by
  obtain ⟨-, hoffset, -⟩ := compactSpillSlots_keeps fn p
  obtain ⟨m, hm, -, hsome, hnone, hnext⟩ := compactSpillSlots_spec fn p
  refine ⟨fun v hv k hk => ?_, fun v hv hk => ?_, fun v hv w hw hne k hvk hwk => ?_⟩
  · obtain ⟨s, -, hs⟩ := slot_of_compacted hv hk hsome hnone
    rw [hnext]
    exact hm.lt s k hs
  · obtain ⟨k, hk⟩ := Option.isSome_iff_exists.mp hk
    obtain ⟨s, hs, -⟩ := slot_of_compacted hv hk hsome hnone
    rw [hoffset]
    exact h.offset v hv (by rw [hs]; rfl)
  · obtain ⟨s, hvs, hs⟩ := slot_of_compacted hv hvk hsome hnone
    obtain ⟨t, hwt, ht⟩ := slot_of_compacted hw hwk hsome hnone
    cases hm.inj s t k hs ht
    have hhalves : ∀ {low high : Nat}, Halves vregs siblings p low high →
        Halves vregs siblings (fn.compactSpillSlots p) low high := fun hh =>
      ⟨hh.pair, hh.lowByte, hh.highByte, hoffset ▸ hh.lowOffset, hoffset ▸ hh.highOffset⟩
    exact (h.shared v hv w hw hne s hvs hwt).imp hhalves hhalves

theorem compactSpillSlots_dense (fn : Func) (p : SpillPlan) :
    fn.Dense (fn.compactSpillSlots p) := by
  obtain ⟨m, hm, hused, hsome, -, hnext⟩ := compactSpillSlots_spec fn p
  intro k hk
  obtain ⟨s, hs⟩ := hm.onto k (hnext ▸ hk)
  obtain ⟨v, hv, hvs⟩ := hused s k hs
  obtain ⟨j, hj, hvk⟩ := hsome v hv s hvs
  cases hj.symm.trans hs
  exact ⟨v, hv, hvk⟩

/-! ## Packing the bytes -/

theorem isPeer_of_bestPeer {p : SpillPlan} {v group peer : Nat}
    (h : fn.bestPeer vregs siblings p v group = some peer) :
    peer < fn.nvregs ∧ isPeer vregs siblings p group peer = true := by
  let P : Option Nat × Int → Prop := fun best =>
    ∀ u, best.1 = some u → u < fn.nvregs ∧ isPeer vregs siblings p group u = true
  have hP : P ((List.range fn.nvregs).foldl (peerStep vregs siblings p v group)
      (none, intMax)) := by
    refine foldl_preserves P _ (fun best i hi hbest => ?_) (fun u hu => by simp at hu)
    unfold peerStep
    split
    · next hc =>
      intro u hu
      cases hu
      exact ⟨List.mem_range.mp hi, ((Bool.and_eq_true _ _).mp hc).1⟩
    · exact hbest
  exact hP peer h

/-- No other vreg has the slot of this one. -/
def Alone (fn : Func) (p : SpillPlan) (v : Nat) : Prop :=
  ∀ w < fn.nvregs, w ≠ v → ∀ s, p.spillSlot v = some s → p.spillSlot w ≠ some s

/-- What packing a byte pair does. -/
structure Packs (fn : Func) (vregs : VregTable) (siblings : SiblingTable) (p q : SpillPlan)
    (low high : Nat) : Prop where
  pair : siblings.Pair low high
  lowByte : (vregs low).isByte = true
  highByte : (vregs high).isByte = true
  highOffset : p.byteOffset high = 0
  inRange : high < fn.nvregs
  placed : ∃ s t, p.spillSlot low = some s ∧ p.spillSlot high = some t ∧
    q = (p.place low (min s t) 0).place high (min s t) 1

theorem coalesceStep_some {p q : SpillPlan} {v : Nat}
    (h : fn.coalesceStep vregs siblings p v = some q) :
    ∃ high, Packs fn vregs siblings p q v high := by
  unfold coalesceStep at h
  split at h
  · next group hv =>
    split at h
    · next hspill =>
      split at h
      · next peer s hpeer hs =>
        obtain ⟨hlt, hpeer⟩ := isPeer_of_bestPeer hpeer
        simp only [isPeer, isByteSpill, Bool.and_eq_true, beq_iff_eq] at hpeer hspill
        obtain ⟨⟨hgroup, ⟨⟨hbyte, hslot⟩, -⟩, -⟩, hoffset⟩ := hpeer
        obtain ⟨t, ht⟩ := Option.isSome_iff_exists.mp hslot
        refine ⟨peer, ⟨group, hv, hgroup⟩, hspill.1.1.1, hbyte, hoffset, hlt, s, t, hs, ht, ?_⟩
        simp only [ht, Option.getD_some, Option.some.injEq] at h
        exact h.symm
      · cases h
    · cases h
  · cases h

variable {p q : SpillPlan} {low high : Nat}

/-- The high byte has had its slot to itself: it is not packed yet. -/
theorem Packs.high_alone (hp : Packs fn vregs siblings p q low high)
    (h : fn.SlotsKept vregs siblings p) : Alone fn p high := by
  intro w hw hne s hs hws
  rcases h.shared high hp.inRange w hw hne.symm s hs hws with hh | hh
  · obtain ⟨g, hlow, -⟩ := hh.pair
    obtain ⟨g', -, hhigh⟩ := hp.pair
    rw [hlow] at hhigh
    cases hhigh
  · exact absurd (hp.highOffset.symm.trans hh.highOffset) (by decide)

/-- The packed bytes have one slot, which was one of theirs; the rest is as before. -/
theorem Packs.slots (hp : Packs fn vregs siblings p q low high) :
    ∃ slot, (p.spillSlot low = some slot ∨ p.spillSlot high = some slot) ∧
      (∃ s, p.spillSlot low = some s ∧ slot ≤ s) ∧
      q.spillSlot low = some slot ∧ q.spillSlot high = some slot ∧
      q.byteOffset low = 0 ∧ q.byteOffset high = 1 ∧ q.nspillSlots = p.nspillSlots ∧
      ∀ w, w ≠ low → w ≠ high →
        q.spillSlot w = p.spillSlot w ∧ q.byteOffset w = p.byteOffset w := by
  obtain ⟨s, t, hs, ht, rfl⟩ := hp.placed
  have hne := hp.pair.ne
  refine ⟨min s t, ?_, ⟨s, hs, min_le_left s t⟩, ?_, ?_, ?_, ?_, rfl, fun w hl hh => ?_⟩
  · rcases min_choice s t with h | h
    · exact .inl (h.symm ▸ hs)
    · exact .inr (h.symm ▸ ht)
  · simp [SpillPlan.place, Function.update_of_ne hne]
  · simp [SpillPlan.place]
  · simp [SpillPlan.place, Function.update_of_ne hne]
  · simp [SpillPlan.place]
  · simp [SpillPlan.place, Function.update_of_ne hl, Function.update_of_ne hh]

theorem Packs.slotsKept (hp : Packs fn vregs siblings p q low high)
    (h : fn.SlotsKept vregs siblings p) (hlow : low < fn.nvregs) (halone : Alone fn p low) :
    fn.SlotsKept vregs siblings q ∧
      ∀ u < fn.nvregs, u ≠ low → u ≠ high → Alone fn p u → Alone fn q u := by
  have hhigh := hp.high_alone h
  have hne := hp.pair.ne
  obtain ⟨slot, hslot, ⟨s, hs, hle⟩, hql, hqh, hol, hoh, hn, hrest⟩ := hp.slots
  -- nothing else has been in the slot that the two bytes get
  have hfree : ∀ w < fn.nvregs, w ≠ low → w ≠ high → p.spillSlot w ≠ some slot := by
    intro w hw hwl hwh
    rcases hslot with hl | hh
    · exact halone w hw hwl slot hl
    · exact hhigh w hw hwh slot hh
  have hhalves : Halves vregs siblings q low high := ⟨hp.pair, hp.lowByte, hp.highByte, hol, hoh⟩
  have hbytes : ∀ v s, q.spillSlot v = some s → v = low ∨ v = high ∨
      (v ≠ low ∧ v ≠ high ∧ p.spillSlot v = some s ∧ q.byteOffset v = p.byteOffset v) := by
    intro v s hv
    by_cases hvl : v = low
    · exact .inl hvl
    by_cases hvh : v = high
    · exact .inr (.inl hvh)
    obtain ⟨h1, h2⟩ := hrest v hvl hvh
    exact .inr (.inr ⟨hvl, hvh, h1 ▸ hv, h2⟩)
  refine ⟨⟨fun v hv t ht => ?_, fun v hv hsome => ?_, fun v hv w hw hvw t hvt hwt => ?_⟩,
    fun u hu hul huh hua w hw hwu t hut hwt => ?_⟩
  · rw [hn]
    have hlt : slot < p.nspillSlots := hle.trans_lt (h.bound low hlow s hs)
    rcases hbytes v t ht with rfl | rfl | ⟨-, -, hvt, -⟩
    · cases hql.symm.trans ht; exact hlt
    · cases hqh.symm.trans ht; exact hlt
    · exact h.bound v hv t hvt
  · obtain ⟨t, ht⟩ := Option.isSome_iff_exists.mp hsome
    rcases hbytes v t ht with rfl | rfl | ⟨-, -, hvt, hoff⟩
    · exact .inl hol
    · exact .inr ⟨hoh, hp.highByte⟩
    · rw [hoff]
      exact h.offset v hv (by rw [hvt]; rfl)
  · rcases hbytes v t hvt with rfl | rfl | ⟨hvl, hvh, hpv, hoffv⟩ <;>
      rcases hbytes w t hwt with rfl | rfl | ⟨hwl, hwh, hpw, hoffw⟩
    · exact absurd rfl hvw
    · exact .inl hhalves
    · cases hql.symm.trans hvt
      exact absurd hpw (hfree w hw hwl hwh)
    · exact .inr hhalves
    · exact absurd rfl hvw
    · cases hqh.symm.trans hvt
      exact absurd hpw (hfree w hw hwl hwh)
    · cases hql.symm.trans hwt
      exact absurd hpv (hfree v hv hvl hvh)
    · cases hqh.symm.trans hwt
      exact absurd hpv (hfree v hv hvl hvh)
    · exact (h.shared v hv w hw hvw t hpv hpw).imp
        (fun hh => ⟨hh.pair, hh.lowByte, hh.highByte, hoffv ▸ hh.lowOffset,
          hoffw ▸ hh.highOffset⟩)
        (fun hh => ⟨hh.pair, hh.lowByte, hh.highByte, hoffw ▸ hh.lowOffset,
          hoffv ▸ hh.highOffset⟩)
  · have hpu : p.spillSlot u = some t := (hrest u hul huh).1 ▸ hut
    rcases hbytes w t hwt with rfl | rfl | ⟨-, -, hpw, -⟩
    · cases hql.symm.trans hwt
      exact hfree u hu hul huh hpu
    · cases hqh.symm.trans hwt
      exact hfree u hu hul huh hpu
    · exact hua w hw hwu t hpu hpw

/-- A low byte that the pass has still to come to has its slot to itself. -/
theorem coalesce_slotsKept (l : List Nat) (hnodup : l.Nodup) (hl : ∀ v ∈ l, v < fn.nvregs)
    {st : SpillPlan × Bool} (h : fn.SlotsKept vregs siblings st.1)
    (halone : ∀ v ∈ l, (∃ g, siblings v = some ⟨g, false⟩) → Alone fn st.1 v) :
    fn.SlotsKept vregs siblings (l.foldl (tryStep (fn.coalesceStep vregs siblings)) st).1 := by
  induction l generalizing st with
  | nil => exact h
  | cons v l ih =>
    obtain ⟨hv, hnodup⟩ := List.nodup_cons.mp hnodup
    rw [List.foldl_cons]
    have hl' : ∀ u ∈ l, u < fn.nvregs := fun u hu => hl u (List.mem_cons_of_mem _ hu)
    unfold tryStep
    split
    · next q hq =>
      obtain ⟨high, hp⟩ := coalesceStep_some hq
      obtain ⟨g, hlow, hhigh⟩ := hp.pair
      obtain ⟨hkept, hrest⟩ := hp.slotsKept h (hl v List.mem_cons_self)
        (halone v List.mem_cons_self ⟨g, hlow⟩)
      refine ih hnodup hl' hkept fun u hu hsib => ?_
      refine hrest u (hl' u hu) (fun huv => hv (huv ▸ hu)) (fun huh => ?_)
        (halone u (List.mem_cons_of_mem _ hu) hsib)
      obtain ⟨g', hg'⟩ := hsib
      rw [huh, hhigh] at hg'
      cases hg'
    · exact ih hnodup hl' h fun u hu hsib => halone u (List.mem_cons_of_mem _ hu) hsib

/-- A pass that changes nothing leaves the plan alone. -/
theorem tryStep_unchanged {step : SpillPlan → Nat → Option SpillPlan} (l : List Nat)
    {st : SpillPlan × Bool} (h : (l.foldl (tryStep step) st).2 = false) :
    l.foldl (tryStep step) st = st := by
  induction l generalizing st with
  | nil => rfl
  | cons v l ih =>
    rw [List.foldl_cons] at h ⊢
    have heq := ih h
    rw [heq] at h ⊢
    unfold tryStep at h ⊢
    split at h
    · cases h
    · rfl

/-! ## After the packing -/

/-- Whatever the steps keep, a pass over the vregs keeps. -/
theorem tryStep_keeps {step : SpillPlan → Nat → Option SpillPlan} {P : SpillPlan → Prop}
    (hstep : ∀ p q v, step p v = some q → P p → P q) (l : List Nat) {st : SpillPlan × Bool}
    (h : P st.1) : P (l.foldl (tryStep step) st).1 := by
  induction l generalizing st with
  | nil => exact h
  | cons v l ih =>
    refine ih ?_
    unfold tryStep
    split
    · next q hq => exact hstep _ _ _ hq h
    · exact h

theorem OwnSlots.slotsKept {a : Assignment} (h : OwnSlots fn a) :
    fn.SlotsKept vregs siblings { toAssignment := a } :=
  ⟨fun v _ => h.bound v, fun _ _ _ => .inl rfl,
    fun v _ w _ hne s hv hw => absurd (h.own v w s hv hw) hne⟩

theorem OwnSlots.coalesced {a : Assignment} (h : OwnSlots fn a) :
    fn.SlotsKept vregs siblings
      (fn.coalesceSiblingByteSpills vregs siblings { toAssignment := a }) := by
  have hkept : fn.SlotsKept vregs siblings ((List.range fn.nvregs).foldl
      (tryStep (fn.coalesceStep vregs siblings)) ({ toAssignment := a }, false)).1 :=
    coalesce_slotsKept _ List.nodup_range (fun v hv => List.mem_range.mp hv) h.slotsKept
      (fun v _ _ w _ hne s hv hw => hne (h.own v w s hv hw).symm)
  unfold coalesceSiblingByteSpills
  simp only
  split
  · exact compactSpillSlots_slotsKept hkept
  · exact hkept

theorem OwnSlots.coalesced_dense {a : Assignment} (h : OwnSlots fn a) :
    fn.Dense (fn.coalesceSiblingByteSpills vregs siblings { toAssignment := a }) := by
  unfold coalesceSiblingByteSpills
  simp only
  split
  · exact compactSpillSlots_dense fn _
  · next hst =>
    rw [tryStep_unchanged _ (Bool.not_eq_true _ ▸ hst)]
    exact h.dense


theorem coalesced_span (p : SpillPlan) (h : p.span = fun _ => none) :
    (fn.coalesceSiblingByteSpills vregs siblings p).span = fun _ => none := by
  let P : SpillPlan → Prop := fun p => p.span = fun _ => none
  have hstep : ∀ p q v, fn.coalesceStep vregs siblings p v = some q → P p → P q := by
    intro p q v hq hp
    obtain ⟨high, hpacks⟩ := coalesceStep_some hq
    obtain ⟨s, t, -, -, rfl⟩ := hpacks.placed
    exact hp
  have hkept : P ((List.range fn.nvregs).foldl (tryStep (fn.coalesceStep vregs siblings))
      (p, false)).1 := tryStep_keeps hstep _ h
  unfold coalesceSiblingByteSpills
  simp only
  split
  · rw [(compactSpillSlots_keeps fn _).2.2]
    exact hkept
  · exact hkept

end Func

/-! ## The frame -/

/-- The locals declared so far lie in the area, apart from one another. -/
structure LocalArea.Apart (area : LocalArea) : Prop where
  inside : ∀ v sz off, area.slot v = some (sz, off) → sz ≤ off ∧ off ≤ area.localSize
  apart : ∀ v w sz off sz' off', v ≠ w → area.slot v = some (sz, off) →
    area.slot w = some (sz', off') → off ≤ off' - sz' ∨ off' ≤ off - sz

theorem LocalArea.Apart.declare {area : LocalArea} (h : area.Apart) (v size : Nat) :
    (area.declare v size).Apart := by
  have hcases : ∀ w sz off, (area.declare v size).slot w = some (sz, off) →
      (w = v ∧ off = area.localSize + sz ∧ off = (area.declare v size).localSize) ∨
        (w ≠ v ∧ area.slot w = some (sz, off)) := by
    intro w sz off hw
    unfold LocalArea.declare at hw ⊢
    simp only at hw ⊢
    by_cases hwv : w = v
    · subst hwv
      rw [Function.update_self] at hw
      cases hw
      exact .inl ⟨rfl, rfl, rfl⟩
    · rw [Function.update_of_ne hwv] at hw
      exact .inr ⟨hwv, hw⟩
  have hgrows : area.localSize ≤ (area.declare v size).localSize := Nat.le_add_right _ _
  refine ⟨fun w sz off hw => ?_, fun w u sz off sz' off' hne hw hu => ?_⟩
  · rcases hcases w sz off hw with ⟨-, h1, h2⟩ | ⟨-, hw⟩
    · omega
    · have := h.inside w sz off hw
      omega
  · rcases hcases w sz off hw with ⟨hwv, h1, h2⟩ | ⟨hwv, hw'⟩ <;>
      rcases hcases u sz' off' hu with ⟨huv, h1', h2'⟩ | ⟨huv, hu'⟩
    · exact absurd (hwv.trans huv.symm) hne
    · have := h.inside u sz' off' hu'
      omega
    · have := h.inside w sz off hw'
      omega
    · exact h.apart w u sz off sz' off' hne hw' hu'

theorem localArea_apart (lines : List (Nat × Nat)) : (localArea lines).Apart :=
  Func.foldl_preserves LocalArea.Apart _ (fun _ l _ h => h.declare l.1 l.2)
    ⟨by simp, by simp⟩

namespace Frame

variable {vregs : VregTable} {f : Frame} {fn : Func} {siblings : SiblingTable}

/-- A slot takes the bytes of its word, or one of them. -/
theorem extent_slot (hs : fn.SlotsKept vregs siblings f.plan) {v : Nat} (hv : v < fn.nvregs)
    {r : Int × Int} (h : f.extent vregs (.slot v) = some r) :
    ∃ s, f.plan.spillSlot v = some s ∧ s < f.plan.nspillSlots ∧
      -(s + 1 : Int) * 2 ≤ r.1 ∧ r.1 < r.2 ∧ r.2 ≤ -(s : Int) * 2 ∧
      ((vregs v).isByte = true → r = (f.spillOff s v, f.spillOff s v + 1)) := by
  obtain ⟨s, hslot, rfl⟩ := Option.map_eq_some_iff.mp h
  refine ⟨s, hslot, hs.bound v hv s hslot, ?_⟩
  unfold spillOff
  rcases hs.offset v hv (by rw [hslot]; rfl) with hoff | ⟨hoff, hbyte⟩
  · rw [hoff]
    split <;> simp_all <;> omega
  · rw [hoff, hbyte]
    simp
    omega

/-- Two slots do not overlap: they are different, or the two bytes of one. -/
theorem slots_apart (hs : fn.SlotsKept vregs siblings f.plan) {v w : Nat} (hv : v < fn.nvregs)
    (hw : w < fn.nvregs) (hne : v ≠ w) {r t : Int × Int}
    (hr : f.extent vregs (.slot v) = some r) (ht : f.extent vregs (.slot w) = some t) :
    r.2 ≤ t.1 ∨ t.2 ≤ r.1 := by
  obtain ⟨s, hsv, -, h1, h2, h3, hb⟩ := extent_slot hs hv hr
  obtain ⟨s', hsw, -, h1', h2', h3', hb'⟩ := extent_slot hs hw ht
  by_cases hss : s = s'
  · subst hss
    rcases hs.shared v hv w hw hne s hsv hsw with hh | hh
    · rw [hb hh.lowByte, hb' hh.highByte, spillOff, spillOff, hh.lowOffset, hh.highOffset]
      left
      simp
    · rw [hb hh.highByte, hb' hh.lowByte, spillOff, spillOff, hh.lowOffset, hh.highOffset]
      right
      simp
  · omega

theorem extent_local (ha : f.area.Apart) {v : Nat} {r : Int × Int}
    (h : f.extent vregs (.stackLocal v) = some r) : ∃ sz off, f.area.slot v = some (sz, off) ∧
      r = (-(f.plan.nspillSlots * 2 + off : Int), -(f.plan.nspillSlots * 2 + off : Int) + sz) ∧
      sz ≤ off ∧ off ≤ f.area.localSize := by
  obtain ⟨⟨sz, off⟩, hslot, rfl⟩ := Option.map_eq_some_iff.mp h
  refine ⟨sz, off, hslot, ?_, (ha.inside v sz off hslot).1, (ha.inside v sz off hslot).2⟩
  simp only [localBpOffset, hslot]

theorem extent_callTemp {r : Int × Int} (h : f.extent vregs .callTemp = some r) :
    f.needsCallTemp = true ∧ r = (-(f.baseSize + 4 : Int), -(f.baseSize : Int)) := by
  simp only [extent] at h
  split at h
  · next htemp =>
    cases h
    refine ⟨htemp, ?_⟩
    simp only [callTempOff, htemp, if_true, Prod.mk.injEq, true_and]
    omega
  · cases h

theorem laidOut (hs : fn.SlotsKept vregs siblings f.plan) (ha : f.area.Apart) :
    f.LaidOut vregs fn.nvregs := by
  have hbase : f.baseSize = f.plan.nspillSlots * 2 + f.area.localSize := rfl
  have hsize : f.baseSize ≤ f.frameSize := Nat.le_add_right _ _
  have hslot : ∀ v r, v < fn.nvregs → f.extent vregs (.slot v) = some r →
      -(f.plan.nspillSlots * 2 : Int) ≤ r.1 ∧ r.2 ≤ 0 := by
    intro v r hv hr
    obtain ⟨s, -, hlt, h1, -, h3, -⟩ := extent_slot hs hv hr
    omega
  have hlocal : ∀ v r, f.extent vregs (.stackLocal v) = some r →
      -(f.baseSize : Int) ≤ r.1 ∧ r.2 ≤ -(f.plan.nspillSlots * 2 : Int) := by
    intro v r hr
    obtain ⟨sz, off, -, rfl, h1, h2⟩ := extent_local ha hr
    simp only
    omega
  have htemp : ∀ r, f.extent vregs .callTemp = some r →
      -(f.frameSize : Int) ≤ r.1 ∧ r.2 ≤ -(f.baseSize : Int) := by
    intro r hr
    obtain ⟨hneeds, rfl⟩ := extent_callTemp hr
    have : f.frameSize = f.baseSize + 4 := by simp [frameSize, hneeds]
    simp only
    omega
  constructor
  · intro x r hx hr
    cases x with
    | slot v => have := hslot v r hx hr; omega
    | stackLocal v => have := hlocal v r hr; omega
    | callTemp => have := htemp r hr; omega
  · intro x y r t hne hx hy hr ht
    cases x with
    | slot v =>
      have h := hslot v r hx hr
      cases y with
      | slot w => exact slots_apart hs hx hy (fun h => hne (h ▸ rfl)) hr ht
      | stackLocal w => have := hlocal w t ht; omega
      | callTemp => have := htemp t ht; omega
    | stackLocal v =>
      have h := hlocal v r hr
      cases y with
      | slot w => have := hslot w t hy ht; omega
      | stackLocal w =>
        obtain ⟨sz, off, hv, rfl, h1, h2⟩ := extent_local ha hr
        obtain ⟨sz', off', hw, rfl, h1', h2'⟩ := extent_local ha ht
        have := ha.apart v w sz off sz' off' (fun h => hne (h ▸ rfl)) hv hw
        simp only
        omega
      | callTemp => have := htemp t ht; omega
    | callTemp =>
      have h := htemp r hr
      cases y with
      | slot w => have := hslot w t hy ht; omega
      | stackLocal w => have := hlocal w t ht; omega
      | callTemp => exact absurd rfl hne

end Frame

end Nib.Bind
