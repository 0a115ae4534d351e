import Mathlib
import Nib.Bind.Properties.Frame
import Nib.Bind.Properties.Flow

/-!
# Spill planning

* `findStackCacheSpan_iff` — a span is found exactly when every way through the graph pops what
  was pushed
* `planSpills_spans` — the spans of a plan nest
* `planSpills_frame` — nothing in the frame overlaps
-/

namespace Nib.Bind

open Nib.Infra Relation

theorem Span.Nest.symm {s t : Span} (h : s.Nest t) : t.Nest s := by
  unfold Span.Nest at h ⊢
  tauto

namespace Func

variable {fn : Func}

/-! ## Barriers -/

theorem mem_take_drop {α : Type*} {l : List α} {x : α} {start stop : Nat} :
    x ∈ (l.take stop).drop start ↔ ∃ i, start ≤ i ∧ i < stop ∧ l[i]? = some x := by
  rw [List.mem_iff_getElem?]
  simp only [List.getElem?_drop, List.getElem?_take]
  constructor
  · rintro ⟨i, hi⟩
    split at hi
    · next hlt => exact ⟨start + i, by omega, hlt, hi⟩
    · cases hi
  · rintro ⟨i, hstart, hstop, hi⟩
    refine ⟨i - start, ?_⟩
    rw [Nat.add_sub_cancel' hstart, if_pos hstop]
    exact hi

theorem hasHardBarrier_iff {start stop : Nat} :
    fn.hasHardBarrier start stop = false ↔ fn.NoBarrier start stop := by
  rw [hasHardBarrier, List.any_eq_false]
  constructor
  · intro h i ins h1 h2 hi
    exact Bool.not_eq_true _ ▸ h ins (mem_take_drop.mpr ⟨i, h1, h2, hi⟩)
  · intro h ins hins
    obtain ⟨i, h1, h2, hi⟩ := mem_take_drop.mp hins
    rw [h i ins h1 h2 hi]
    decide

/-! ## The two searches -/

theorem mem_succsOf_lt {x y : Nat} (h : y ∈ fn.succsOf x) : y < fn.buildCfg.length := by
  unfold succsOf at h
  cases hx : fn.buildCfg[x]? with
  | none => rw [hx] at h; exact absurd h List.not_mem_nil
  | some bb =>
    rw [hx] at h
    exact succs_lt hx h

theorem outside_range (x : Nat) (h : decide (fn.buildCfg.length ≤ x) = false) :
    x ∈ Finset.range fn.buildCfg.length :=
  Finset.mem_range.mpr (not_le.mp (of_decide_eq_false h))

theorem useBlockIsDominatedByDef_iff {d u : Nat} (hne : d ≠ u) (h0 : 0 < fn.buildCfg.length) :
    fn.useBlockIsDominatedByDef d u = true ↔ ¬fn.GetsAround d u := by
  have hallowed : ∀ x, (decide (fn.buildCfg.length ≤ x) || x == d) = false ↔
      x < fn.buildCfg.length ∧ x ≠ d := by
    intro x
    simp
  have hstep : ∀ x y, Search.Avoiding fn.succsOf
      (fun b => decide (fn.buildCfg.length ≤ b) || b == d) x y ↔ y ∈ fn.succsOf x ∧ y ≠ d := by
    intro x y
    rw [Search.Avoiding, hallowed]
    exact ⟨fun h => ⟨h.1, h.2.2⟩, fun h => ⟨h.1, mem_succsOf_lt h.1, h.2⟩⟩
  have hU : ∀ x, (decide (fn.buildCfg.length ≤ x) || x == d) = false →
      x ∈ Finset.range fn.buildCfg.length := fun x hx => Finset.mem_range.mpr ((hallowed x).mp hx).1
  have hfuel : (Finset.range fn.buildCfg.length).card < fn.buildCfg.length + 1 := by simp
  have hsearch : (Search.reaches fn.succsOf _ (· == u) _ 0 []).1 = true ↔ _ :=
    Search.reaches_iff hU hfuel 0
  have haround : fn.GetsAround d u ↔ (decide (fn.buildCfg.length ≤ 0) || 0 == d) = false ∧
      ∃ y, ReflTransGen (Search.Avoiding fn.succsOf
        fun b => decide (fn.buildCfg.length ≤ b) || b == d) 0 y ∧ (y == u) = true := by
    have hrel : (Search.Avoiding fn.succsOf
        fun b => decide (fn.buildCfg.length ≤ b) || b == d) =
        fun x y => y ∈ fn.succsOf x ∧ y ≠ d := funext₂ fun x y => propext (hstep x y)
    rw [GetsAround, hallowed, hrel]
    constructor
    · exact fun h => ⟨⟨h0, fun hd => h.1 hd.symm⟩, u, h.2, beq_self_eq_true u⟩
    · rintro ⟨⟨-, hd⟩, y, hy, hyu⟩
      exact ⟨fun h => hd h.symm, beq_iff_eq.mp hyu ▸ hy⟩
  unfold useBlockIsDominatedByDef
  simp only
  rw [if_neg (by simpa using hne), if_neg (by simpa using h0.ne'), haround, ← hsearch]
  simp

theorem passable_iff {d u b : Nat} :
    (decide (fn.buildCfg.length ≤ b) ||
      fn.scanHasBarrier d u (fn.blockOf d) (fn.blockOf u) b) = false ↔ fn.Passable d u b := by
  unfold Passable scanHasBarrier
  simp only [beq_iff_eq]
  cases hb : fn.buildCfg[b]? with
  | none => simp
  | some bb =>
    have hlt := (List.getElem?_eq_some_iff.mp hb).1
    simp [hlt, hasHardBarrier_iff]

theorem allPathsReachStackCacheUse_iff {d u : Nat} :
    fn.allPathsReachStackCacheUse d u (fn.blockOf d) (fn.blockOf u) = true ↔
      fn.AlwaysReaches d u := by
  unfold allPathsReachStackCacheUse
  simp only
  have hfuel : (Finset.range fn.buildCfg.length).card < fn.buildCfg.length + 1 := by simp
  rw [Search.always_iff outside_range hfuel, Search.Surely, Search.inevitable_iff_ways]
  simp only [passable_iff, beq_iff_eq]
  rfl

theorem stackCacheCfgSpanOk_iff {d u : Nat} :
    fn.stackCacheCfgSpanOk d u = true ↔ fn.SpanOk d u := by
  unfold stackCacheCfgSpanOk SpanOk
  simp only [beq_iff_eq]
  by_cases hne : fn.blockOf d = fn.blockOf u
  · rw [if_pos hne, if_pos hne, Bool.not_eq_true', hasHardBarrier_iff]
  have h0 : 0 < fn.buildCfg.length := by
    refine Nat.pos_of_ne_zero fun h => hne ?_
    have hnil := List.length_eq_zero_iff.mp h
    rw [blockOf, blockOf, hnil]
    rfl
  rw [if_neg hne, if_neg hne, Bool.and_eq_true, useBlockIsDominatedByDef_iff hne h0,
    allPathsReachStackCacheUse_iff]

/-! ## The span of a vreg -/

theorem eq_singleton_iff {l : List Nat} (h : l.Nodup) {x : Nat} :
    l = [x] ↔ ∀ i, i ∈ l ↔ i = x := by
  rw [← List.perm_singleton, List.perm_ext_iff_of_nodup h (List.nodup_singleton x)]
  simp only [List.mem_singleton]

theorem definitionsOf_eq {v d : Nat} :
    fn.definitionsOf v = [d] ↔ ∀ i, fn.DefinesAt v i ↔ i = d := by
  rw [definitionsOf, eq_singleton_iff (List.nodup_range.filter _)]
  refine forall_congr' fun i => iff_congr ?_ Iff.rfl
  rw [List.mem_filter, List.mem_range, DefinesAt]
  cases hi : fn.insns[i]? with
  | none => simp
  | some ins => simp [(List.getElem?_eq_some_iff.mp hi).1]

theorem usesOf_eq {v u : Nat} : fn.usesOf v = [u] ↔ ∀ i, fn.UsesAt v i ↔ i = u := by
  rw [usesOf, eq_singleton_iff (List.nodup_range.filter _)]
  refine forall_congr' fun i => iff_congr ?_ Iff.rfl
  rw [List.mem_filter, List.mem_range, UsesAt]
  cases hi : fn.insns[i]? with
  | none => simp
  | some ins => simp [(List.getElem?_eq_some_iff.mp hi).1]

theorem findStackCacheSpan_some {v : Nat} {s : Span} :
    fn.findStackCacheSpan v = some s ↔ fn.definitionsOf v = [s.push] ∧ fn.usesOf v = [s.pop] ∧
      s.push < s.pop ∧ fn.SpanOk s.push s.pop := by
  unfold findStackCacheSpan
  constructor
  · intro h
    split at h
    · next d u hd hu =>
      split at h
      · next hok =>
        cases h
        exact ⟨hd, hu, hok.1, stackCacheCfgSpanOk_iff.mp hok.2⟩
      · cases h
    · cases h
  · rintro ⟨hd, hu, hlt, hok⟩
    rw [hd, hu]
    exact if_pos ⟨hlt, stackCacheCfgSpanOk_iff.mpr hok⟩

theorem pop_lt_of_span {v : Nat} {s : Span} (h : fn.findStackCacheSpan v = some s) :
    s.pop < fn.insns.length := by
  have hmem : s.pop ∈ fn.usesOf v := by
    rw [(findStackCacheSpan_some.mp h).2.1]
    exact List.mem_singleton_self _
  exact List.mem_range.mp (List.mem_filter.mp hmem).1

variable {vregs : VregTable} {siblings : SiblingTable}

theorem spanCompatible_iff {p : SpillPlan} {s : Span} :
    fn.spanCompatible p s = true ↔ ∀ v < fn.nvregs, ∀ t, p.span v = some t → s.Nest t := by
  rw [spanCompatible, List.all_eq_true]
  refine forall_congr' fun v => ?_
  rw [List.mem_range]
  refine imp_congr_right fun _ => ?_
  cases hv : p.span v with
  | none => simp
  | some t => simp [Span.Nest, or_assoc]

/-- What a step of the planning does: the vregs of `C` share a register for the span `s`. -/
structure Caches (fn : Func) (siblings : SiblingTable) (C : Nat → Prop) (s : Span)
    (p q : SpillPlan) : Prop where
  caches : ∀ v, C v → q.span v = some s ∧ q.spillSlot v = none ∧ ∃ preg, q.assigned v = some preg
  keeps : ∀ v, ¬C v → q.span v = p.span v ∧ q.spillSlot v = p.spillSlot v ∧
    q.assigned v = p.assigned v ∧ q.byteOffset v = p.byteOffset v
  slots : q.nspillSlots = p.nspillSlots
  pair : ∀ v w, C v → C w → v ≠ w → (siblings.Pair v w ∨ siblings.Pair w v) ∧
    stackCacheStoragePreg q v = stackCacheStoragePreg q w
  ordered : s.push < s.pop
  inRange : s.pop < fn.insns.length
  ok : fn.SpanOk s.push s.pop
  compatible : fn.spanCompatible p s = true

theorem Caches.spansPlanned {C : Nat → Prop} {s : Span} {p q : SpillPlan}
    (hc : Caches fn siblings C s p q) (h : fn.SpansPlanned siblings p) :
    fn.SpansPlanned siblings q := by
  have hnest := spanCompatible_iff.mp hc.compatible
  refine ⟨fun v hv t ht => ?_, fun v hv w hw hne t u ht hu => ?_⟩
  · by_cases hCv : C v
    · obtain ⟨hspan, hslot, hreg⟩ := hc.caches v hCv
      cases hspan.symm.trans ht
      exact ⟨hreg, hslot, hc.ordered, hc.inRange, hc.ok⟩
    · obtain ⟨hspan, hslot, hreg, -⟩ := hc.keeps v hCv
      rw [hslot, hreg]
      exact h.cached v hv t (hspan ▸ ht)
  · by_cases hCv : C v <;> by_cases hCw : C w
    · cases (hc.caches v hCv).1.symm.trans ht
      cases (hc.caches w hCw).1.symm.trans hu
      exact .inr ⟨rfl, hc.pair v w hCv hCw hne⟩
    · cases (hc.caches v hCv).1.symm.trans ht
      exact .inl (hnest w hw u ((hc.keeps w hCw).1 ▸ hu))
    · cases (hc.caches w hCw).1.symm.trans hu
      exact .inl (hnest v hv t ((hc.keeps v hCv).1 ▸ ht)).symm
    · rcases h.nest v hv w hw hne t u ((hc.keeps v hCv).1 ▸ ht) ((hc.keeps w hCw).1 ▸ hu) with
        hnest | ⟨heq, hpair, hreg⟩
      · exact .inl hnest
      refine .inr ⟨heq, hpair, ?_⟩
      unfold stackCacheStoragePreg at hreg ⊢
      rwa [(hc.keeps v hCv).2.2.1, (hc.keeps w hCw).2.2.1]

theorem planStep_some {g : Igraph fn.nvregs} {bpAvailable needsFrame : Bool} {p q : SpillPlan}
    {v : Nat} (h : fn.planStep vregs g bpAvailable needsFrame p v = some q) :
    ∃ s, Caches fn siblings (· = v) s p q := by
  unfold planStep at h
  split at h
  · cases h
  split at h
  · cases h
  next s hs =>
  split at h
  · next hcomp =>
    obtain ⟨preg, -, rfl⟩ := Option.map_eq_some_iff.mp h
    obtain ⟨-, -, hlt, hok⟩ := findStackCacheSpan_some.mp hs
    refine ⟨s, ?_, ?_, rfl, ?_, hlt, pop_lt_of_span hs, hok, hcomp⟩
    · rintro w rfl
      simp [SpillPlan.cache]
    · intro w hw
      simp [SpillPlan.cache, Function.update_of_ne hw]
    · rintro w u rfl rfl hne
      exact absurd rfl hne
  · cases h

theorem pair_of_highBytePeer {p : SpillPlan} {low high : Nat}
    (h : fn.findStackCacheHighBytePeer siblings p low = some high) : siblings.Pair low high := by
  unfold findStackCacheHighBytePeer at h
  split at h
  · next group slot hlow hslot =>
    split at h
    · have hfound := List.find?_some h
      simp only [Bool.and_eq_true, beq_iff_eq] at hfound
      exact ⟨group, hlow, hfound.1.1⟩
    · cases h
  · cases h

theorem planPairStep_some {clobbers : (Nat → Option Preg) → Insn → List Preg} {p q : SpillPlan}
    {low : Nat} (h : fn.planPairStep vregs siblings clobbers p low = some q) :
    ∃ high s, Caches fn siblings (fun v => v = low ∨ v = high) s p q := by
  unfold planPairStep at h
  split at h
  · cases h
  split at h
  · cases h
  next high hhigh =>
  split at h
  · cases h
  split at h
  · next l r hl hr =>
    simp only at h
    split at h
    · next hcond =>
      split at h
      · cases h
      next parent hparent =>
      split at h
      · cases h
      cases h
      have hpair := pair_of_highBytePeer hhigh
      have hmem := List.mem_of_find?_eq_some hparent
      have hhalves : (∃ a, parent.aliasLo = some a) ∧ ∃ a, parent.aliasHi = some a := by
        simp only [List.mem_cons, List.not_mem_nil, or_false] at hmem
        rcases hmem with rfl | rfl | rfl | rfl <;> exact ⟨⟨_, rfl⟩, ⟨_, rfl⟩⟩
      refine ⟨high, pairSpan l r, ?_, ?_, rfl, ?_, hcond.1,
        (min_le_left _ _).trans_lt (pop_lt_of_span hl), stackCacheCfgSpanOk_iff.mp hcond.2.1,
        hcond.2.2⟩
      · rintro v (rfl | rfl)
        · simp [SpillPlan.cache, Function.update_of_ne (hpair.ne), hhalves.1]
        · simp [SpillPlan.cache, hhalves.2]
      · intro v hv
        obtain ⟨hvl, hvh⟩ := not_or.mp hv
        simp [SpillPlan.cache, Function.update_of_ne hvl, Function.update_of_ne hvh]
      · have hregs : parent.aliasLo.bind storagePreg = parent.aliasHi.bind storagePreg := by
          simp only [List.mem_cons, List.not_mem_nil, or_false] at hmem
          rcases hmem with rfl | rfl | rfl | rfl <;> rfl
        rintro v w (rfl | rfl) (rfl | rfl) hne
        · exact absurd rfl hne
        · refine ⟨.inl hpair, ?_⟩
          simpa [stackCacheStoragePreg, SpillPlan.cache, Function.update_of_ne hne] using hregs
        · refine ⟨.inr hpair, ?_⟩
          simpa [stackCacheStoragePreg, SpillPlan.cache, Function.update_of_ne hne.symm]
            using hregs.symm
        · exact absurd rfl hne
    · cases h
  · cases h

/-- Whatever caching keeps, the planning keeps. -/
theorem planSpans_keeps {P : SpillPlan → Prop}
    (hcache : ∀ C s p q, Caches fn siblings C s p q → P p → P q)
    {clobbers : (Nat → Option Preg) → Insn → List Preg} {g : Igraph fn.nvregs}
    {bpAvailable needsFrame : Bool} {p : SpillPlan} (h : P p) :
    P (fn.planSpans vregs siblings clobbers g bpAvailable needsFrame p).1 := by
  refine tryStep_keeps (fun p q v hq => ?_) _ (tryStep_keeps (fun p q v hq => ?_) _ h)
  · obtain ⟨s, hs⟩ := planStep_some hq
    exact hcache _ s p q hs
  · obtain ⟨high, s, hs⟩ := planPairStep_some hq
    exact hcache _ s p q hs

theorem compactSpillSlots_spansPlanned {p : SpillPlan} (h : fn.SpansPlanned siblings p) :
    fn.SpansPlanned siblings (fn.compactSpillSlots p) := by
  obtain ⟨hassigned, -, hspan⟩ := compactSpillSlots_keeps fn p
  obtain ⟨m, -, -, -, hnone, -⟩ := compactSpillSlots_spec fn p
  refine ⟨fun v hv s hs => ?_, fun v hv w hw hne s t hs ht => ?_⟩
  · obtain ⟨hreg, hslot, hok⟩ := h.cached v hv s (hspan ▸ hs)
    exact ⟨hassigned ▸ hreg, hnone v hv hslot, hok⟩
  · unfold stackCacheStoragePreg
    rw [hassigned]
    exact h.nest v hv w hw hne s t (hspan ▸ hs) (hspan ▸ ht)

/-! ## The whole plan -/

theorem planStackCacheSpills_spansPlanned {clobbers : (Nat → Option Preg) → Insn → List Preg}
    {g : Igraph fn.nvregs} {bpAvailable needsFrame : Bool} {p : SpillPlan}
    (h : fn.SpansPlanned siblings p) : fn.SpansPlanned siblings
      (fn.planStackCacheSpills vregs siblings clobbers g bpAvailable needsFrame p) := by
  have hplanned : fn.SpansPlanned siblings
      (fn.planSpans vregs siblings clobbers g bpAvailable needsFrame p).1 :=
    planSpans_keeps (fun _ _ _ _ hc => hc.spansPlanned) h
  unfold planStackCacheSpills
  simp only
  split
  · exact compactSpillSlots_spansPlanned hplanned
  · exact hplanned

theorem coalesced_spansPlanned (a : Assignment) : fn.SpansPlanned siblings
    (fn.coalesceSiblingByteSpills vregs siblings { toAssignment := a }) := by
  have hnone : (fn.coalesceSiblingByteSpills vregs siblings { toAssignment := a }).span =
      fun _ => none := coalesced_span { toAssignment := a } rfl
  exact ⟨fun v _ s hs => absurd ((congrFun hnone v).symm.trans hs) (Option.some_ne_none s).symm,
    fun v _ w _ _ s t hs _ =>
      absurd ((congrFun hnone v).symm.trans hs) (Option.some_ne_none s).symm⟩

variable {path : List Nat}

theorem mem_executed {i : Nat} : i ∈ fn.executed path ↔
    ∃ b ∈ path, ∃ bb, fn.buildCfg[b]? = some bb ∧ bb.start ≤ i ∧ i < bb.stop := by
  rw [executed, List.mem_flatMap]
  refine exists_congr fun b => and_congr_right fun _ => ?_
  cases hb : fn.buildCfg[b]? with
  | none => simp
  | some bb =>
    simp only [Option.map_some, Option.getD_some, List.mem_range'_1, Option.some.injEq,
      exists_eq_left']
    omega

theorem mem_executed_iff {i : Nat} (hi : i < fn.insns.length) :
    i ∈ fn.executed path ↔ fn.blockOf i ∈ path := by
  obtain ⟨bb, hbb, hstart, hstop⟩ := blockOf_spec hi
  rw [mem_executed]
  constructor
  · rintro ⟨b, hb, bc, hbc, h1, h2⟩
    rwa [block_unique hbb hbc hstart hstop h1 h2]
  · exact fun h => ⟨_, h, bb, hbb, hstart, hstop⟩

/-- A block ends before a later one starts. -/
theorem stop_le_start {b c : Nat} {bb bc : Block} (hb : fn.buildCfg[b]? = some bb)
    (hc : fn.buildCfg[c]? = some bc) (h : b < c) : bb.stop ≤ bc.start := by
  obtain ⟨i, hi, rfl⟩ := exists_leader_of_block hb
  obtain ⟨j, hj, rfl⟩ := exists_leader_of_block hc
  have hlt : i < j := leaders_lt hi hj h
  have hlead := (mem_leaders.mp (List.mem_of_getElem? hj)).2
  by_contra hstop
  rw [not_leader_inside hlt (not_le.mp hstop)] at hlead
  cases hlead

/-- A run that never jumps backwards executes its instructions in the order of their indices. -/
theorem executed_sorted (hforward : path.Pairwise (· < ·)) :
    (fn.executed path).Pairwise (· < ·) := by
  rw [executed, List.pairwise_flatMap]
  constructor
  · intro b _
    cases hb : fn.buildCfg[b]? with
    | none => exact .nil
    | some bb => exact List.pairwise_lt_range'
  · refine hforward.imp fun {b c} hbc i hi j hj => ?_
    cases hb : fn.buildCfg[b]? with
    | none => rw [hb] at hi; cases hi
    | some bb =>
      cases hc : fn.buildCfg[c]? with
      | none => rw [hc] at hj; cases hj
      | some bc =>
        rw [hb, Option.map_some, Option.getD_some, List.mem_range'_1] at hi
        rw [hc, Option.map_some, Option.getD_some, List.mem_range'_1] at hj
        have := stop_le_start hb hc hbc
        omega

/-- A use that is executed comes with its definition. -/
theorem push_executed (hpath : fn.CompletePath path) {d u : Nat} (hdu : d < u)
    (hu : u < fn.insns.length) (hok : fn.SpanOk d u) (hmem : u ∈ fn.executed path) :
    d ∈ fn.executed path := by
  rw [mem_executed_iff hu] at hmem
  rw [mem_executed_iff (hdu.trans hu)]
  by_contra hd
  have hne : fn.blockOf d ≠ fn.blockOf u := fun h => hd (h ▸ hmem)
  rw [SpanOk, if_neg hne] at hok
  obtain ⟨rest, rfl⟩ : ∃ rest, path = 0 :: rest := by
    have := hpath.entry
    cases path with
    | nil => cases this
    | cons b rest => cases this; exact ⟨rest, rfl⟩
  refine hok.1 ⟨fun h => hd (h ▸ List.mem_cons_self), ?_⟩
  exact Search.reflTransGen_of_chain hpath.steps
    (fun z hz h => hd (h ▸ List.mem_cons_of_mem _ hz)) hmem

/-- A definition that is executed is followed by its use. -/
theorem pop_executed (hpath : fn.CompletePath path) {d u : Nat} (hdu : d < u)
    (hu : u < fn.insns.length) (hok : fn.SpanOk d u) (hmem : d ∈ fn.executed path) :
    u ∈ fn.executed path := by
  rw [mem_executed_iff (hdu.trans hu)] at hmem
  rw [mem_executed_iff hu]
  by_cases hne : fn.blockOf d = fn.blockOf u
  · exact hne ▸ hmem
  rw [SpanOk, if_neg hne] at hok
  obtain ⟨before, rest, rfl⟩ := List.append_of_mem hmem
  have hchain := (List.isChain_append.mp hpath.steps).2.1
  have hlast : ∀ y, (fn.blockOf d :: rest).getLast? = some y → fn.succsOf y = [] := by
    intro y hy
    refine hpath.leaves y ?_
    rw [List.getLast?_append, hy]
    rfl
  obtain ⟨way, hway, h0, hall⟩ := Search.exists_way hchain hlast
  obtain ⟨n, hn, -⟩ := hok.2 way hway h0
  exact List.mem_append_right _ (hn ▸ hall n)

/-! ## The stack along a run -/

variable {p : SpillPlan}

/-- Two spans that do not nest are the same, and have one register. -/
theorem SpansPlanned.same (h : fn.SpansPlanned siblings p) {v w : Nat} (hv : v < fn.nvregs)
    (hw : w < fn.nvregs) {s t : Span} (hs : p.span v = some s) (ht : p.span w = some t)
    (hn : ¬s.Nest t) : s = t ∧ stackCacheStoragePreg p v = stackCacheStoragePreg p w := by
  by_cases hvw : v = w
  · subst hvw
    exact ⟨Option.some.inj (hs.symm.trans ht), rfl⟩
  · rcases h.nest v hv w hw hvw s t hs ht with hnest | ⟨heq, -, hreg⟩
    · exact absurd hnest hn
    · exact ⟨heq, hreg⟩

/-- Words that are popped at one place were pushed at one place. -/
theorem SpansPlanned.same_of_pop (h : fn.SpansPlanned siblings p) {v w : Nat}
    (hv : v < fn.nvregs) (hw : w < fn.nvregs) {s t : Span} (hs : p.span v = some s)
    (ht : p.span w = some t) (heq : s.pop = t.pop) :
    s = t ∧ stackCacheStoragePreg p v = stackCacheStoragePreg p w := by
  have hlt := (h.cached v hv s hs).2.2.1
  have hlt' := (h.cached w hw t ht).2.2.1
  exact h.same hv hw hs ht (by unfold Span.Nest; omega)

/-- Words that are pushed at one place are popped at one place. -/
theorem SpansPlanned.same_of_push (h : fn.SpansPlanned siblings p) {v w : Nat}
    (hv : v < fn.nvregs) (hw : w < fn.nvregs) {s t : Span} (hs : p.span v = some s)
    (ht : p.span w = some t) (heq : s.push = t.push) :
    s = t ∧ stackCacheStoragePreg p v = stackCacheStoragePreg p w := by
  have hlt := (h.cached v hv s hs).2.2.1
  have hlt' := (h.cached w hw t ht).2.2.1
  exact h.same hv hw hs ht (by unfold Span.Nest; omega)

theorem storagePreg_isSome (r : Preg) : ∃ q, storagePreg r = some q := by
  cases r <;> exact ⟨_, rfl⟩

theorem SpansPlanned.storage (h : fn.SpansPlanned siblings p) {v : Nat} (hv : v < fn.nvregs)
    {s : Span} (hs : p.span v = some s) : ∃ r, stackCacheStoragePreg p v = some r := by
  obtain ⟨⟨preg, hpreg⟩, -⟩ := h.cached v hv s hs
  obtain ⟨q, hq⟩ := storagePreg_isSome preg
  exact ⟨q, by rw [stackCacheStoragePreg, hpreg]; exact hq⟩

theorem eraseDups_of_all_eq {l : List Preg} {r : Preg} (hne : l ≠ []) (h : ∀ x ∈ l, x = r) :
    l.eraseDups = [r] := by
  cases l with
  | nil => exact absurd rfl hne
  | cons x l =>
    have hx := h x List.mem_cons_self
    subst hx
    have hnone : l.filter (fun b => !b == x) = [] := by
      rw [List.filter_eq_nil_iff]
      intro y hy
      simp [h y (List.mem_cons_of_mem _ hy)]
    rw [List.eraseDups_cons, hnone]
    rfl

theorem mem_regs {stop : Span → Nat} {i : Nat} {v : Nat} :
    v ∈ (List.range fn.nvregs).filter (fun v => (p.span v).any fun s => stop s == i) ↔
      v < fn.nvregs ∧ ∃ s, p.span v = some s ∧ stop s = i := by
  rw [List.mem_filter, List.mem_range]
  refine and_congr_right fun _ => ?_
  cases p.span v <;> simp

theorem stackCacheRegs_nil {stop : Span → Nat} {i : Nat}
    (h : ∀ v < fn.nvregs, ∀ s, p.span v = some s → stop s ≠ i) :
    fn.stackCacheRegs stop p i = [] := by
  have hnil : (List.range fn.nvregs).filter (fun v => (p.span v).any fun s => stop s == i) = [] :=
    List.eq_nil_iff_forall_not_mem.mpr fun v hv => by
      obtain ⟨hlt, s, hs, hstop⟩ := mem_regs.mp hv
      exact h v hlt s hs hstop
  rw [stackCacheRegs, hnil]
  rfl

theorem stackCacheRegs_singleton {stop : Span → Nat} {i v : Nat} (hv : v < fn.nvregs) {s : Span}
    (hs : p.span v = some s) (hstop : stop s = i) {r : Preg}
    (hr : stackCacheStoragePreg p v = some r)
    (hall : ∀ w < fn.nvregs, ∀ t, p.span w = some t → stop t = i →
      stackCacheStoragePreg p w = some r) :
    fn.stackCacheRegs stop p i = [r] := by
  refine eraseDups_of_all_eq (fun h => ?_) fun x hx => ?_
  · have hmem : r ∈ ((List.range fn.nvregs).filter fun v => (p.span v).any fun s =>
        stop s == i).filterMap (stackCacheStoragePreg p) :=
      List.mem_filterMap.mpr ⟨v, mem_regs.mpr ⟨hv, s, hs, hstop⟩, hr⟩
    rw [h] at hmem
    cases hmem
  · obtain ⟨w, hw, hx⟩ := List.mem_filterMap.mp hx
    obtain ⟨hw, t, ht, hstop⟩ := mem_regs.mp hw
    exact Option.some.inj (hx.symm.trans (hall w hw t ht hstop))

/-- The words that lie on the stack when the instructions of `done` have been run: those that have
been pushed and not popped, the last one first. -/
structure Stacked (fn : Func) (p : SpillPlan) (opened : Span → Prop) (st : List StackWord) :
    Prop where
  desc : st.Pairwise fun x y => y.1 < x.1
  mem : ∀ d r, (d, r) ∈ st ↔ ∃ v < fn.nvregs, ∃ s, p.span v = some s ∧ s.push = d ∧
    stackCacheStoragePreg p v = some r ∧ opened s

/-- The word that is popped next is on top: one above it would have been pushed inside its span and
be popped behind it. -/
theorem Stacked.top_eq (h : fn.SpansPlanned siblings p) {done : Nat → Prop}
    {top : StackWord} {st : List StackWord}
    (hst : Stacked fn p (fun s => done s.push ∧ ¬done s.pop) (top :: st)) {v : Nat}
    (hv : v < fn.nvregs) {s : Span} (hs : p.span v = some s) {r : Preg}
    (hmem : (s.push, r) ∈ top :: st) (hbefore : ∀ j, done j → j < s.pop)
    (hpop : ∀ v < fn.nvregs, ∀ t, p.span v = some t → done t.push → done t.pop ∨ s.pop ≤ t.pop) :
    top = (s.push, r) := by
  rcases List.mem_cons.mp hmem with heq | hmem
  · exact heq.symm
  exfalso
  obtain ⟨w, hw, t, ht, htd, -, hdt, hnt⟩ := (hst.mem top.1 top.2).mp List.mem_cons_self
  have hlt : s.push < top.1 := (List.pairwise_cons.mp hst.desc).1 _ hmem
  have hle : s.pop ≤ t.pop := (hpop w hw t ht hdt).resolve_left hnt
  have hlt' : t.push < s.pop := hbefore _ hdt
  have hsame : s = t := by
    rcases Nat.eq_or_lt_of_le hle with heq | hlt
    · exact (h.same_of_pop hv hw hs ht heq).1
    · exact (h.same hv hw hs ht (by unfold Span.Nest; omega)).1
  subst hsame
  omega

/-- The pop of an instruction finds its word on top. -/
theorem Stacked.pop (h : fn.SpansPlanned siblings p) {done : Nat → Prop} {i : Nat}
    {st : List StackWord} (hst : Stacked fn p (fun s => done s.push ∧ ¬done s.pop) st)
    (hbefore : ∀ j, done j → j < i)
    (hpush : ∀ v < fn.nvregs, ∀ s, p.span v = some s → s.pop = i → done s.push)
    (hpop : ∀ v < fn.nvregs, ∀ s, p.span v = some s → done s.push → done s.pop ∨ i ≤ s.pop) :
    ∃ st', fn.Popped p i (fn.stackCachePops p i) st st' ∧
      Stacked fn p (fun s => done s.push ∧ ¬done s.pop ∧ s.pop ≠ i) st' := by
  by_cases hex : ∃ v < fn.nvregs, ∃ s, p.span v = some s ∧ s.pop = i
  · obtain ⟨v, hv, s, hs, hsi⟩ := hex
    obtain ⟨r, hr⟩ := h.storage hv hs
    have hds := hpush v hv s hs hsi
    have hnot : ¬done s.pop := fun hd => absurd (hbefore _ hd) (by omega)
    -- whatever is popped here has the span of `v`
    have hsame : ∀ w < fn.nvregs, ∀ t, p.span w = some t → t.pop = i →
        s = t ∧ stackCacheStoragePreg p w = some r := by
      intro w hw t ht hti
      obtain ⟨heq, hreg⟩ := h.same_of_pop hv hw hs ht (hsi.trans hti.symm)
      exact ⟨heq, hreg ▸ hr⟩
    have hregs : fn.stackCachePops p i = [r] :=
      stackCacheRegs_singleton hv hs hsi hr fun w hw t ht hti => (hsame w hw t ht hti).2
    have hmem : (s.push, r) ∈ st := (hst.mem _ _).mpr ⟨v, hv, s, hs, rfl, hr, hds, hnot⟩
    cases st with
    | nil => cases hmem
    | cons top st =>
      obtain ⟨htop, hdesc⟩ := List.pairwise_cons.mp hst.desc
      have htop_eq : top = (s.push, r) :=
        hst.top_eq h hv hs hmem (by rwa [hsi]) (by rwa [hsi])
      subst htop_eq
      refine ⟨st, ?_, hdesc, fun d q => ?_⟩
      · rw [hregs]
        refine .cons (fun w hw t ht hti _ => ?_) (.nil st)
        rw [(hsame w hw t ht hti).1]
      · constructor
        · intro hd
          obtain ⟨w, hw, t, ht, rfl, hq, hdt, hnt⟩ :=
            (hst.mem d q).mp (List.mem_cons_of_mem _ hd)
          refine ⟨w, hw, t, ht, rfl, hq, hdt, hnt, fun hti => ?_⟩
          have hlt : t.push < s.push := htop _ hd
          rw [(hsame w hw t ht hti).1] at hlt
          exact lt_irrefl _ hlt
        · rintro ⟨w, hw, t, ht, rfl, hq, hdt, hnt, hti⟩
          rcases List.mem_cons.mp ((hst.mem _ q).mpr ⟨w, hw, t, ht, rfl, hq, hdt, hnt⟩) with
            heq | hd
          · have hpush_eq : t.push = s.push := congrArg Prod.fst heq
            have h1 := (h.cached v hv s hs).2.2.1
            have h2 := (h.cached w hw t ht).2.2.1
            have := (h.same hv hw hs ht (by unfold Span.Nest; omega)).1
            subst this
            exact absurd hsi hti
          · exact hd
  · have hnone : ∀ v < fn.nvregs, ∀ s, p.span v = some s → s.pop ≠ i :=
      fun v hv s hs hi => hex ⟨v, hv, s, hs, hi⟩
    refine ⟨st, ?_, hst.desc, fun d r => (hst.mem d r).trans ?_⟩
    · rw [stackCachePops, stackCacheRegs_nil hnone]
      exact .nil st
    · constructor
      · rintro ⟨v, hv, s, hs, hd, hr, h1, h2⟩
        exact ⟨v, hv, s, hs, hd, hr, h1, h2, hnone v hv s hs⟩
      · rintro ⟨v, hv, s, hs, hd, hr, h1, h2, -⟩
        exact ⟨v, hv, s, hs, hd, hr, h1, h2⟩

/-- The push behind an instruction puts its word on top. -/
theorem Stacked.push (h : fn.SpansPlanned siblings p) {done : Nat → Prop} {i : Nat}
    {st : List StackWord}
    (hst : Stacked fn p (fun s => done s.push ∧ ¬done s.pop ∧ s.pop ≠ i) st)
    (hbefore : ∀ j, done j → j < i) :
    Stacked fn p (fun s => (done s.push ∨ s.push = i) ∧ ¬(done s.pop ∨ s.pop = i))
      (((fn.stackCachePushes p i).map fun r => (i, r)).reverse ++ st) := by
  have hold : ∀ d r, (d, r) ∈ st → d < i := by
    intro d r hd
    obtain ⟨v, -, s, -, rfl, -, hds, -⟩ := (hst.mem d r).mp hd
    exact hbefore _ hds
  by_cases hex : ∃ v < fn.nvregs, ∃ s, p.span v = some s ∧ s.push = i
  · obtain ⟨v, hv, s, hs, hsi⟩ := hex
    obtain ⟨r, hr⟩ := h.storage hv hs
    have hsame : ∀ w < fn.nvregs, ∀ t, p.span w = some t → t.push = i →
        stackCacheStoragePreg p w = some r := by
      intro w hw t ht hti
      exact (h.same_of_push hv hw hs ht (hsi.trans hti.symm)).2 ▸ hr
    have hregs : fn.stackCachePushes p i = [r] := stackCacheRegs_singleton hv hs hsi hr hsame
    rw [hregs]
    refine ⟨List.pairwise_cons.mpr ⟨fun x hx => hold x.1 x.2 hx, hst.desc⟩, fun d q => ?_⟩
    rw [List.map_singleton, List.reverse_singleton, List.singleton_append, List.mem_cons, hst.mem]
    constructor
    · rintro (heq | ⟨w, hw, t, ht, rfl, hq, hdt, hnt, hti⟩)
      · cases heq
        have hlt := (h.cached v hv s hs).2.2.1
        refine ⟨v, hv, s, hs, hsi, hr, .inr hsi, ?_⟩
        rintro (hd | hd)
        · exact absurd (hbefore _ hd) (by omega)
        · omega
      · exact ⟨w, hw, t, ht, rfl, hq, .inl hdt, fun h => h.elim hnt hti⟩
    · rintro ⟨w, hw, t, ht, rfl, hq, hdt | hdt, hnt⟩
      · exact .inr ⟨w, hw, t, ht, rfl, hq, hdt, fun h => hnt (.inl h), fun h => hnt (.inr h)⟩
      · refine .inl ?_
        rw [hsame w hw t ht hdt, Option.some.injEq] at hq
        rw [hdt, hq]
  · have hnone : ∀ v < fn.nvregs, ∀ s, p.span v = some s → s.push ≠ i :=
      fun v hv s hs hi => hex ⟨v, hv, s, hs, hi⟩
    rw [stackCachePushes, stackCacheRegs_nil hnone]
    refine ⟨hst.desc, fun d r => (hst.mem d r).trans ?_⟩
    constructor
    · rintro ⟨v, hv, s, hs, hd, hr, h1, h2, h3⟩
      exact ⟨v, hv, s, hs, hd, hr, .inl h1, fun h => h.elim h2 h3⟩
    · rintro ⟨v, hv, s, hs, hd, hr, h1, h2⟩
      exact ⟨v, hv, s, hs, hd, hr, h1.resolve_right (hnone v hv s hs), fun h => h2 (.inl h),
        fun h => h2 (.inr h)⟩

/-- Instruction by instruction; `before` are those that have been run. -/
theorem stackRun_from (h : fn.SpansPlanned siblings p) (hpath : fn.CompletePath path) :
    ∀ (rest before : List Nat) (st : List StackWord), before ++ rest = fn.executed path →
      (before ++ rest).Pairwise (· < ·) →
      Stacked fn p (fun s => s.push ∈ before ∧ s.pop ∉ before) st →
      ∃ st', fn.StackRun p rest st st' ∧
        Stacked fn p (fun s => s.push ∈ fn.executed path ∧ s.pop ∉ fn.executed path) st' := by
  intro rest
  induction rest with
  | nil =>
    intro before st heq _ hst
    rw [List.append_nil] at heq
    exact ⟨st, .nil st, heq ▸ hst⟩
  | cons i rest ih =>
    intro before st heq hsorted hst
    obtain ⟨-, hrest, hcross⟩ := List.pairwise_append.mp hsorted
    have hbefore : ∀ j ∈ before, j < i := fun j hj => hcross j hj i List.mem_cons_self
    have hafter : ∀ j ∈ rest, i < j := (List.pairwise_cons.mp hrest).1
    have hmem : ∀ j, j ∈ fn.executed path ↔ j ∈ before ∨ j = i ∨ j ∈ rest := fun j => by
      rw [← heq, List.mem_append, List.mem_cons]
    obtain ⟨st₁, hpopped, hst₁⟩ := Stacked.pop h hst hbefore
      (fun v hv s hs hsi => by
        obtain ⟨-, -, hlt, hlen, hok⟩ := h.cached v hv s hs
        rcases (hmem _).mp (push_executed hpath hlt hlen hok ((hmem _).mpr (.inr (.inl hsi)))) with
          hd | hd | hd
        · exact hd
        · omega
        · have := hafter _ hd
          omega)
      (fun v hv s hs hd => by
        obtain ⟨-, -, hlt, hlen, hok⟩ := h.cached v hv s hs
        rcases (hmem _).mp (pop_executed hpath hlt hlen hok ((hmem _).mpr (.inl hd))) with
          hu | hu | hu
        · exact .inl hu
        · exact .inr hu.ge
        · exact .inr (hafter _ hu).le)
    have hst₂ := Stacked.push h hst₁ hbefore
    obtain ⟨st', hrun, hst'⟩ := ih (before ++ [i]) _ (by rw [← heq]; simp) (by simpa using hsorted)
      ⟨hst₂.desc, fun d r => by simpa using hst₂.mem d r⟩
    exact ⟨st', .cons hpopped hrun, hst'⟩

theorem SpansPlanned.stackRun (h : fn.SpansPlanned siblings p) (hpath : fn.CompletePath path)
    (hforward : path.Pairwise (· < ·)) : fn.StackRun p (fn.executed path) [] [] := by
  obtain ⟨st, hrun, hst⟩ := stackRun_from h hpath (fn.executed path) [] [] rfl
    (executed_sorted hforward) ⟨.nil, by simp⟩
  -- what has been pushed has been popped
  have hnil : st = [] := List.eq_nil_iff_forall_not_mem.mpr fun x hx => by
    obtain ⟨v, hv, s, hs, -, -, hd, hu⟩ := (hst.mem x.1 x.2).mp hx
    obtain ⟨-, -, hlt, hlen, hok⟩ := h.cached v hv s hs
    exact hu (pop_executed hpath hlt hlen hok hd)
  rwa [hnil] at hrun

/-- Two vregs in slots, the live range of the one inside that of the other. -/
def nestedWords : Func where
  nvregs := 4
  insns :=
    [ { op := .mov, dst := some 0, imm := some 1 },
      { op := .mov, dst := some 1, imm := some 2 },
      { op := .mov, dst := some 2, src1 := some 1 },
      { op := .mov, dst := some 3, src1 := some 0 } ]

def nestedSlots : Assignment where
  spillSlot v := if v < 2 then some v else none
  nspillSlots := 2

def nestedPlan : SpillPlan :=
  nestedWords.planSpills (fun _ => {}) (fun _ => none) (fun _ _ => []) nestedSlots true

theorem Caches.slotsKept {C : Nat → Prop} {s : Span} {p q : SpillPlan}
    (hc : Caches fn siblings C s p q) (h : fn.SlotsKept vregs siblings p) :
    fn.SlotsKept vregs siblings q := by
  have hold : ∀ v t, q.spillSlot v = some t →
      p.spillSlot v = some t ∧ q.byteOffset v = p.byteOffset v := by
    intro v t ht
    by_cases hCv : C v
    · rw [(hc.caches v hCv).2.1] at ht
      cases ht
    · exact ⟨(hc.keeps v hCv).2.1 ▸ ht, (hc.keeps v hCv).2.2.2⟩
  refine ⟨fun v hv t ht => ?_, fun v hv hsome => ?_, fun v hv w hw hne t hvt hwt => ?_⟩
  · rw [hc.slots]
    exact h.bound v hv t (hold v t ht).1
  · obtain ⟨t, ht⟩ := Option.isSome_iff_exists.mp hsome
    rw [(hold v t ht).2]
    exact h.offset v hv (by rw [(hold v t ht).1]; rfl)
  · obtain ⟨hpv, hov⟩ := hold v t hvt
    obtain ⟨hpw, how⟩ := hold w t hwt
    exact (h.shared v hv w hw hne t hpv hpw).imp
      (fun hh => ⟨hh.pair, hh.lowByte, hh.highByte, hov ▸ hh.lowOffset, how ▸ hh.highOffset⟩)
      (fun hh => ⟨hh.pair, hh.lowByte, hh.highByte, how ▸ hh.lowOffset, hov ▸ hh.highOffset⟩)

theorem planSpills_slotsKept {clobbers : (Nat → Option Preg) → Insn → List Preg} {a : Assignment}
    {needsFrame : Bool} (h : OwnSlots fn a) :
    fn.SlotsKept vregs siblings (fn.planSpills vregs siblings clobbers a needsFrame) := by
  unfold planSpills planStackCacheSpills
  simp only
  have hkept : fn.SlotsKept vregs siblings (fn.planSpans vregs siblings clobbers fn.igraph
      (!needsFrame) needsFrame (fn.coalesceSiblingByteSpills vregs siblings
        { toAssignment := a })).1 :=
    planSpans_keeps (fun _ _ _ _ hc => hc.slotsKept) h.coalesced
  split
  · exact compactSpillSlots_slotsKept hkept
  · exact hkept

theorem planSpills_dense {clobbers : (Nat → Option Preg) → Insn → List Preg} {a : Assignment}
    {needsFrame : Bool} (h : OwnSlots fn a) :
    fn.Dense (fn.planSpills vregs siblings clobbers a needsFrame) := by
  unfold planSpills planStackCacheSpills
  simp only
  split
  · exact compactSpillSlots_dense fn _
  · next hst =>
    rw [planSpans] at hst ⊢
    have hst := Bool.not_eq_true _ ▸ hst
    have houter := tryStep_unchanged _ hst
    rw [houter] at hst ⊢
    rw [tryStep_unchanged _ hst]
    exact h.coalesced_dense

end Func

/-- **The frame of a function has every slot in use, and nothing in it overlaps.** -/
theorem planSpills_frame (fn : Func) (vregs : VregTable) (siblings : SiblingTable)
    (clobbers : (Nat → Option Preg) → Insn → List Preg) (bpAvailable needsFrame : Bool)
    (lines : List (Nat × Nat)) (needsCallTemp : Bool) :
    let plan := fn.planSpills vregs siblings clobbers (allocate fn vregs bpAvailable) needsFrame
    fn.Dense plan ∧
      Frame.LaidOut vregs { plan, area := localArea lines, needsCallTemp } fn.nvregs :=
  ⟨Func.planSpills_dense (Func.allocate_slots fn vregs bpAvailable),
    Frame.laidOut (Func.planSpills_slotsKept (Func.allocate_slots fn vregs bpAvailable))
      (localArea_apart lines)⟩

end Nib.Bind
