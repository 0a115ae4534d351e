import Nib.Bind.Properties.Liveness

/-!
# The interference graph is what the backward walk sees

* `Walk.step_live`, `Walk.adj_step` — what one instruction does to the live set and the edges
* `Func.adj_igraph` — two different vregs have an edge exactly if some block sees them together
-/

namespace Nib.Bind

open Nib.Infra

namespace Igraph

variable {n : Nat}

/-- There is an edge. -/
def Adj (g : Igraph n) (x y : Nat) : Prop := (g.row x).has y = true

theorem Adj.symm {g : Igraph n} {x y : Nat} (h : g.Adj x y) : g.Adj y x := by
  unfold Adj row at *
  rwa [g.symm y x]

theorem not_adj_empty (x y : Nat) : ¬(Igraph.empty n).Adj x y := by
  simp only [Adj, row, empty, List.getD_eq_getElem?_getD, List.getElem?_replicate]
  split <;> simp

/-- Proper pairs of vregs in range. -/
def Pair (n x y : Nat) : Prop := x ≠ y ∧ x < n ∧ y < n

theorem adj_addInterference (g : Igraph n) (a b x y : Nat) :
    (g.addInterference a b).Adj x y ↔
      g.Adj x y ∨ (Pair n x y ∧ (x = a ∧ y = b ∨ x = b ∧ y = a)) := by
  unfold addInterference
  split
  · next h =>
    refine ⟨Or.inl, fun hg => hg.resolve_right ?_⟩
    rintro ⟨⟨hxy, hx, hy⟩, ⟨rfl, rfl⟩ | ⟨rfl, rfl⟩⟩ <;> omega
  · next h =>
    split
    · next hab =>
      refine ⟨Or.inl, ?_⟩
      rintro (hg | ⟨-, ⟨rfl, rfl⟩ | ⟨rfl, rfl⟩⟩)
      · exact hg
      · exact hab
      · exact Adj.symm hab
    · have hla : a < g.rows.length := by rw [g.rows_length]; omega
      have hlb : b < g.rows.length := by rw [g.rows_length]; omega
      simp only [Adj, row, setEdge_has hla hlb, Bool.or_eq_true, Bool.and_eq_true,
        decide_eq_true_eq, or_assoc]
      refine or_congr_right ⟨fun hxy => ⟨?_, hxy⟩, fun hxy => hxy.2⟩
      rcases hxy with ⟨rfl, rfl⟩ | ⟨rfl, rfl⟩ <;> exact ⟨by omega, by omega, by omega⟩

/-- Edges added by a fold are those each step adds. -/
theorem adj_foldl {ι : Type} {f : Igraph n → ι → Igraph n} {E : ι → Prop} {x y : Nat} :
    ∀ (l : List ι) (_ : ∀ i ∈ l, ∀ g, (f g i).Adj x y ↔ g.Adj x y ∨ E i) (g : Igraph n),
      (l.foldl f g).Adj x y ↔ g.Adj x y ∨ ∃ i ∈ l, E i
  | [], _, g => by simp
  | i :: l, hf, g => by
    rw [List.foldl_cons, adj_foldl l fun j hj => hf j (List.mem_cons_of_mem i hj),
      hf i List.mem_cons_self]
    simp only [List.mem_cons, exists_eq_or_imp, or_assoc]

theorem adj_foldl_addInterference (g : Igraph n) (a x y : Nat) (bs : List Nat) :
    (bs.foldl (fun g b => g.addInterference a b) g).Adj x y ↔
      g.Adj x y ∨ ∃ b ∈ bs, Pair n x y ∧ (x = a ∧ y = b ∨ x = b ∧ y = a) :=
  adj_foldl bs (fun b _ g => adj_addInterference g a b x y) g

theorem adj_addInterferences (g : Igraph n) (live : BitSet) (d x y : Nat) :
    (g.addInterferences live d).Adj x y ↔ g.Adj x y ∨
      (Pair n x y ∧ (x = d ∧ live.has y = true ∨ y = d ∧ live.has x = true)) := by
  rw [addInterferences, adj_foldl_addInterference]
  refine or_congr_right ⟨?_, ?_⟩
  · rintro ⟨v, hv, hp, ⟨rfl, rfl⟩ | ⟨rfl, rfl⟩⟩
    · exact ⟨hp, Or.inl ⟨rfl, (BitSet.mem_toList.mp hv).2⟩⟩
    · exact ⟨hp, Or.inr ⟨rfl, (BitSet.mem_toList.mp hv).2⟩⟩
  · rintro ⟨hp, ⟨rfl, hy⟩ | ⟨rfl, hx⟩⟩
    · exact ⟨y, BitSet.mem_toList.mpr ⟨hp.2.2, hy⟩, hp, Or.inl ⟨rfl, rfl⟩⟩
    · exact ⟨x, BitSet.mem_toList.mpr ⟨hp.2.1, hx⟩, hp, Or.inr ⟨rfl, rfl⟩⟩

theorem adj_addClique (g : Igraph n) (live : BitSet) (x y : Nat) :
    (g.addClique live).Adj x y ↔ g.Adj x y ∨
      (Pair n x y ∧ live.has x = true ∧ live.has y = true) := by
  rw [addClique, adj_foldl _ fun b1 _ g => adj_foldl_addInterference g b1 x y
    ((live.toList n).filter (b1 < ·))]
  refine or_congr_right ⟨?_, ?_⟩
  · rintro ⟨a, ha, b, hb, hp, h⟩
    have ha' := (BitSet.mem_toList.mp ha).2
    have hb' := (BitSet.mem_toList.mp (List.mem_of_mem_filter hb)).2
    rcases h with ⟨rfl, rfl⟩ | ⟨rfl, rfl⟩
    · exact ⟨hp, ha', hb'⟩
    · exact ⟨hp, hb', ha'⟩
  · rintro ⟨hp, hx, hy⟩
    have hmx := BitSet.mem_toList.mpr ⟨hp.2.1, hx⟩
    have hmy := BitSet.mem_toList.mpr ⟨hp.2.2, hy⟩
    rcases Nat.lt_or_gt_of_ne hp.1 with hlt | hlt
    · exact ⟨x, hmx, y, List.mem_filter.mpr ⟨hmy, decide_eq_true hlt⟩, hp, Or.inl ⟨rfl, rfl⟩⟩
    · exact ⟨y, hmy, x, List.mem_filter.mpr ⟨hmx, decide_eq_true hlt⟩, hp, Or.inr ⟨rfl, rfl⟩⟩

end Igraph

open Igraph

/-! ## One instruction -/

theorem definedFirst_filter {n v w : Nat} (hv : v < n) (hw : w < n) : ∀ ds : List Nat,
    DefinedFirst v w (ds.filter (· < n)) ↔ DefinedFirst v w ds
  | [] => Iff.rfl
  | d :: ds => by
    have ih := definedFirst_filter hv hw ds
    by_cases hd : d < n
    · rw [List.filter_cons_of_pos (by simpa using hd), DefinedFirst, DefinedFirst, ih]
    · have hdv : d ≠ v := by omega
      have hdw : d ≠ w := by omega
      rw [List.filter_cons_of_neg (by simpa using hd), DefinedFirst, ih]
      simp [hdv, hdw]

namespace Walk

variable {n : Nat}

theorem live_foldl_define (w : Nat) : ∀ (ds : List Nat) (s : Walk n),
    (ds.foldl define s).live.has w = (s.live.has w && !decide (w ∈ ds))
  | [], s => by simp
  | d :: ds, s => by
    rw [List.foldl_cons, live_foldl_define w ds]
    by_cases h : d = w
    · simp [define, h]
    · simp [define, h, Ne.symm h]

/-- Edges from definitions made one after another: each meets what is live and not yet
killed. -/
theorem adj_foldl_define (x y : Nat) : ∀ (ds : List Nat) (s : Walk n),
    (ds.foldl define s).graph.Adj x y ↔ s.graph.Adj x y ∨
      (Pair n x y ∧ (DefinedFirst x y ds ∧ s.live.has y = true ∨
        DefinedFirst y x ds ∧ s.live.has x = true))
  | [], s => by simp [DefinedFirst]
  | d :: ds, s => by
    rw [List.foldl_cons, adj_foldl_define x y ds]
    simp only [define, adj_addInterferences, BitSet.has_erase, DefinedFirst, Bool.and_eq_true,
      Bool.not_eq_true', decide_eq_false_iff_not]
    have hpair : Pair n x y → ¬(x = d ∧ y = d) := fun hp h => hp.1 (h.1.trans h.2.symm)
    have hx : (d = x) = (x = d) := propext eq_comm
    have hy : (d = y) = (y = d) := propext eq_comm
    rw [hx, hy]
    tauto

theorem addUses_live (s : Walk n) (vs : List Nat) {w : Nat} (hw : w < n) :
    (s.addUses vs).live.has w = true ↔ s.live.has w = true ∨ w ∈ vs := by
  simp [addUses, BitSet.has_foldl_insert, hw]

theorem addUses_graph (s : Walk n) (vs : List Nat) : (s.addUses vs).graph = s.graph := rfl

/-- What the walk carries across one instruction. -/
theorem step_live (s : Walk n) (ins : Insn) {w : Nat} (hw : w < n) :
    (s.step ins).live.has w = true ↔
      ins.KeepsLive w ∨ (w ∉ ins.defs ∧ s.live.has w = true) := by
  have hmem : w ∈ ins.defs.filter (· < n) ↔ w ∈ ins.defs := by simp [hw]
  cases hc : ins.isCopy with
  | true =>
    simp only [step, hc, if_true, addUses_live _ _ hw, live_foldl_define, Insn.KeepsLive,
      Bool.and_eq_true, Bool.not_eq_true', decide_eq_false_iff_not, hmem, Option.mem_toList]
    tauto
  | false =>
    simp only [step, hc, Bool.false_eq_true, if_false, live_foldl_define, Insn.KeepsLive,
      Bool.and_eq_true, Bool.not_eq_true', decide_eq_false_iff_not, hmem, addUses_live _ _ hw]
    tauto

/-- The edges of one instruction. -/
theorem adj_step (s : Walk n) (ins : Insn) (x y : Nat) :
    (s.step ins).graph.Adj x y ↔ s.graph.Adj x y ∨
      (Pair n x y ∧ (ins.DefMeets (s.live.has y = true) x y ∨
        ins.DefMeets (s.live.has x = true) y x)) := by
  have hfilter : Pair n x y →
      (DefinedFirst x y (ins.defs.filter (· < n)) ↔ DefinedFirst x y ins.defs) ∧
      (DefinedFirst y x (ins.defs.filter (· < n)) ↔ DefinedFirst y x ins.defs) :=
    fun hp => ⟨definedFirst_filter hp.2.1 hp.2.2 _, definedFirst_filter hp.2.2 hp.2.1 _⟩
  cases hc : ins.isCopy with
  | true =>
    simp only [step, hc, if_true, addUses_graph, adj_foldl_define, Insn.DefMeets,
      Bool.true_eq_false, false_and, or_false]
    refine or_congr_right (and_congr_right fun hp => ?_)
    rw [(hfilter hp).1, (hfilter hp).2]
  | false =>
    simp only [step, hc, Bool.false_eq_true, if_false, addUses_graph, adj_foldl_define,
      Insn.DefMeets, true_and]
    refine or_congr_right (and_congr_right fun hp => ?_)
    rw [(hfilter hp).1, (hfilter hp).2, addUses_live _ _ hp.2.2, addUses_live _ _ hp.2.1]

/-- The live set of the walk over the rest of a block. -/
theorem foldr_live {w : Nat} (hw : w < n) (s : Walk n) : ∀ l : List Insn,
    (l.foldr (fun ins s => s.step ins) s).live.has w = true ↔
      Kept (s.live.has w = true) w l
  | [] => Iff.rfl
  | ins :: l => by rw [List.foldr_cons, step_live _ _ hw, foldr_live hw s l, Kept]

/-- The edges of the walk over the rest of a block, one instruction at a time. -/
theorem adj_foldr (s : Walk n) (x y : Nat) : ∀ l : List Insn,
    (l.foldr (fun ins s => s.step ins) s).graph.Adj x y ↔ s.graph.Adj x y ∨
      (Pair n x y ∧ ∃ pre ins post, l = pre ++ ins :: post ∧
        (ins.DefMeets (Kept (s.live.has y = true) y post) x y ∨
          ins.DefMeets (Kept (s.live.has x = true) x post) y x))
  | [] => by simp
  | i :: l => by
    rw [List.foldr_cons, adj_step, adj_foldr s x y l, or_assoc]
    refine or_congr_right ?_
    rw [← and_or_left]
    refine and_congr_right fun hp => ?_
    rw [propext (foldr_live hp.2.1 s l), propext (foldr_live hp.2.2 s l)]
    constructor
    · rintro (⟨pre, ins, post, rfl, h⟩ | h)
      · exact ⟨i :: pre, ins, post, rfl, h⟩
      · exact ⟨[], i, l, rfl, h⟩
    · rintro ⟨pre, ins, post, heq, h⟩
      cases pre with
      | nil =>
        cases heq
        exact Or.inr h
      | cons _ pre =>
        cases heq
        exact Or.inl ⟨pre, ins, post, rfl, h⟩

end Walk

namespace Func

variable {fn : Func}

theorem adj_igraphBlock {bb : Block} {liveOut : BitSet}
    (hout : ∀ v < fn.nvregs, liveOut.has v = true ↔ fn.LiveOut bb v)
    (g : Igraph fn.nvregs) (x y : Nat) :
    (fn.igraphBlock liveOut bb g).Adj x y ↔
      g.Adj x y ∨ (Pair fn.nvregs x y ∧ fn.SeenIn bb x y) := by
  rw [igraphBlock, adj_addClique, Walk.adj_foldr, or_assoc, ← and_or_left]
  refine or_congr_right (and_congr_right fun hp => ?_)
  rw [Walk.foldr_live hp.2.1, Walk.foldr_live hp.2.2, propext (hout x hp.2.1),
    propext (hout y hp.2.2)]
  rfl

/-- **Two vregs have an edge exactly if the walk over some block sees them together.** -/
theorem adj_igraph (fn : Func) (x y : Nat) :
    fn.igraph.Adj x y ↔ Pair fn.nvregs x y ∧ fn.SeenTogether x y := by
  have hsized : (fn.computeCfgLiveness fn.buildCfg).Sized fn.buildCfg.length :=
    computeCfgLiveness_sized
  have hout : ∀ p ∈ fn.buildCfg.zip (fn.computeCfgLiveness fn.buildCfg).liveOut,
      ∀ v < fn.nvregs, p.2.has v = true ↔ fn.LiveOut p.1 v := by
    intro p hmem v hv
    obtain ⟨b, hb⟩ := List.mem_iff_getElem?.mp hmem
    obtain ⟨hbb, ho⟩ := List.getElem?_zip_eq_some.mp hb
    rw [← computeCfgLiveness_liveOut hv hbb, LiveSets.outBits, List.getD_eq_getElem?_getD, ho,
      Option.getD_some]
  rw [igraph, buildIgraph, adj_foldl _ fun p hmem g => adj_igraphBlock (hout p hmem) g x y]
  -- every block has its own set of what is live at its end, so the fold leaves no block out
  have hzip : ∀ bb ∈ fn.buildCfg,
      ∃ out, (bb, out) ∈ fn.buildCfg.zip (fn.computeCfgLiveness fn.buildCfg).liveOut := by
    intro bb hbb
    obtain ⟨b, hb⟩ := List.mem_iff_getElem?.mp hbb
    have hlt : b < (fn.computeCfgLiveness fn.buildCfg).liveOut.length := by
      rw [hsized.2]
      exact (List.getElem?_eq_some_iff.mp hb).1
    exact ⟨_, List.mem_iff_getElem?.mpr
      ⟨b, List.getElem?_zip_eq_some.mpr ⟨hb, List.getElem?_eq_getElem hlt⟩⟩⟩
  constructor
  · rintro (h | ⟨p, hmem, hp, hseen⟩)
    · exact absurd h (not_adj_empty x y)
    · exact ⟨hp, p.1, (List.of_mem_zip hmem).1, hseen⟩
  · rintro ⟨hp, bb, hbb, hseen⟩
    obtain ⟨out, hmem⟩ := hzip bb hbb
    exact Or.inr ⟨_, hmem, hp, hseen⟩

end Func

end Nib.Bind
