import Nib.Infra.Dataflow
import Nib.Bind.Spec.Live
import Nib.Bind.Properties.Cfg

/-!
# The liveness pass computes liveness by paths

One vreg at a time: the live-in bits of all blocks are the claims of a `Dataflow.Problem`, and
a pass of `liveSweep` is a sweep of its solver.

* `holds_iff_liveBefore` — the least solution of the problem is liveness at the block start
* `computeCfgLiveness_liveOut` — the computed live-out sets are exactly `LiveOut`; the bound on
  the number of passes is never the reason for stopping too early
* `computeCfgLiveness_exact` — the live-in sets as well, and the result is a fixpoint
-/

namespace Nib.Bind

open Nib.Infra Nib.Infra.Dataflow

/-! ## The local sets -/

/-- `w` is live before the rest of a block, which it leaves live if `out` holds. -/
def LiveIn (out : Prop) (w : Nat) : List Insn → Prop
  | [] => out
  | ins :: rest => w ∈ ins.uses ∨ (w ∉ ins.defs ∧ LiveIn out w rest)

theorem liveIn_mono {out out' : Prop} (h : out → out') {w : Nat} :
    ∀ {l : List Insn}, LiveIn out w l → LiveIn out' w l
  | [], hl => h hl
  | _ :: _, hl => hl.imp id fun ⟨hd, hr⟩ => ⟨hd, liveIn_mono h hr⟩

/-- Live into a block: used before any definition, or live out and not defined. -/
theorem liveIn_iff {out : Prop} {w : Nat} : ∀ {l : List Insn},
    LiveIn out w l ↔ LiveIn False w l ∨ ((∀ ins ∈ l, w ∉ ins.defs) ∧ out)
  | [] => by simp [LiveIn]
  | ins :: rest => by
    have ih : LiveIn out w rest ↔ _ := liveIn_iff
    simp only [LiveIn, ih, List.mem_cons, forall_eq_or_imp]
    tauto

section DefUse

variable {n v : Nat}

theorem DefUse.addInsn_defs (hv : v < n) (s : DefUse) (ins : Insn) :
    (s.addInsn n ins).defs.has v = true ↔ s.defs.has v = true ∨ v ∈ ins.defs := by
  simp [addInsn, BitSet.has_foldl_insert, hv]

theorem DefUse.addInsn_uses (hv : v < n) (s : DefUse) (ins : Insn) :
    (s.addInsn n ins).uses.has v = true ↔
      s.uses.has v = true ∨ (v ∈ ins.uses ∧ s.defs.has v = false) := by
  simp [addInsn, BitSet.has_foldl_insert, hv]

theorem DefUse.foldl_defs (hv : v < n) : ∀ (l : List Insn) (s : DefUse),
    (l.foldl (DefUse.addInsn n) s).defs.has v = true ↔
      s.defs.has v = true ∨ ∃ ins ∈ l, v ∈ ins.defs
  | [], s => by simp
  | ins :: l, s => by
    rw [List.foldl_cons, DefUse.foldl_defs hv l, DefUse.addInsn_defs hv]
    simp only [List.mem_cons, exists_eq_or_imp, or_assoc]

theorem DefUse.foldl_uses (hv : v < n) : ∀ (l : List Insn) (s : DefUse),
    (l.foldl (DefUse.addInsn n) s).uses.has v = true ↔
      s.uses.has v = true ∨ (s.defs.has v = false ∧ LiveIn False v l)
  | [], s => by simp [LiveIn]
  | ins :: l, s => by
    have hd : (s.addInsn n ins).defs.has v = false ↔ s.defs.has v = false ∧ v ∉ ins.defs := by
      rw [← Bool.not_eq_true, DefUse.addInsn_defs hv, not_or, Bool.not_eq_true]
    rw [List.foldl_cons, DefUse.foldl_uses hv l, DefUse.addInsn_uses hv, hd, LiveIn]
    tauto

end DefUse

namespace Func

variable {fn : Func} {v : Nat}

theorem blockDefUse_defs (hv : v < fn.nvregs) (bb : Block) :
    (fn.blockDefUse bb).defs.has v = true ↔ ∃ ins ∈ fn.blockInsns bb, v ∈ ins.defs := by
  rw [blockDefUse, DefUse.foldl_defs hv]
  simp

theorem blockDefUse_uses (hv : v < fn.nvregs) (bb : Block) :
    (fn.blockDefUse bb).uses.has v = true ↔ LiveIn False v (fn.blockInsns bb) := by
  rw [blockDefUse, DefUse.foldl_uses hv]
  simp

/-! ## The dataflow problem of one vreg -/

/-- Block `b` generates the fact if `v` is used in it before any definition, or if `v` is a
parameter and `b` the entry. -/
def liveProblem (fn : Func) (v : Nat) : Problem where
  gen b := ((fn.buildCfg[b]?).any fun bb => (fn.blockDefUse bb).uses.has v) ||
    (b == 0 && decide (v ∈ fn.paramVregs))
  kill b := (fn.buildCfg[b]?).any fun bb => (fn.blockDefUse bb).defs.has v
  succs b := ((fn.buildCfg[b]?).map Block.succs).getD []

theorem liveProblem_succs_lt : ∀ b, ∀ t ∈ (fn.liveProblem v).succs b, t < fn.buildCfg.length := by
  intro b t ht
  simp only [liveProblem] at ht
  cases hb : fn.buildCfg[b]? with
  | none =>
    rw [hb] at ht
    exact absurd ht List.not_mem_nil
  | some bb =>
    rw [hb] at ht
    exact succs_lt hb ht

/-- One unfolding of the least solution, in terms of the instructions of the block. -/
theorem holds_iff (hv : v < fn.nvregs) {b : Nat} {bb : Block} (hb : fn.buildCfg[b]? = some bb) :
    (fn.liveProblem v).Holds b ↔
      LiveIn (∃ t ∈ bb.succs, (fn.liveProblem v).Holds t) v (fn.blockInsns bb) ∨
        (b = 0 ∧ v ∈ fn.paramVregs) := by
  have hgen : (fn.liveProblem v).gen b = true ↔
      LiveIn False v (fn.blockInsns bb) ∨ (b = 0 ∧ v ∈ fn.paramVregs) := by
    simp [liveProblem, hb, blockDefUse_uses hv]
  have hkill : (fn.liveProblem v).kill b = false ↔
      ∀ ins ∈ fn.blockInsns bb, v ∉ ins.defs := by
    rw [← Bool.not_eq_true]
    simp [liveProblem, hb, blockDefUse_defs hv]
  have hsucc : (fn.liveProblem v).succs b = bb.succs := by simp [liveProblem, hb]
  rw [liveIn_iff]
  constructor
  · rintro (hg | ⟨hk, ht, hh⟩)
    · exact (hgen.mp hg).imp Or.inl id
    · exact Or.inl (Or.inr ⟨hkill.mp hk, _, hsucc ▸ ht, hh⟩)
  · rintro ((hg | ⟨hk, t, ht, hh⟩) | hp)
    · exact .gen (hgen.mpr (Or.inl hg))
    · exact .step (hkill.mpr hk) (hsucc.symm ▸ ht) hh
    · exact .gen (hgen.mpr (Or.inr hp))

/-! ## Inside a block -/

/-- The instructions of a block from `i` on. -/
def insnsFrom (fn : Func) (bb : Block) (i : Nat) : List Insn := (fn.insns.take bb.stop).drop i

theorem insnsFrom_cons {b i : Nat} {bb : Block} (hb : fn.buildCfg[b]? = some bb)
    (hi : i < bb.stop) : ∃ ins, fn.insns[i]? = some ins ∧
      fn.insnsFrom bb i = ins :: fn.insnsFrom bb (i + 1) := by
  have hlen : i < fn.insns.length := Nat.lt_of_lt_of_le hi (stop_le_length hb)
  have htake : i < (fn.insns.take bb.stop).length := by
    rw [List.length_take]
    omega
  refine ⟨fn.insns[i], List.getElem?_eq_getElem hlen, ?_⟩
  rw [insnsFrom, List.drop_eq_getElem_cons htake, List.getElem_take]
  rfl

theorem insnsFrom_stop (bb : Block) : fn.insnsFrom bb bb.stop = [] := by
  rw [insnsFrom, List.drop_eq_nil_iff, List.length_take]
  omega

theorem next_inside {b i : Nat} {bb : Block} (hb : fn.buildCfg[b]? = some bb)
    (h1 : bb.start ≤ i) (h2 : i + 1 < bb.stop) : fn.Next i (i + 1) :=
  ⟨bb, List.mem_of_getElem? hb, h1, by omega, Or.inl ⟨h2, rfl⟩⟩

theorem next_exit {b i : Nat} {bb : Block} (hb : fn.buildCfg[b]? = some bb)
    (h1 : bb.start ≤ i) (h2 : i + 1 = bb.stop) {t : Nat} (ht : t ∈ bb.succs) {bt : Block}
    (hbt : fn.buildCfg[t]? = some bt) : fn.Next i bt.start :=
  ⟨bb, List.mem_of_getElem? hb, h1, by omega, Or.inr ⟨h2, t, ht, bt, hbt, rfl⟩⟩

/-- Seen from a given block, control stays inside it or leaves to the start of a successor. -/
theorem next_cases {b i j : Nat} {bb : Block} (hb : fn.buildCfg[b]? = some bb)
    (h1 : bb.start ≤ i) (h2 : i < bb.stop) (h : fn.Next i j) :
    (i + 1 < bb.stop ∧ j = i + 1) ∨
      (i + 1 = bb.stop ∧ ∃ t ∈ bb.succs, ∃ bt, fn.buildCfg[t]? = some bt ∧ j = bt.start) := by
  obtain ⟨bb', hmem, h1', h2', hcases⟩ := h
  obtain ⟨c, hc⟩ := List.mem_iff_getElem?.mp hmem
  have hbc : b = c := block_unique hb hc h1 h2 h1' h2'
  subst hbc
  rw [hb] at hc
  cases hc
  exact hcases

/-- Liveness in the block is liveness by paths, backward from the block end. -/
theorem liveBefore_of_liveIn {b : Nat} {bb : Block} (hb : fn.buildCfg[b]? = some bb)
    {entry : List Nat} {out : Prop} (hout : out → ∃ t ∈ bb.succs, ∃ bt,
      fn.buildCfg[t]? = some bt ∧ fn.LiveBefore entry v bt.start) :
    ∀ (k i : Nat), i + k + 1 = bb.stop → bb.start ≤ i → LiveIn out v (fn.insnsFrom bb i) →
      fn.LiveBefore entry v i
  | k, i, hik, hi, h => by
    obtain ⟨ins, hins, hcons⟩ := insnsFrom_cons hb (show i < bb.stop by omega)
    rw [hcons] at h
    rcases h with h | ⟨hd, h⟩
    · exact .read ⟨ins, hins, h⟩
    · have hnw : ¬fn.Writes i v := by
        rintro ⟨ins', hins', hv'⟩
        rw [hins] at hins'
        cases hins'
        exact hd hv'
      match k with
      | 0 =>
        have hstop : i + 1 = bb.stop := by omega
        rw [hstop, insnsFrom_stop] at h
        obtain ⟨t, ht, bt, hbt, hl⟩ := hout h
        exact .step hnw (next_exit hb hi hstop ht hbt) hl
      | k + 1 =>
        exact .step hnw (next_inside hb hi (by omega))
          (liveBefore_of_liveIn hb hout k (i + 1) (by omega) (by omega) h)

theorem liveBefore_start_of_liveIn {b : Nat} {bb : Block} (hb : fn.buildCfg[b]? = some bb)
    {entry : List Nat} {out : Prop} (hout : out → ∃ t ∈ bb.succs, ∃ bt,
      fn.buildCfg[t]? = some bt ∧ fn.LiveBefore entry v bt.start)
    (h : LiveIn out v (fn.blockInsns bb)) : fn.LiveBefore entry v bb.start := by
  have hlt := start_lt_stop hb
  exact liveBefore_of_liveIn hb hout (bb.stop - bb.start - 1) bb.start (by omega)
    (Nat.le_refl _) h

/-- Liveness by paths, cut at the block end. The other case is the entry itself. -/
theorem liveIn_of_liveBefore {entry : List Nat} {i : Nat} (h : fn.LiveBefore entry v i)
    {out : Nat → Prop} (hout : ∀ t bt, fn.buildCfg[t]? = some bt →
      LiveIn (∃ s ∈ bt.succs, out s) v (fn.blockInsns bt) ∨ (t = 0 ∧ v ∈ entry) → out t) :
    ∀ {b : Nat} {bb : Block}, fn.buildCfg[b]? = some bb → bb.start ≤ i → i < bb.stop →
      LiveIn (∃ t ∈ bb.succs, out t) v (fn.insnsFrom bb i) ∨ (i = 0 ∧ v ∈ entry) := by
  induction h with
  | @read i hr =>
    intro b bb hb _ h2
    obtain ⟨ins, hins, hcons⟩ := insnsFrom_cons hb h2
    obtain ⟨ins', hins', hu⟩ := hr
    rw [hins] at hins'
    cases hins'
    rw [hcons]
    exact Or.inl (Or.inl hu)
  | entry he =>
    intro b bb _ _ _
    exact Or.inr ⟨rfl, he⟩
  | @step i j hw hn _ ih =>
    intro b bb hb h1 h2
    obtain ⟨ins, hins, hcons⟩ := insnsFrom_cons hb h2
    have hd : v ∉ ins.defs := fun hd => hw ⟨ins, hins, hd⟩
    rw [hcons]
    refine Or.inl (Or.inr ⟨hd, ?_⟩)
    rcases next_cases hb h1 h2 hn with ⟨hlt, rfl⟩ | ⟨hstop, t, ht, bt, hbt, rfl⟩
    · rcases ih hb (by omega) hlt with h | ⟨h, _⟩
      · exact h
      · omega
    · rw [hstop, insnsFrom_stop]
      refine ⟨t, ht, hout t bt hbt ?_⟩
      exact (ih hbt (Nat.le_refl _) (start_lt_stop hbt)).imp id fun ⟨h0, he⟩ =>
        ⟨(start_eq_zero_iff hbt).mp h0, he⟩

/-- **The least solution of the dataflow problem is liveness at the block start.** -/
theorem holds_iff_liveBefore (hv : v < fn.nvregs) {b : Nat} {bb : Block}
    (hb : fn.buildCfg[b]? = some bb) :
    (fn.liveProblem v).Holds b ↔ fn.LiveBefore fn.paramVregs v bb.start := by
  constructor
  · intro h
    induction h generalizing bb with
    | @gen b hg =>
      simp only [liveProblem, hb, Option.any_some, Bool.or_eq_true, Bool.and_eq_true,
        beq_iff_eq, decide_eq_true_eq] at hg
      rcases hg with hg | ⟨h0, hp⟩
      · exact liveBefore_start_of_liveIn hb False.elim ((blockDefUse_uses hv bb).mp hg)
      · rw [(start_eq_zero_iff hb).mpr h0]
        exact .entry hp
    | @step b t hk ht hh ih =>
      have hlt : t < fn.buildCfg.length := liveProblem_succs_lt b t ht
      have hbt := List.getElem?_eq_getElem hlt
      have hts : t ∈ bb.succs := by simpa [liveProblem, hb] using ht
      have hno : ∀ ins ∈ fn.blockInsns bb, v ∉ ins.defs := by
        rw [← Bool.not_eq_true] at hk
        simpa [liveProblem, hb, blockDefUse_defs hv] using hk
      have hin : LiveIn True v (fn.blockInsns bb) := liveIn_iff.mpr (Or.inr ⟨hno, trivial⟩)
      exact liveBefore_start_of_liveIn hb (fun _ => ⟨t, hts, _, hbt, ih hbt⟩) hin
  · intro h
    refine (holds_iff hv hb).mpr ?_
    have hcut := liveIn_of_liveBefore h (fun t bt hbt => (holds_iff hv hbt).mpr) hb
      (Nat.le_refl _) (start_lt_stop hb)
    exact hcut.imp id fun ⟨h0, he⟩ => ⟨(start_eq_zero_iff hb).mp h0, he⟩

/-- The path form of `LiveOut`, in terms of the least solution. -/
theorem liveOut_iff_holds (hv : v < fn.nvregs) {b : Nat} {bb : Block}
    (hb : fn.buildCfg[b]? = some bb) :
    fn.LiveOut bb v ↔ ∃ t ∈ bb.succs, (fn.liveProblem v).Holds t := by
  constructor
  · rintro ⟨t, ht, bt, hbt, hl⟩
    exact ⟨t, ht, (holds_iff_liveBefore hv hbt).mpr hl⟩
  · rintro ⟨t, ht, hh⟩
    have hbt := List.getElem?_eq_getElem (succs_lt hb ht)
    exact ⟨t, ht, _, hbt, (holds_iff_liveBefore hv hbt).mp hh⟩

/-! ## The sets, bit by bit -/

end Func

/-- The live-in bits of one vreg. -/
def LiveSets.inBits (s : LiveSets) (v : Nat) : Nat → Bool :=
  fun b => (s.liveIn.getD b .empty).has v

def LiveSets.outBits (s : LiveSets) (v : Nat) : Nat → Bool :=
  fun b => (s.liveOut.getD b .empty).has v

/-- One entry in each list for each of `n` blocks. -/
def LiveSets.Sized (s : LiveSets) (n : Nat) : Prop :=
  s.liveIn.length = n ∧ s.liveOut.length = n

theorem getD_set {l : List BitSet} {i j : Nat} {x : BitSet} (hi : i < l.length) :
    (l.set i x).getD j .empty = if i = j then x else l.getD j .empty := by
  rw [List.getD_eq_getElem?_getD, List.getElem?_set, List.getD_eq_getElem?_getD]
  by_cases h : i = j
  · subst h
    simp [hi]
  · simp [h]

theorem Block.unionSuccs_has (bb : Block) (liveIn : List BitSet) (v : Nat) :
    (bb.unionSuccs liveIn).has v = bb.succs.any fun t => (liveIn.getD t .empty).has v := by
  rw [unionSuccs, BitSet.has_foldl_union, BitSet.has_empty, Bool.false_or]

namespace Func

variable {fn : Func} {v : Nat}

theorem mem_inRange {vs : List Nat} : v ∈ fn.inRange vs ↔ v ∈ vs ∧ v < fn.nvregs := by
  simp [inRange]

/-- The live-in set of a block is the transfer function of the problem. -/
theorem blockLiveIn_has (hv : v < fn.nvregs) {b : Nat} {bb : Block}
    (hb : fn.buildCfg[b]? = some bb) (liveIn : List BitSet) :
    (fn.blockLiveIn b bb (bb.unionSuccs liveIn)).has v =
      (fn.liveProblem v).transfer (fun t => (liveIn.getD t .empty).has v) b := by
  have hentry : decide (v ∈ fn.inRange fn.paramVregs) = decide (v ∈ fn.paramVregs) := by
    simp [mem_inRange, hv]
  by_cases h0 : b = 0
  · subst h0
    simp only [blockLiveIn, Problem.transfer, liveProblem, hb, if_true, BitSet.has_foldl_insert,
      BitSet.has_union, BitSet.has_diff, Block.unionSuccs_has, hentry, Option.any_some,
      Option.map_some, Option.getD_some, beq_self_eq_true, Bool.true_and]
    grind
  · simp only [blockLiveIn, Problem.transfer, liveProblem, hb, if_neg h0, BitSet.has_union,
      BitSet.has_diff, Block.unionSuccs_has, Option.any_some, Option.map_some, Option.getD_some,
      beq_eq_false_iff_ne.mpr h0, Bool.false_and, Bool.or_false]
    grind

theorem liveStep_eq {b : Nat} {bb : Block} (hb : fn.buildCfg[b]? = some bb) (s : LiveSets) :
    fn.liveStep fn.buildCfg s b =
      { liveIn := s.liveIn.set b (fn.blockLiveIn b bb (bb.unionSuccs s.liveIn))
        liveOut := s.liveOut.set b (bb.unionSuccs s.liveIn) } := by
  rw [liveStep, hb]

theorem liveStep_sized {n b : Nat} {s : LiveSets} (hs : s.Sized n) :
    (fn.liveStep fn.buildCfg s b).Sized n := by
  unfold liveStep
  split
  · exact hs
  · exact ⟨by rw [List.length_set, hs.1], by rw [List.length_set, hs.2]⟩

/-- A step on the sets is a solver step on every bit. -/
theorem liveStep_inBits (hv : v < fn.nvregs) {b : Nat} (hb : b < fn.buildCfg.length)
    {s : LiveSets} (hs : s.Sized fn.buildCfg.length) :
    (fn.liveStep fn.buildCfg s b).inBits v =
      Function.update (s.inBits v) b ((fn.liveProblem v).transfer (s.inBits v) b) := by
  have hbb := List.getElem?_eq_getElem hb
  funext c
  rw [liveStep_eq hbb, LiveSets.inBits, getD_set (hs.1.symm ▸ hb), Function.update_apply]
  by_cases hc : c = b
  · subst hc
    rw [if_pos rfl, if_pos rfl, blockLiveIn_has hv hbb]
    rfl
  · rw [if_neg (Ne.symm hc), if_neg hc, LiveSets.inBits]

theorem liveStep_outBits {b : Nat} {bb : Block} (hb : fn.buildCfg[b]? = some bb)
    {s : LiveSets} (hs : s.Sized fn.buildCfg.length) (c : Nat) :
    (fn.liveStep fn.buildCfg s b).outBits v c =
      if b = c then bb.succs.any (s.inBits v) else s.outBits v c := by
  have hlt : b < fn.buildCfg.length := (List.getElem?_eq_some_iff.mp hb).1
  rw [liveStep_eq hb, LiveSets.outBits, getD_set (hs.2.symm ▸ hlt)]
  split
  · rw [Block.unionSuccs_has]
    rfl
  · rfl

/-- A pass over some of the blocks. -/
def liveSteps (fn : Func) (bs : List Nat) (s : LiveSets) : LiveSets :=
  bs.foldl (fn.liveStep fn.buildCfg) s

theorem liveSteps_sized {n : Nat} : ∀ (bs : List Nat) {s : LiveSets}, s.Sized n →
    (fn.liveSteps bs s).Sized n
  | [], _, hs => hs
  | _ :: bs, _, hs => liveSteps_sized bs (liveStep_sized hs)

theorem liveSteps_inBits (hv : v < fn.nvregs) : ∀ (bs : List Nat) {s : LiveSets},
    (∀ b ∈ bs, b < fn.buildCfg.length) → s.Sized fn.buildCfg.length →
      (fn.liveSteps bs s).inBits v = (fn.liveProblem v).sweep (s.inBits v) bs
  | [], _, _, _ => rfl
  | b :: bs, s, hbs, hs => by
    have hb : b < fn.buildCfg.length := hbs b List.mem_cons_self
    have ih := liveSteps_inBits hv bs (s := fn.liveStep fn.buildCfg s b)
      (fun c hc => hbs c (List.mem_cons_of_mem b hc)) (liveStep_sized hs)
    rw [Problem.sweep, ← liveStep_inBits hv hb hs]
    exact ih

/-! ## The fixpoint -/

/-- The live-in bits are the least solution. -/
def ExactIn (fn : Func) (v : Nat) (s : LiveSets) : Prop :=
  ∀ b < fn.buildCfg.length, s.inBits v b = true ↔ (fn.liveProblem v).Holds b

def ExactOut (fn : Func) (v : Nat) (s : LiveSets) (b : Nat) : Prop :=
  ∀ bb, fn.buildCfg[b]? = some bb →
    (s.outBits v b = true ↔ ∃ t ∈ bb.succs, (fn.liveProblem v).Holds t)

/-- Once the live-in bits are exact a step keeps them so, and makes the live-out bits of its
block exact. -/
theorem liveStep_exact (hv : v < fn.nvregs) {b : Nat} (hb : b < fn.buildCfg.length)
    {s : LiveSets} (hs : s.Sized fn.buildCfg.length) (hin : fn.ExactIn v s) :
    fn.ExactIn v (fn.liveStep fn.buildCfg s b) ∧
      ∀ c, b = c ∨ fn.ExactOut v s c → fn.ExactOut v (fn.liveStep fn.buildCfg s b) c := by
  have hbb := List.getElem?_eq_getElem hb
  have hany : ∀ {c : Nat} {bc : Block}, fn.buildCfg[c]? = some bc →
      (bc.succs.any (s.inBits v) = true ↔ ∃ t ∈ bc.succs, (fn.liveProblem v).Holds t) := by
    intro c bc hc
    rw [List.any_eq_true]
    exact exists_congr fun t => and_congr_right fun ht => hin t (succs_lt hc ht)
  constructor
  · intro c hc
    rw [liveStep_inBits hv hb hs, Function.update_apply]
    split
    · next h =>
      subst h
      exact (fn.liveProblem v).transfer_exact fun t ht => hin t (liveProblem_succs_lt _ t ht)
    · exact hin c hc
  · intro c hc bc hbc
    rw [liveStep_outBits hbb hs]
    split
    · next h =>
      subst h
      rw [hbb] at hbc
      cases hbc
      exact hany hbb
    · next h => exact (hc.resolve_left h) bc hbc

theorem liveSteps_exact (hv : v < fn.nvregs) : ∀ (bs : List Nat) {s : LiveSets},
    (∀ b ∈ bs, b < fn.buildCfg.length) → s.Sized fn.buildCfg.length → fn.ExactIn v s →
      ∀ c, c ∈ bs ∨ fn.ExactOut v s c → fn.ExactOut v (fn.liveSteps bs s) c
  | [], _, _, _, _, c, hc => hc.resolve_left List.not_mem_nil
  | b :: bs, s, hbs, hs, hin, c, hc => by
    have hb : b < fn.buildCfg.length := hbs b List.mem_cons_self
    obtain ⟨hin', hout⟩ := liveStep_exact hv hb hs hin
    refine liveSteps_exact hv bs (fun d hd => hbs d (List.mem_cons_of_mem b hd))
      (liveStep_sized hs) hin' c ?_
    rcases hc with hc | hc
    · rcases List.mem_cons.mp hc with rfl | hc
      · exact Or.inr (hout c (Or.inl rfl))
      · exact Or.inl hc
    · exact Or.inr (hout c (Or.inr hc))

/-- Stopping at the first pass without a change is the same as going on. -/
theorem liveIterate_eq (blocks : List Block) : ∀ (k : Nat) (s : LiveSets),
    fn.liveIterate blocks k s = (fn.liveSweep blocks)^[k] s
  | 0, _ => rfl
  | k + 1, s => by
    rw [liveIterate, Function.iterate_succ_apply]
    by_cases h : fn.liveSweep blocks s = s
    · rw [if_pos h, h, Function.iterate_fixed h]
    · rw [if_neg h]
      exact liveIterate_eq blocks k _

section Iterate

/-- The order in which a pass visits the blocks. -/
def sweepOrder (fn : Func) : List Nat := (List.range fn.buildCfg.length).reverse

theorem mem_sweepOrder {b : Nat} : b ∈ fn.sweepOrder ↔ b < fn.buildCfg.length := by
  simp [sweepOrder]

theorem liveSweep_iterate_sized : ∀ (k : Nat) {s : LiveSets}, s.Sized fn.buildCfg.length →
    ((fn.liveSweep fn.buildCfg)^[k] s).Sized fn.buildCfg.length
  | 0, _, hs => hs
  | k + 1, s, hs => by
    rw [Function.iterate_succ_apply]
    exact liveSweep_iterate_sized k (liveSteps_sized fn.sweepOrder hs)

theorem liveSweep_iterate_inBits (hv : v < fn.nvregs) : ∀ (k : Nat) {s : LiveSets},
    s.Sized fn.buildCfg.length →
      ((fn.liveSweep fn.buildCfg)^[k] s).inBits v =
        (fn.liveProblem v).sweeps fn.sweepOrder k (s.inBits v)
  | 0, _, _ => rfl
  | k + 1, s, hs => by
    have hs' : (fn.liveSweep fn.buildCfg s).Sized fn.buildCfg.length :=
      liveSteps_sized fn.sweepOrder hs
    have hbits : (fn.liveSweep fn.buildCfg s).inBits v =
        (fn.liveProblem v).sweep (s.inBits v) fn.sweepOrder :=
      liveSteps_inBits hv fn.sweepOrder (fun b => mem_sweepOrder.mp) hs
    rw [Function.iterate_succ_apply, Problem.sweeps, ← hbits]
    exact liveSweep_iterate_inBits hv k hs'

theorem liveInit_sized : (fn.liveInit fn.buildCfg).Sized fn.buildCfg.length := by
  simp [LiveSets.Sized, liveInit]

theorem liveInit_sound (hv : v < fn.nvregs) (b : Nat)
    (h : (fn.liveInit fn.buildCfg).inBits v b = true) : (fn.liveProblem v).Holds b := by
  simp only [LiveSets.inBits, liveInit, List.getD_eq_getElem?_getD, List.getElem?_modify,
    List.getElem?_replicate] at h
  by_cases hb : b < fn.buildCfg.length
  · by_cases h0 : 0 = b
    · subst h0
      simp only [hb, if_true, Option.map_eq_map, Option.map_some, Option.getD_some,
        BitSet.has_foldl_insert, BitSet.has_empty, Bool.false_or, decide_eq_true_eq,
        mem_inRange] at h
      have hp : v ∈ fn.paramVregs := by
        obtain ⟨p, hp, rfl⟩ := List.mem_map.mp h.1
        exact List.mem_map_of_mem (List.mem_of_mem_filter hp)
      exact .gen (by simp [liveProblem, hp])
    · simp [h0, hb] at h
  · simp [hb] at h

/-- As many passes as there are blocks are enough. -/
theorem liveSweep_iterate_exact (hv : v < fn.nvregs) {k : Nat} (hk : fn.buildCfg.length ≤ k) :
    fn.ExactIn v ((fn.liveSweep fn.buildCfg)^[k] (fn.liveInit fn.buildCfg)) := by
  intro b hb
  rw [liveSweep_iterate_inBits hv k liveInit_sized]
  constructor
  · exact (fn.liveProblem v).sweeps_sound fn.sweepOrder k (liveInit_sound hv) b
  · intro h
    refine (fn.liveProblem v).sweeps_complete (fun c => mem_sweepOrder.mpr) liveProblem_succs_lt
      k 0 (fun c _ h0 => absurd h0 id) b hb ?_
    rw [Nat.zero_add]
    exact (fn.liveProblem v).holdsIn_mono hk
      ((fn.liveProblem v).holdsIn_of_holds liveProblem_succs_lt hb h)

end Iterate

theorem computeCfgLiveness_sized :
    (fn.computeCfgLiveness fn.buildCfg).Sized fn.buildCfg.length := by
  rw [computeCfgLiveness, liveIterate_eq]
  exact liveSweep_iterate_sized _ liveInit_sized

/-- A pass over exact live-in sets makes the live-out sets exact. -/
theorem liveSweep_exactOut (hv : v < fn.nvregs) {s : LiveSets} (hs : s.Sized fn.buildCfg.length)
    (h : fn.ExactIn v s) {b : Nat} (hb : b < fn.buildCfg.length) :
    fn.ExactOut v (fn.liveSweep fn.buildCfg s) b :=
  liveSteps_exact hv fn.sweepOrder (fun _ => mem_sweepOrder.mp) hs h b
    (Or.inl (mem_sweepOrder.mpr hb))

/-- **The computed live-out sets are liveness by paths.** -/
theorem computeCfgLiveness_liveOut (hv : v < fn.nvregs) {b : Nat} {bb : Block}
    (hb : fn.buildCfg[b]? = some bb) :
    (fn.computeCfgLiveness fn.buildCfg).outBits v b = true ↔ fn.LiveOut bb v := by
  rw [liveOut_iff_holds hv hb, computeCfgLiveness, liveIterate_eq,
    Function.iterate_succ_apply' _ (fn.buildCfg.length * 4 + 9)]
  have hsized : ((fn.liveSweep fn.buildCfg)^[fn.buildCfg.length * 4 + 9]
      (fn.liveInit fn.buildCfg)).Sized fn.buildCfg.length :=
    liveSweep_iterate_sized _ liveInit_sized
  have hexact := liveSweep_iterate_exact hv (show fn.buildCfg.length ≤
    fn.buildCfg.length * 4 + 9 by omega)
  have hlt : b < fn.buildCfg.length := (List.getElem?_eq_some_iff.mp hb).1
  exact liveSweep_exactOut hv hsized hexact hlt bb hb

/-! ## The result of the pass -/

/-- The live-in bits after enough passes. -/
theorem computeCfgLiveness_exactIn (hv : v < fn.nvregs) :
    fn.ExactIn v (fn.computeCfgLiveness fn.buildCfg) := by
  rw [computeCfgLiveness, liveIterate_eq]
  exact liveSweep_iterate_exact hv (by omega)

/-- **The computed live-in sets are liveness by paths.** -/
theorem computeCfgLiveness_liveIn (hv : v < fn.nvregs) {b : Nat} {bb : Block}
    (hb : fn.buildCfg[b]? = some bb) :
    (fn.computeCfgLiveness fn.buildCfg).inBits v b = true ↔
      fn.LiveBefore fn.paramVregs v bb.start := by
  rw [← holds_iff_liveBefore hv hb]
  exact computeCfgLiveness_exactIn hv b (List.getElem?_eq_some_iff.mp hb).1

/-- Only vregs of the function are in a set. -/
def InRange (fn : Func) (s : LiveSets) : Prop :=
  ∀ v, fn.nvregs ≤ v → ∀ b, s.inBits v b = false ∧ s.outBits v b = false

theorem addInsn_inRange {n : Nat} (hv : n ≤ v) (s : DefUse) (ins : Insn) :
    (s.addInsn n ins).uses.has v = s.uses.has v := by
  simp [DefUse.addInsn, BitSet.has_foldl_insert, Nat.not_lt.mpr hv]

theorem foldl_uses_inRange {n : Nat} (hv : n ≤ v) : ∀ (l : List Insn) (s : DefUse),
    (l.foldl (DefUse.addInsn n) s).uses.has v = s.uses.has v
  | [], _ => rfl
  | ins :: l, s => by
    rw [List.foldl_cons, foldl_uses_inRange hv l, addInsn_inRange hv]

theorem blockLiveIn_inRange (hv : fn.nvregs ≤ v) (b : Nat) (bb : Block) {out : BitSet}
    (hout : out.has v = false) : (fn.blockLiveIn b bb out).has v = false := by
  have huses : (fn.blockDefUse bb).uses.has v = false := by
    rw [blockDefUse, foldl_uses_inRange hv]
    exact BitSet.has_empty v
  have hparam : v ∉ fn.inRange fn.paramVregs := fun h =>
    absurd (mem_inRange.mp h).2 (Nat.not_lt.mpr hv)
  unfold blockLiveIn
  split_ifs
  · simp [BitSet.has_foldl_insert, huses, hout, hparam]
  · simp [huses, hout]

theorem liveStep_inRange {s : LiveSets} (h : fn.InRange s) (hs : s.Sized fn.buildCfg.length)
    (b : Nat) : fn.InRange (fn.liveStep fn.buildCfg s b) := by
  intro v hv c
  unfold liveStep
  split
  · exact h v hv c
  · next bb hb =>
    have hlt : b < fn.buildCfg.length := (List.getElem?_eq_some_iff.mp hb).1
    have hout : (bb.unionSuccs s.liveIn).has v = false := by
      rw [Block.unionSuccs_has, List.any_eq_false]
      exact fun t _ => Bool.eq_false_iff.mp (h v hv t).1
    constructor
    · rw [LiveSets.inBits, getD_set (hs.1.symm ▸ hlt)]
      split_ifs
      · exact blockLiveIn_inRange hv b bb hout
      · exact (h v hv c).1
    · rw [LiveSets.outBits, getD_set (hs.2.symm ▸ hlt)]
      split_ifs
      · exact hout
      · exact (h v hv c).2

theorem liveSteps_inRange : ∀ (bs : List Nat) {s : LiveSets}, fn.InRange s →
    s.Sized fn.buildCfg.length → fn.InRange (fn.liveSteps bs s)
  | [], _, h, _ => h
  | b :: bs, _, h, hs => liveSteps_inRange bs (liveStep_inRange h hs b) (liveStep_sized hs)

theorem liveInit_inRange : fn.InRange (fn.liveInit fn.buildCfg) := by
  intro v hv b
  have hempty : ∀ c, (List.replicate fn.buildCfg.length BitSet.empty).getD c .empty = .empty := by
    intro c
    rw [List.getD_eq_getElem?_getD, List.getElem?_replicate]
    split_ifs <;> rfl
  constructor
  · have hparam : v ∉ fn.inRange fn.regParamVregs := fun h =>
      absurd (mem_inRange.mp h).2 (Nat.not_lt.mpr hv)
    simp only [LiveSets.inBits, liveInit, List.getD_eq_getElem?_getD, List.getElem?_modify,
      List.getElem?_replicate]
    by_cases hb : b < fn.buildCfg.length
    · by_cases h0 : 0 = b
      · simp [h0, hb, BitSet.has_foldl_insert, hparam]
      · simp [h0, hb]
    · simp [hb]
  · rw [LiveSets.outBits]
    show ((List.replicate fn.buildCfg.length BitSet.empty).getD b .empty).has v = false
    rw [hempty, BitSet.has_empty]

theorem liveSweep_iterate_inRange : ∀ (k : Nat) {s : LiveSets}, fn.InRange s →
    s.Sized fn.buildCfg.length → fn.InRange ((fn.liveSweep fn.buildCfg)^[k] s)
  | 0, _, h, _ => h
  | k + 1, s, h, hs => by
    rw [Function.iterate_succ_apply]
    exact liveSweep_iterate_inRange k (liveSteps_inRange fn.sweepOrder h hs)
      (liveSteps_sized fn.sweepOrder hs)

end Func

/-- Sets with the same bits are the same. -/
theorem LiveSets.ext_bits {n : Nat} {s t : LiveSets} (hs : s.Sized n) (ht : t.Sized n)
    (h : ∀ b < n, ∀ v, s.inBits v b = t.inBits v b ∧ s.outBits v b = t.outBits v b) : s = t := by
  obtain ⟨sin, sout⟩ := s
  obtain ⟨tin, tout⟩ := t
  obtain ⟨hs1, hs2⟩ := hs
  obtain ⟨ht1, ht2⟩ := ht
  congr 1
  · refine List.ext_getElem (hs1.trans ht1.symm) fun b h1 h2 => BitSet.ext fun v => ?_
    have hbit := (h b (hs1 ▸ h1) v).1
    rwa [LiveSets.inBits, LiveSets.inBits, List.getD_eq_getElem _ _ h1,
      List.getD_eq_getElem _ _ h2] at hbit
  · refine List.ext_getElem (hs2.trans ht2.symm) fun b h1 h2 => BitSet.ext fun v => ?_
    have hbit := (h b (hs2 ▸ h1) v).2
    rwa [LiveSets.outBits, LiveSets.outBits, List.getD_eq_getElem _ _ h1,
      List.getD_eq_getElem _ _ h2] at hbit

namespace Func

variable {fn : Func} {v : Nat}

/-- Two more passes than there are blocks: a further pass changes nothing. -/
theorem liveSweep_fixed (k : Nat) (hk : fn.buildCfg.length ≤ k) :
    fn.liveSweep fn.buildCfg ((fn.liveSweep fn.buildCfg)^[k + 1] (fn.liveInit fn.buildCfg)) =
      (fn.liveSweep fn.buildCfg)^[k + 1] (fn.liveInit fn.buildCfg) := by
  have hsized := fun j => liveSweep_iterate_sized j (@liveInit_sized fn)
  have hrange := fun j => liveSweep_iterate_inRange j (@liveInit_inRange fn) liveInit_sized
  rw [← Function.iterate_succ_apply' (fn.liveSweep fn.buildCfg) (k + 1)]
  refine LiveSets.ext_bits (hsized _) (hsized _) fun b hb v => ?_
  by_cases hv : v < fn.nvregs
  · have hexact := fun j (hj : fn.buildCfg.length ≤ j) => liveSweep_iterate_exact hv hj
    have hbb := List.getElem?_eq_getElem hb
    constructor
    · rw [Bool.eq_iff_iff, hexact (k + 2) (by omega) b hb, hexact (k + 1) (by omega) b hb]
    · have hout : ∀ j, fn.buildCfg.length ≤ j → fn.ExactOut v
          ((fn.liveSweep fn.buildCfg)^[j + 1] (fn.liveInit fn.buildCfg)) b := fun j hj => by
        rw [Function.iterate_succ_apply']
        exact liveSweep_exactOut hv (hsized j) (hexact j hj) hb
      rw [Bool.eq_iff_iff, hout (k + 1) (by omega) _ hbb, hout k hk _ hbb]
  · have h1 := hrange (k + 2) v (Nat.not_lt.mp hv) b
    have h2 := hrange (k + 1) v (Nat.not_lt.mp hv) b
    exact ⟨h1.1.trans h2.1.symm, h1.2.trans h2.2.symm⟩

/-- The bound on the number of passes never stops the iteration before its fixpoint. -/
theorem computeCfgLiveness_fixed :
    fn.liveSweep fn.buildCfg (fn.computeCfgLiveness fn.buildCfg) =
      fn.computeCfgLiveness fn.buildCfg := by
  rw [computeCfgLiveness, liveIterate_eq]
  exact liveSweep_fixed (fn.buildCfg.length * 4 + 9) (by omega)

/-- **Exact liveness.** Entering the function reads its parameters; besides, a vreg is in a set
exactly when a path from there reads it before any write. -/
theorem computeCfgLiveness_exact (fn : Func) :
    fn.liveSweep fn.buildCfg (fn.computeCfgLiveness fn.buildCfg) =
        fn.computeCfgLiveness fn.buildCfg ∧
      ∀ (b : Nat) (bb : Block) (v : Nat), fn.buildCfg[b]? = some bb → v < fn.nvregs →
        ((fn.computeCfgLiveness fn.buildCfg).outBits v b = true ↔ fn.LiveOut bb v) ∧
        ((fn.computeCfgLiveness fn.buildCfg).inBits v b = true ↔
          fn.LiveBefore fn.paramVregs v bb.start) :=
  ⟨computeCfgLiveness_fixed, fun _ _ _ hb hv =>
    ⟨computeCfgLiveness_liveOut hv hb, computeCfgLiveness_liveIn hv hb⟩⟩

/-- Some path from the end of the block reads the vreg before any write. -/
def ReadAfter (fn : Func) (bb : Block) (v : Nat) : Prop :=
  ∃ t ∈ bb.succs, ∃ bt, fn.buildCfg[t]? = some bt ∧ fn.LiveBefore [] v bt.start

/-- The body is a loop that starts with the function, and the parameter is not read in it. -/
def emptyLoop : Func where
  insns := [{ op := .label, name := "L0" }, { op := .jmp, name := "L0" }]
  nvregs := 1
  params := [{ vreg := 0 }]

theorem emptyLoop_liveIn :
    (emptyLoop.computeCfgLiveness emptyLoop.buildCfg).inBits 0 0 = true :=
  ((computeCfgLiveness_exact emptyLoop).2 0 { start := 0, stop := 2, succs := [0] } 0
    (by decide) (by decide)).2.mpr (.entry (by decide))

/-- The jump enters the entry block again, and the parameter stays live across it. -/
theorem emptyLoop_paramLive : ∃ bb, emptyLoop.buildCfg[0]? = some bb ∧
    (emptyLoop.computeCfgLiveness emptyLoop.buildCfg).outBits 0 0 = true ∧
      ¬emptyLoop.ReadAfter bb 0 := by
  refine ⟨{ start := 0, stop := 2, succs := [0] }, by decide, by decide, ?_⟩
  have hreads : ∀ i, ¬emptyLoop.Reads i 0 := by
    rintro i ⟨ins, hins, hu⟩
    have hmem : ins ∈ emptyLoop.insns := List.mem_of_getElem? hins
    simp only [emptyLoop, List.mem_cons, List.not_mem_nil, or_false] at hmem
    rcases hmem with rfl | rfl <;> exact absurd hu (by decide)
  have hlive : ∀ i, ¬emptyLoop.LiveBefore [] 0 i := by
    intro i h
    induction h with
    | read hr => exact hreads _ hr
    | entry he => exact List.not_mem_nil he
    | step _ _ _ ih => exact ih
  rintro ⟨t, -, bt, -, hl⟩
  exact hlive _ hl

end Func

end Nib.Bind
