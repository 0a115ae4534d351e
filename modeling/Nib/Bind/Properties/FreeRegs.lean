import Nib.Bind.FreeRegs
import Nib.Bind.Properties.Flow
import Nib.Bind.Properties.Liveness
import Nib.Bind.Properties.PlannedMoves

/-!
# Free registers are free

* `walkBack_has` — the walk sees every vreg that is live in the block
* `freeQueries_sound` — what the queries promise
-/

namespace Nib.Bind

open Nib.Infra

/-- An occupied register occupies whatever it aliases. -/
theorem mem_occupies_of_alias {r p : Preg} (h : pregsAlias r p = true) : r ∈ p.occupies := by
  have hall : (!pregsAlias r p || p.occupies.contains r) = true := by
    cases r <;> cases p <;> rfl
  simpa [h] using hall

namespace Func

variable {fn : Func} {a : Assignment} {v b i : Nat} {bb : Block}

/-! ## The walk -/

theorem removeInsnDefsFromLive_has (hv : v < fn.nvregs) (ins : Insn) (live : BitSet) :
    (fn.removeInsnDefsFromLive ins live).has v = true ↔ live.has v = true ∧ v ∉ ins.defs := by
  simp [removeInsnDefsFromLive, BitSet.has_foldl_erase, mem_inRange, hv]

theorem addInsnUsesToLive_has (hv : v < fn.nvregs) (ins : Insn) (live : BitSet) :
    (fn.addInsnUsesToLive ins live).has v = true ↔ live.has v = true ∨ v ∈ ins.uses := by
  simp [addInsnUsesToLive, BitSet.has_foldl_insert, mem_inRange, hv]

/-- The way in which a query adds the operands of an instruction adds all it reads. -/
def AddsUses (v : Nat) (addUses : Insn → BitSet → BitSet) : Prop :=
  ∀ ins live, live.has v = true ∨ v ∈ ins.uses → (addUses ins live).has v = true

theorem addsUses_uses (hv : v < fn.nvregs) : AddsUses v fn.addInsnUsesToLive :=
  fun ins live h => (addInsnUsesToLive_has hv ins live).mpr h

theorem addsUses_operands (hv : v < fn.nvregs) : AddsUses v fn.addInsnOperandsToLive := by
  intro ins live h
  refine addsUses_uses hv ins _ (h.imp (fun hl => ?_) id)
  rw [BitSet.has_foldl_insert, hl, Bool.true_or]

variable {addUses : Insn → BitSet → BitSet}

/-- The walk sees every vreg that is live before the rest of a block. -/
theorem walk_has (hv : v < fn.nvregs) (hadd : AddsUses v addUses) {out : Prop}
    {liveOut : BitSet} (hout : out → liveOut.has v = true) :
    ∀ {l : List Insn}, LiveIn out v l →
      (l.foldr (fun ins live => addUses ins (fn.removeInsnDefsFromLive ins live)) liveOut).has v =
        true
  | [], h => hout h
  | ins :: rest, h => by
    refine hadd ins _ ?_
    rcases h with h | ⟨hd, h⟩
    · exact Or.inr h
    · exact Or.inl ((removeInsnDefsFromLive_has hv ins _).mpr ⟨walk_has hv hadd hout h, hd⟩)

theorem liveOutOf_has (hv : v < fn.nvregs) (hb : fn.buildCfg[b]? = some bb)
    (h : ∃ t ∈ bb.succs, (fn.liveProblem v).Holds t) : (fn.liveOutOf b).has v = true :=
  (computeCfgLiveness_liveOut hv hb).mpr ((liveOut_iff_holds hv hb).mpr h)

theorem holds_of_liveBefore (hv : v < fn.nvregs) {t : Nat} {bt : Block}
    (hbt : fn.buildCfg[t]? = some bt) (h : fn.LiveBefore [] v bt.start) :
    (fn.liveProblem v).Holds t := by
  rw [holds_iff hv hbt]
  have hcut := liveIn_of_liveBefore h (fun t bt hbt hl => (holds_iff hv hbt).mpr
    (hl.imp id fun ⟨_, he⟩ => absurd he List.not_mem_nil)) hbt (Nat.le_refl _) (start_lt_stop hbt)
  exact hcut.imp id fun ⟨_, he⟩ => absurd he List.not_mem_nil

/-- A walk that goes back to an instruction sees what is live before it. -/
theorem walkBack_has (hv : v < fn.nvregs) (hadd : AddsUses v addUses)
    (hb : fn.buildCfg[b]? = some bb) (h1 : bb.start ≤ i) (h2 : i < bb.stop)
    (h : fn.LiveBefore [] v i) : (fn.walkBack addUses bb i (fn.liveOutOf b)).has v = true := by
  have hcut := liveIn_of_liveBefore h (fun t bt hbt hl => (holds_iff hv hbt).mpr
    (hl.imp id fun ⟨_, he⟩ => absurd he List.not_mem_nil)) hb h1 h2
  rcases hcut with hin | ⟨_, he⟩
  · exact walk_has hv hadd (liveOutOf_has hv hb) hin
  · exact absurd he List.not_mem_nil

/-- A walk that stops behind an instruction sees what is live after it. -/
theorem walkBack_succ_has (hv : v < fn.nvregs) (hadd : AddsUses v addUses)
    (hb : fn.buildCfg[b]? = some bb) (h1 : bb.start ≤ i) (h2 : i < bb.stop)
    (h : fn.LiveAfter i v) : (fn.walkBack addUses bb (i + 1) (fn.liveOutOf b)).has v = true := by
  obtain ⟨j, hnext, hl⟩ := h
  rcases next_cases hb h1 h2 hnext with ⟨hlt, rfl⟩ | ⟨hstop, t, ht, bt, hbt, rfl⟩
  · exact walkBack_has hv hadd hb (by omega) hlt hl
  · have hnil : (fn.insns.take bb.stop).drop (i + 1) = [] := by
      rw [hstop]
      exact insnsFrom_stop bb
    rw [walkBack, hnil]
    exact liveOutOf_has hv hb ⟨t, ht, holds_of_liveBefore hv hbt hl⟩

/-! ## The queries -/

theorem liveBefore_of_across (h : fn.LiveAcross i v) : fn.LiveBefore [] v i := by
  rcases h with h | ⟨⟨j, hnext, hl⟩, hw⟩
  · exact h
  · exact .step hw hnext hl

theorem freeRegs_sound (fn : Func) (a : Assignment) (needsFrame : Bool) :
    fn.FreeRegsSound a needsFrame fn.LiveAcross := by
  intro b bb i r hb h1 h2 hfree v hv p hp hlive
  have hhas := walkBack_has hv (addsUses_operands hv) hb h1 h2 (liveBefore_of_across hlive)
  rw [freeRegsAt, hb] at hfree
  simp only [Bool.not_eq_true', Bool.or_eq_false_iff] at hfree
  obtain ⟨⟨hocc, -⟩, -⟩ := hfree
  rw [← Bool.not_eq_true]
  intro halias
  rw [← Bool.not_eq_true, List.contains_iff_mem] at hocc
  refine hocc (List.mem_flatMap.mpr ⟨v, BitSet.mem_toList.mpr ⟨hv, hhas⟩, ?_⟩)
  rw [hp]
  exact mem_occupies_of_alias halias

theorem liveAfterInsn_has (hv : v < fn.nvregs) (h : fn.LiveAfter i v) :
    (fn.liveAfterInsn i).has v = true := by
  have hi : i < fn.insns.length := by
    obtain ⟨j, ⟨bb, hmem, -, h2, -⟩, -⟩ := h
    obtain ⟨b, hb⟩ := List.mem_iff_getElem?.mp hmem
    exact Nat.lt_of_lt_of_le h2 (stop_le_length hb)
  obtain ⟨b, bb, hb, h1, h2⟩ := exists_block hi
  unfold liveAfterInsn
  cases hf : fn.buildCfg.findIdx? fun bb => decide (bb.start ≤ i) && decide (i < bb.stop) with
  | none =>
    have hnone := List.findIdx?_eq_none_iff.mp hf bb (List.mem_of_getElem? hb)
    simp [h1, h2] at hnone
  | some c =>
    obtain ⟨hc, hin, -⟩ := List.findIdx?_eq_some_iff_getElem.mp hf
    simp only [Bool.and_eq_true, decide_eq_true_eq] at hin
    have hget := List.getElem?_eq_getElem hc
    simp only [hget, Option.map_some, Option.getD_some]
    exact walkBack_succ_has hv (addsUses_uses hv) hget hin.1 hin.2 h

theorem liveQueries_sound (fn : Func) (a : Assignment) : fn.LiveQueriesSound a where
  vreg i v hv hdead hlive := by
    rw [vregLiveAfterInsn, liveAfterInsn_has hv hlive] at hdead
    simp [hv] at hdead
  preg i r hdead v hv p hp halias hlive := by
    rw [pregLiveAfterInsn, List.any_eq_false] at hdead
    refine hdead v (BitSet.mem_toList.mpr ⟨hv, liveAfterInsn_has hv hlive⟩) ?_
    rw [hp, pregWriteClobbers_eq]
    exact halias

/-- **The queries.** A register that is free at an instruction holds nothing that is live before
it or past it; what is dead after an instruction is not read before it is written. -/
theorem freeQueries_sound (fn : Func) (a : Assignment) (needsFrame : Bool) :
    fn.FreeRegsSound a needsFrame fn.LiveAcross ∧ fn.LiveQueriesSound a :=
  ⟨freeRegs_sound fn a needsFrame, liveQueries_sound fn a⟩

/-- A constant that is returned. -/
def constReturn : Func where
  insns := [{ op := .mov, dst := some 0, imm := some 1 }, { op := .retval, src1 := some 0 }]
  nvregs := 1

/-- The register of a vreg that the instruction itself writes is free at it. -/
theorem freeRegs_not_around :
    ¬constReturn.FreeRegsSound { assigned := fun _ => some .ax } false constReturn.LiveAround := by
  intro h
  have hnext : constReturn.Next 0 1 :=
    ⟨{ start := 0, stop := 2 }, by decide, by decide, by decide, Or.inl ⟨by decide, rfl⟩⟩
  have hread : constReturn.Reads 1 0 := ⟨_, rfl, by decide⟩
  have halias := h 0 { start := 0, stop := 2 } 0 .ax (by decide) (by decide) (by decide)
    (by decide) 0 (by decide) .ax rfl (Or.inr ⟨1, hnext, .read hread⟩)
  exact absurd halias (by decide)

end Func

end Nib.Bind
