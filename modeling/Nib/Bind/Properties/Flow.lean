import Nib.Bind.Spec.Flow
import Nib.Bind.Properties.Cfg
import Nib.Asm.Properties.Symbols

/-!
# The control-flow graph and the emitted code

* `stop_isStart`, `start_eq_stop_iff` — the blocks follow one another
* `succs_iff` — the edges, instruction by instruction
* `clear_iff` — when the edges of an instruction are those of its code
* `cfg_faithful_iff` — when the graph is that of the emitted code
-/

namespace Nib.Bind.Func

open Nib.Asm (sameName)

variable {fn : Func} {bare : Bool} {asmTo : Nat → Nat → Prop} {i j : Nat} {ins : Insn}

/-! ## The blocks follow one another -/

theorem leaders_sorted (fn : Func) : fn.leaders.Pairwise (· < ·) :=
  List.pairwise_lt_range.filter _

theorem leaders_lt {a b i j : Nat} (ha : fn.leaders[a]? = some i) (hb : fn.leaders[b]? = some j)
    (h : a < b) : i < j := by
  obtain ⟨hla, rfl⟩ := List.getElem?_eq_some_iff.mp ha
  obtain ⟨hlb, rfl⟩ := List.getElem?_eq_some_iff.mp hb
  exact List.pairwise_iff_getElem.mp (leaders_sorted fn) a b hla hlb h

theorem leader_isStart (hi : i < fn.insns.length) (h : fn.isLeader i = true) :
    ∃ (b : Nat) (bb : Block), fn.buildCfg[b]? = some bb ∧ bb.start = i := by
  obtain ⟨b, hb⟩ := List.mem_iff_getElem?.mp (mem_leaders.mpr ⟨hi, h⟩)
  exact ⟨b, fn.mkBlock b i, by rw [buildCfg_getElem?, hb, Option.map_some], rfl⟩

/-- The instruction behind a block starts one. -/
theorem stop_isLeader (h : fn.blockStop i < fn.insns.length) :
    fn.isLeader (fn.blockStop i) = true := by
  unfold blockStop at h ⊢
  cases hf : (List.range' (i + 1) (fn.insns.length - (i + 1))).find? fn.isLeader with
  | none =>
    rw [hf] at h
    exact absurd h (Nat.lt_irrefl _)
  | some j =>
    exact List.find?_some hf

/-- A block is followed by the next one. -/
theorem start_eq_stop_iff {a b : Nat} {ba bb : Block} (ha : fn.buildCfg[a]? = some ba)
    (hb : fn.buildCfg[b]? = some bb) : bb.start = ba.stop ↔ b = a + 1 := by
  obtain ⟨i, hi, rfl⟩ := exists_leader_of_block ha
  obtain ⟨j, hj, rfl⟩ := exists_leader_of_block hb
  have hlti := lt_blockStop (mem_leaders.mp (List.mem_of_getElem? hi)).1
  have hlead := (mem_leaders.mp (List.mem_of_getElem? hj)).2
  show j = fn.blockStop i ↔ b = a + 1
  constructor
  · rintro rfl
    have hab : a < b := by
      rcases Nat.lt_trichotomy a b with h | h | h
      · exact h
      · subst h
        have heq : i = fn.blockStop i := Option.some.inj (hi.symm.trans hj)
        omega
      · have := leaders_lt hj hi h
        omega
    by_contra hne
    -- a block between the two would start inside the first
    obtain ⟨k, hk⟩ : ∃ k, fn.leaders[a + 1]? = some k := by
      have hlen := (List.getElem?_eq_some_iff.mp hj).1
      exact ⟨_, List.getElem?_eq_getElem (by omega)⟩
    have hik := leaders_lt hi hk (by omega)
    have hkj := leaders_lt hk hj (by omega)
    have hleadk := (mem_leaders.mp (List.mem_of_getElem? hk)).2
    rw [not_leader_inside hik hkj] at hleadk
    cases hleadk
  · rintro rfl
    have hij := leaders_lt hi hj (by omega)
    have hjlen := (mem_leaders.mp (List.mem_of_getElem? hj)).1
    rcases Nat.lt_trichotomy j (fn.blockStop i) with h | h | h
    · rw [not_leader_inside hij h] at hlead
      cases hlead
    · exact h
    · -- the end of the first block would start a block before the second
      have hstop : fn.blockStop i < fn.insns.length := by omega
      obtain ⟨c, bc, hc, hstart⟩ := leader_isStart hstop (stop_isLeader hstop)
      obtain ⟨k, hk, rfl⟩ := exists_leader_of_block hc
      have hk' : k = fn.blockStop i := hstart
      rw [← hk'] at h
      have hac : a < c := by
        by_contra hle
        rcases Nat.lt_or_eq_of_le (Nat.le_of_not_lt hle) with hlt | heq
        · have := leaders_lt hk hi hlt
          omega
        · subst heq
          have heq : k = i := Option.some.inj (hk.symm.trans hi)
          omega
      have hca : c < a + 1 := by
        by_contra hle
        rcases Nat.lt_or_eq_of_le (Nat.le_of_not_lt hle) with hlt | heq
        · have := leaders_lt hj hk hlt
          omega
        · subst heq
          have heq : k = j := Option.some.inj (hk.symm.trans hj)
          omega
      omega

theorem stop_of_last {b : Nat} {bb : Block} (h : fn.buildCfg[b]? = some bb)
    (hlast : b + 1 = fn.buildCfg.length) : bb.stop = fn.insns.length := by
  rcases Nat.lt_or_eq_of_le (stop_le_length h) with hlt | heq
  · obtain ⟨i, hi, rfl⟩ := exists_leader_of_block h
    have hstop : fn.blockStop i < fn.insns.length := hlt
    obtain ⟨c, bc, hc, hstart⟩ := leader_isStart hstop (stop_isLeader hstop)
    have hcb := (start_eq_stop_iff h hc).mp hstart
    have hclen := (List.getElem?_eq_some_iff.mp hc).1
    omega
  · exact heq

/-- Every instruction is in a block. -/
theorem exists_block (hi : i < fn.insns.length) :
    ∃ (b : Nat) (bb : Block), fn.buildCfg[b]? = some bb ∧ bb.start ≤ i ∧ i < bb.stop := by
  induction i with
  | zero =>
    obtain ⟨b, bb, hb, hstart⟩ := leader_isStart hi (by simp [isLeader])
    exact ⟨b, bb, hb, Nat.le_of_eq hstart, by have := start_lt_stop hb; omega⟩
  | succ i ih =>
    obtain ⟨b, bb, hb, hle, hlt⟩ := ih (by omega)
    rcases Nat.lt_or_eq_of_le (Nat.succ_le_of_lt hlt) with h | h
    · exact ⟨b, bb, hb, by omega, h⟩
    · obtain ⟨k, hk, rfl⟩ := exists_leader_of_block hb
      have hstop : fn.blockStop k = i + 1 := h.symm
      have hlead := stop_isLeader (by rw [hstop]; exact hi)
      rw [hstop] at hlead
      obtain ⟨c, bc, hc, hstart⟩ := leader_isStart hi hlead
      exact ⟨c, bc, hc, Nat.le_of_eq hstart, by have := start_lt_stop hc; omega⟩

theorem blockOf_spec (hi : i < fn.insns.length) : ∃ bb : Block,
    fn.buildCfg[fn.blockOf i]? = some bb ∧ bb.start ≤ i ∧ i < bb.stop := by
  obtain ⟨b, bb, hb, hle, hlt⟩ := exists_block hi
  unfold blockOf
  cases hf : fn.buildCfg.findIdx? fun bb => bb.start ≤ i && i < bb.stop with
  | none =>
    have hnone := List.findIdx?_eq_none_iff.mp hf bb (List.mem_of_getElem? hb)
    simp [hle, hlt] at hnone
  | some c =>
    obtain ⟨hc, hin, -⟩ := List.findIdx?_eq_some_iff_getElem.mp hf
    refine ⟨_, List.getElem?_eq_getElem hc, ?_⟩
    simpa using hin

/-! ## Labels -/

theorem labelNamed_iff {target : String} : fn.labelNamed j target = true ↔
    ∃ ins, fn.insns[j]? = some ins ∧ ins.op = .label ∧ ins.name = target := by
  unfold labelNamed
  cases fn.insns[j]? <;> simp

theorem FirstLabel.lt {target : String} (h : fn.FirstLabel target j) : j < fn.insns.length := by
  obtain ⟨ins, hins, -, -⟩ := labelNamed_iff.mp h.1
  exact (List.getElem?_eq_some_iff.mp hins).1

theorem Declares.lt {target : String} (h : fn.Declares j target) : j < fn.insns.length := by
  obtain ⟨ins, hins, -, -⟩ := h
  exact (List.getElem?_eq_some_iff.mp hins).1

theorem FirstLabel.unique {target : String} {k : Nat} (hj : fn.FirstLabel target j)
    (hk : fn.FirstLabel target k) : j = k := by
  rcases Nat.lt_trichotomy j k with h | h | h
  · have := hk.2 j h
    rw [hj.1] at this
    cases this
  · exact h
  · have := hj.2 k h
    rw [hk.1] at this
    cases this

theorem FirstLabel.declares {target : String} (h : fn.FirstLabel target j) :
    fn.Declares j target := by
  obtain ⟨ins, hins, hop, rfl⟩ := labelNamed_iff.mp h.1
  exact ⟨ins, hins, hop, Nib.Asm.sameName_iff.mpr rfl⟩

theorem FirstLabel.isLeader {target : String} (h : fn.FirstLabel target j) :
    fn.isLeader j = true := by
  obtain ⟨ins, hins, hop, -⟩ := labelNamed_iff.mp h.1
  simp [Func.isLeader, hins, hop]

/-- The block that `build_cfg` finds for a label is that of its first declaration. -/
theorem labelBlock_iff {target : String} {b k : Nat} (hk : fn.leaders[b]? = some k) :
    fn.labelBlock target = some b ↔ fn.FirstLabel target k := by
  obtain ⟨hlen, rfl⟩ := List.getElem?_eq_some_iff.mp hk
  have hlabel (i : Nat) : ((fn.insns[i]?).any fun ins => ins.op == .label && ins.name == target) =
      fn.labelNamed i target := rfl
  unfold labelBlock
  rw [List.findIdx?_eq_some_iff_getElem]
  simp only [hlabel]
  constructor
  · rintro ⟨_, hat, hbefore⟩
    refine ⟨hat, fun i hi => ?_⟩
    by_contra hne
    rw [Bool.not_eq_false] at hne
    -- a label before it starts a block, which would come before
    obtain ⟨ins, hins, hop, -⟩ := labelNamed_iff.mp hne
    have hlead : fn.isLeader i = true := by simp [Func.isLeader, hins, hop]
    obtain ⟨c, hc⟩ := List.mem_iff_getElem?.mp
      (mem_leaders.mpr ⟨(List.getElem?_eq_some_iff.mp hins).1, hlead⟩)
    have hcb : c < b := by
      rcases Nat.lt_trichotomy c b with h | h | h
      · exact h
      · subst h
        have heq := Option.some.inj (hk.symm.trans hc)
        omega
      · have := leaders_lt hk hc h
        omega
    obtain ⟨hclen, rfl⟩ := List.getElem?_eq_some_iff.mp hc
    exact hbefore c hcb hne
  · rintro ⟨hat, hbefore⟩
    refine ⟨hlen, hat, fun c hc => ?_⟩
    have hno := hbefore _ (leaders_lt (List.getElem?_eq_getElem (by omega)) hk hc)
    rw [hno]
    exact Bool.false_ne_true

/-! ## Edges -/

/-- The edges of a block are those of its last instruction. -/
theorem succs_iff {a b : Nat} {ba bb : Block} (ha : fn.buildCfg[a]? = some ba)
    (hb : fn.buildCfg[b]? = some bb) (hins : fn.insns[ba.stop - 1]? = some ins) :
    b ∈ ba.succs ↔ fn.CfgLeads (ba.stop - 1) ins bb.start := by
  have hnext : bb.start = ba.stop - 1 + 1 ↔ b = a + 1 := by
    rw [← start_eq_stop_iff ha hb, Nat.sub_add_cancel (by have := start_lt_stop ha; omega)]
  have hblen := (List.getElem?_eq_some_iff.mp hb).1
  rw [buildCfg_length] at hblen
  obtain ⟨i, hi, rfl⟩ := exists_leader_of_block ha
  obtain ⟨j, hj, rfl⟩ := exists_leader_of_block hb
  have hlab : b ∈ (fn.labelBlock ins.name).toList ↔ fn.FirstLabel ins.name j := by
    rw [Option.mem_toList, labelBlock_iff hj]
  have hfall : b ∈ (if a + 1 < fn.leaders.length then [a + 1] else []) ↔ b = a + 1 := by
    split
    · rw [List.mem_singleton]
    · simp only [List.not_mem_nil, false_iff]
      omega
  have hlt : j < fn.insns.length := (mem_leaders.mp (List.mem_of_getElem? hj)).1
  have hstart : (fn.mkBlock b j).start = j := rfl
  have hsuccs : (fn.mkBlock a i).succs = fn.blockSuccs a ins := by
    simp only [mkBlock] at hins ⊢
    rw [hins, Option.map_some, Option.getD_some]
  rw [hstart] at hnext ⊢
  rw [hsuccs, CfgLeads, blockSuccs]
  cases ins.op <;> simp [hnext, hlab, hfall, hlt]

/-! ## One instruction -/

theorem nextEffective_ge {k : Nat} (h : fn.nextEffective i = some k) : i ≤ k := by
  have hmem := List.mem_of_find?_eq_some h
  simp only [List.mem_range'_1] at hmem
  omega

theorem fusedWith_label {target : String} {jump behind : Nat}
    (h : fn.fusedWith i target = some (jump, behind)) :
    i + 1 < behind ∧ fn.labelNamed behind target = true := by
  unfold fusedWith at h
  obtain ⟨k, hk, h⟩ := Option.bind_eq_some_iff.mp h
  obtain ⟨l, hl, h⟩ := Option.bind_eq_some_iff.mp h
  split at h
  · rename_i hcond
    obtain ⟨rfl, rfl⟩ := Prod.mk.inj (Option.some.inj h)
    have hi := nextEffective_ge hk
    have hk := nextEffective_ge hl
    simp only [Bool.and_eq_true] at hcond
    exact ⟨by omega, hcond.2⟩
  · cases h

theorem conditional_cases (fn : Func) (i : Nat) (target : String) :
    (∃ jump behind, fn.conditional i target = .fused jump behind ∧ i + 1 < behind ∧
      fn.labelNamed behind target = true) ∨ fn.conditional i target = .jcc target := by
  unfold conditional
  cases hf : fn.fusedWith i target with
  | none => exact .inr rfl
  | some p => exact .inl ⟨p.1, p.2, rfl, fusedWith_label hf⟩

theorem leads_iff (hins : fn.insns[i]? = some ins) :
    fn.Leads bare asmTo i j ↔
      j < fn.insns.length ∧ fn.Goes asmTo i j (fn.branchOf bare i ins) := by
  simp [Leads, hins]

/-- The edges of a conditional jump. -/
theorem conditional_iff (hop : ins.op = .jz ∨ ins.op = .cjmp) (hins : fn.insns[i]? = some ins)
    (hbranch : fn.branchOf bare i ins = fn.conditional i ins.name) :
    (∀ j, fn.CfgLeads i ins j ↔ fn.Leads bare asmTo i j) ↔ fn.BranchClear bare asmTo i ins := by
  have hcfg (j : Nat) : fn.CfgLeads i ins j ↔
      j < fn.insns.length ∧ (j = i + 1 ∨ fn.FirstLabel ins.name j) := by
    rcases hop with hop | hop <;> simp [CfgLeads, hop]
  simp only [hcfg, leads_iff hins, hbranch]
  rw [BranchClear, hbranch]
  rcases conditional_cases fn i ins.name with ⟨jump, behind, hc, hlt, hlabel⟩ | hc
  · rw [hc]
    have hbehind : behind < fn.insns.length := by
      obtain ⟨_, hat, -, -⟩ := labelNamed_iff.mp hlabel
      exact (List.getElem?_eq_some_iff.mp hat).1
    constructor
    · intro h
      rcases ((h behind).mpr ⟨hbehind, .inr rfl⟩).2 with heq | hfirst
      · omega
      · exact hfirst
    · intro hfirst j
      constructor
      · rintro ⟨hj, rfl | h⟩
        · exact ⟨hj, .inl rfl⟩
        · exact ⟨hj, .inr (h.unique hfirst)⟩
      · rintro ⟨hj, rfl | rfl⟩
        · exact ⟨hj, .inl rfl⟩
        · exact ⟨hj, .inr hfirst⟩
  · rw [hc]
    constructor
    · intro h j hj
      exact ((h j).mpr ⟨hj.lt, .inr hj⟩).2
    · intro h j
      constructor
      · rintro ⟨hj, rfl | hfirst⟩
        · exact ⟨hj, .inl rfl⟩
        · exact ⟨hj, .inr hfirst.declares⟩
      · rintro ⟨hj, rfl | hdecl⟩
        · exact ⟨hj, .inl rfl⟩
        · exact ⟨hj, h j hdecl⟩

/-- The edges of the remaining kinds of instruction, when the graph expects control at `to`. -/
theorem plain_iff {P : Nat → Prop} (hins : fn.insns[i]? = some ins)
    (hcfg : ∀ j, fn.CfgLeads i ins j ↔ j < fn.insns.length ∧ P j) :
    (∀ j, fn.CfgLeads i ins j ↔ fn.Leads bare asmTo i j) ↔
      ∀ j < fn.insns.length, P j ↔ fn.Goes asmTo i j (fn.branchOf bare i ins) := by
  simp only [hcfg, leads_iff hins]
  constructor
  · intro h j hj
    simpa [hj] using h j
  · intro h j
    exact and_congr_right fun hj => h j hj

/-- **The edges of an instruction** are those of its code when the instruction is clear. -/
theorem clear_iff (hins : fn.insns[i]? = some ins) :
    (∀ j, fn.CfgLeads i ins j ↔ fn.Leads bare asmTo i j) ↔ fn.BranchClear bare asmTo i ins := by
  have hi := (List.getElem?_eq_some_iff.mp hins).1
  by_cases hjz : ins.op = .jz
  · have hcfg (j : Nat) : fn.CfgLeads i ins j ↔
        j < fn.insns.length ∧ (j = i + 1 ∨ fn.FirstLabel ins.name j) := by simp [CfgLeads, hjz]
    by_cases hassumed : fn.conditionAssumed i ins.src1 = true
    · -- nothing is printed, or the `jmp` behind
      rw [plain_iff hins hcfg]
      have hgo (j : Nat) : fn.Goes asmTo i j (fn.branchOf bare i ins) ↔ j = i + 1 := by
        simp only [branchOf, hjz, hassumed, if_true]
        cases fn.fusedWith i ins.name <;> exact Iff.rfl
      have hclear : fn.BranchClear bare asmTo i ins ↔
          ∀ j, fn.FirstLabel ins.name j → j = i + 1 := by
        simp only [BranchClear, branchOf, hjz, hassumed, if_true]
        cases fn.fusedWith i ins.name <;> simp
      rw [hclear]
      simp only [hgo]
      constructor
      · intro h j hj
        exact (h j hj.lt).mp (.inr hj)
      · intro h j _
        exact or_iff_left_of_imp (h j)
    · exact conditional_iff (.inl hjz) hins (by simp [branchOf, hjz, hassumed])
  by_cases hcjmp : ins.op = .cjmp
  · exact conditional_iff (.inr hcjmp) hins (by simp [branchOf, hcjmp])
  by_cases hloop : ins.op = .loop
  · have hcfg (j : Nat) : fn.CfgLeads i ins j ↔
        j < fn.insns.length ∧ (j = i + 1 ∨ fn.FirstLabel ins.name j) := by simp [CfgLeads, hloop]
    rw [plain_iff hins hcfg]
    simp only [BranchClear, branchOf, hloop, Goes]
    constructor
    · intro h j hj
      exact (h j hj.lt).mpr (.inr hj)
    · intro h j _
      exact ⟨fun hor => hor.imp_right FirstLabel.declares, fun hor => hor.elim .inl (h j)⟩
  by_cases hjmp : ins.op = .jmp
  · have hcfg (j : Nat) : fn.CfgLeads i ins j ↔
        j < fn.insns.length ∧ fn.FirstLabel ins.name j := by simp [CfgLeads, hjmp]
    rw [plain_iff hins hcfg]
    simp only [BranchClear, branchOf, hjmp, Goes]
    constructor
    · intro h j hj
      exact (h j hj.lt).mpr hj
    · intro h j _
      exact ⟨FirstLabel.declares, h j⟩
  by_cases hret : ins.op = .ret
  · have hcfg (j : Nat) : fn.CfgLeads i ins j ↔ j < fn.insns.length ∧ False := by
      simp [CfgLeads, hret]
    rw [plain_iff hins hcfg]
    cases bare with
    | false => simp [BranchClear, branchOf, hret, Goes]
    | true =>
      simp only [BranchClear, branchOf, hret, Goes, if_true, false_iff]
      constructor
      · intro h
        refine ⟨fun _ => ?_, fun h => by cases h⟩
        by_contra hne
        exact h (i + 1) (by omega) rfl
      · rintro ⟨h, -⟩ j hj rfl
        have := h trivial
        omega
  by_cases hleave : ins.op = .tailcall ∨ ins.op = .ntailcall ∨ ins.op = .gotoFn
  · have hcfg (j : Nat) : fn.CfgLeads i ins j ↔ j < fn.insns.length ∧ False := by
      rcases hleave with h | h | h <;> simp [CfgLeads, h]
    rw [plain_iff hins hcfg]
    rcases hleave with h | h | h <;> simp [BranchClear, branchOf, h, Goes]
  by_cases hasm : ins.op = .asm
  · have hcfg (j : Nat) : fn.CfgLeads i ins j ↔ j < fn.insns.length ∧ j = i + 1 := by
      simp [CfgLeads, hasm]
    rw [plain_iff hins hcfg]
    simp only [BranchClear, branchOf, hasm, Goes]
    exact forall₂_congr fun j _ => iff_comm
  -- every other instruction goes on behind itself
  have hcfg (j : Nat) : fn.CfgLeads i ins j ↔ j < fn.insns.length ∧ j = i + 1 := by
    unfold CfgLeads
    split <;> simp_all
  have hnone : fn.branchOf bare i ins = .none := by
    unfold branchOf
    split <;> simp_all
  rw [plain_iff hins hcfg, hnone]
  simp [BranchClear, hnone, Goes, hret, hjz]

/-! ## The graph -/

/-- An instruction inside a block does not end one. -/
theorem inside_cfgLeads {a : Nat} {ba : Block} (ha : fn.buildCfg[a]? = some ba)
    (hstart : ba.start ≤ i) (hstop : i + 1 < ba.stop) (hins : fn.insns[i]? = some ins) :
    fn.CfgLeads i ins j ↔ j < fn.insns.length ∧ j = i + 1 := by
  obtain ⟨k, hk, rfl⟩ := exists_leader_of_block ha
  have hnot : fn.isLeader (i + 1) = false :=
    not_leader_inside (Nat.lt_succ_of_le hstart) hstop
  have hop : ins.op.endsBlock = false := by
    simp only [isLeader, Nat.add_sub_cancel, hins, Option.any_some, Bool.or_eq_false_iff] at hnot
    exact hnot.2
  unfold CfgLeads
  split <;> simp_all [IrOp.endsBlock]

/-- The graph leads to the start of a block only. -/
theorem cfgLeads_start {a : Nat} {ba : Block} (ha : fn.buildCfg[a]? = some ba)
    (h : fn.CfgLeads (ba.stop - 1) ins j) : ∃ (b : Nat) (bb : Block),
    fn.buildCfg[b]? = some bb ∧ bb.start = j := by
  have hpos := start_lt_stop ha
  have hto : j = ba.stop - 1 + 1 ∨ fn.FirstLabel ins.name j := by
    obtain ⟨-, h⟩ := h
    revert h
    split <;> simp +contextual
  rcases hto with hj | hj
  · obtain ⟨i, hi, rfl⟩ := exists_leader_of_block ha
    have hj' : j = fn.blockStop i := by
      rw [hj]
      exact Nat.sub_add_cancel (by omega)
    exact leader_isStart h.1 (hj' ▸ stop_isLeader (hj' ▸ h.1))
  · exact leader_isStart h.1 hj.isLeader

/-- **When the graph is that of the emitted code**: when every instruction is clear. -/
theorem cfg_faithful_iff (fn : Func) (bare : Bool) (asmTo : Nat → Nat → Prop) :
    fn.CfgFaithful bare asmTo ↔
      ∀ i ins, fn.insns[i]? = some ins → fn.BranchClear bare asmTo i ins := by
  constructor
  · intro hfaith i ins hins
    rw [← clear_iff hins]
    have hi := (List.getElem?_eq_some_iff.mp hins).1
    obtain ⟨a, ba, ha, hle, hlt⟩ := exists_block hi
    intro j
    rcases Nat.lt_or_eq_of_le (Nat.succ_le_of_lt hlt) with hin | hend
    · rw [inside_cfgLeads ha hle hin hins, hfaith.inside a ba i ha hle hin j]
      constructor
      · exact And.right
      · rintro rfl
        exact ⟨by have := stop_le_length ha; omega, rfl⟩
    · obtain rfl : i = ba.stop - 1 := by omega
      constructor
      · intro h
        obtain ⟨b, bb, hb, rfl⟩ := cfgLeads_start ha h
        exact (hfaith.edges a b ba bb ha hb).mp ((succs_iff ha hb hins).mpr h)
      · intro h
        obtain ⟨b, bb, hb, rfl⟩ := hfaith.enters a ba j ha h
        exact (succs_iff ha hb hins).mp ((hfaith.edges a b ba bb ha hb).mpr h)
  · intro hclear
    have hends {a : Nat} {ba : Block} (ha : fn.buildCfg[a]? = some ba) : ∃ ins,
        fn.insns[ba.stop - 1]? = some ins ∧
          ∀ j, fn.CfgLeads (ba.stop - 1) ins j ↔ fn.Leads bare asmTo (ba.stop - 1) j := by
      have hlen : ba.stop - 1 < fn.insns.length := by
        have := start_lt_stop ha
        have := stop_le_length ha
        omega
      have hins := List.getElem?_eq_getElem hlen
      exact ⟨_, hins, (clear_iff hins).mpr (hclear _ _ hins)⟩
    refine ⟨fun bb h => (start_eq_zero_iff h).mpr rfl, fun b bb bc hb hc => ?_, fun b bb hb h =>
      stop_of_last hb h, fun i hi => blockOf_spec hi, fun a b ba bb ha hb => ?_,
      fun a ba j ha h => ?_, fun a ba i ha hle hlt j => ?_⟩
    · exact ((start_eq_stop_iff hb hc).mpr rfl).symm
    · obtain ⟨ins, hins, hiff⟩ := hends ha
      rw [succs_iff ha hb hins, hiff]
    · obtain ⟨ins, hins, hiff⟩ := hends ha
      exact cfgLeads_start ha ((hiff j).mpr h)
    · have hlen : i < fn.insns.length := by
        have := stop_le_length ha
        omega
      have hins := List.getElem?_eq_getElem hlen
      rw [← (clear_iff hins).mpr (hclear _ _ hins) j, inside_cfgLeads ha hle hlt hins]
      refine and_iff_right_of_imp ?_
      rintro rfl
      have := stop_le_length ha
      omega

/-- A bare function that returns early: `if (c) return;`. -/
def earlyReturn : Func :=
  { insns := [{ op := .jz, src1 := some 0, name := "L0" }, { op := .ret },
      { op := .label, name := "L0" }],
    nvregs := 1 }

/-- Nothing is printed for the `ret`, so that its block goes on with the next one. -/
theorem earlyReturn_not_faithful : ¬earlyReturn.CfgFaithful true (fun i j => j = i + 1) := by
  intro h
  have hleads : earlyReturn.Leads true (fun i j => j = i + 1) 1 2 :=
    ⟨by decide, _, rfl, rfl⟩
  have hedge := (h.edges 1 2 _ _ rfl rfl).mpr hleads
  revert hedge
  decide

end Nib.Bind.Func
