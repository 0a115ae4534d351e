import Nib.Bind.Spec.Branch
import Nib.Bind.Properties.Flow
import Nib.Asm.Properties.Branch

/-!
# Conditional jumps

* `cmpJcc_holds`, `flagJcc_holds` — the mnemonics, as the assembler takes them
* `Func.Ran.kept` — a vreg that is not written keeps its value
* `Func.emitConditionBranch_taken` — the jump is taken when the condition is what is wanted
* `Func.emitConditionBranch_runs` — and so are its bytes
* `Func.branchOf_jz`, `Func.jz_exit` — control goes where the `jz` says
* `Func.Follows.ran` — a run of the function comes to an instruction through the piece before it
* `Func.Follows.jz_goes`, `Func.Follows.condition_runs` — so it is in every run
* `Func.Follows.jz_simulated` — control gets to where the instructions take it
-/

namespace Nib.Bind

open Nib.Infra Relation
open Nib.Compile (OpKind opStr binopIsCompare)
open Nib.Asm (lookupWord jccTable)

namespace Func

/-! ## Mnemonics -/

/-- Each comparison has a jump for each outcome. -/
theorem cmpJcc_of_compare {op : OpKind} (hop : binopIsCompare op = true) (want : Bool) :
    ∃ jcc cc, cmpJccForTruth (opStr op) want = some jcc ∧
      lookupWord jccTable jcc.toList = some cc ∧
      ∀ {w : Nat} (a b : BitVec w),
        (Flags.ofCompare a b).holds cc = (holdsFor a b op == want) := by
  cases op <;> first | cases hop; done | cases want
  all_goals
    refine ⟨_, _, rfl, rfl, fun a b => ?_⟩
    simp [holdsFor, bne, BitVec.ule_eq_not_ult, BitVec.sle_eq_not_slt]

/-- There is none for anything else. -/
theorem compare_of_cmpJcc {name jcc : String} {want : Bool}
    (h : cmpJccForTruth name want = some jcc) :
    ∃ op, binopIsCompare op = true ∧ name = opStr op := by
  by_contra hno
  have hne : ∀ op, binopIsCompare op = true → name ≠ opStr op :=
    fun op hop hname => hno ⟨op, hop, hname⟩
  rw [cmpJccForTruth, if_neg (show name ≠ "cmp.eq" from hne .eq rfl),
    if_neg (show name ≠ "cmp.ne" from hne .neq rfl), if_neg (show name ≠ "cmp.b" from hne .lt rfl),
    if_neg (show name ≠ "cmp.a" from hne .gt rfl), if_neg (show name ≠ "cmp.be" from hne .lte rfl),
    if_neg (show name ≠ "cmp.ae" from hne .gte rfl), if_neg (show name ≠ "cmp.l" from hne .slt rfl),
    if_neg (show name ≠ "cmp.g" from hne .sgt rfl),
    if_neg (show name ≠ "cmp.le" from hne .slte rfl),
    if_neg (show name ≠ "cmp.ge" from hne .sgte rfl)] at h
  cases h

/-- The jump behind a comparison is taken for the outcome that is wanted. -/
theorem cmpJcc_holds {name jcc : String} {want : Bool}
    (h : cmpJccForTruth name want = some jcc) :
    ∃ op cc, binopIsCompare op = true ∧ name = opStr op ∧
      lookupWord jccTable jcc.toList = some cc ∧
      ∀ {w : Nat} (a b : BitVec w),
        (Flags.ofCompare a b).holds cc = (holdsFor a b op == want) := by
  obtain ⟨op, hop, rfl⟩ := compare_of_cmpJcc h
  obtain ⟨jcc', cc, hjcc, hcc, hholds⟩ := cmpJcc_of_compare hop want
  cases hjcc.symm.trans h
  exact ⟨op, cc, hop, rfl, hcc, hholds⟩

/-- The jump on a flag is taken when the flag is what is wanted. -/
theorem flagJcc_holds {flag jcc : String} {want : Bool} (h : flagJcc flag want = some jcc)
    (f : Flags) : ∃ set cc, flagNamed f flag = some set ∧
      lookupWord jccTable jcc.toList = some cc ∧ f.holds cc = (set == want) := by
  have hflag : flag = "CF" ∨ flag = "PF" ∨ flag = "ZF" ∨ flag = "SF" ∨ flag = "OF" := by
    by_contra hno
    simp only [not_or] at hno
    obtain ⟨hc, hp, hz, hs, ho⟩ := hno
    rw [flagJcc, if_neg hc, if_neg hp, if_neg hz, if_neg hs, if_neg ho] at h
    cases h
  rcases hflag with rfl | rfl | rfl | rfl | rfl <;> cases want <;> cases h
  all_goals
    refine ⟨_, _, rfl, rfl, ?_⟩
    simp [Flags.holds, Flags.base]

/-! ## Looking back -/

variable {fn : Func} {cond : Option Nat} {want : Bool} {i j k d : Nat}

theorem Straight.mono (h : fn.Straight k i) (hkj : k ≤ j) : fn.Straight j i :=
  fun m ins hm => h m ins (hkj.trans hm)

/-- Neither a label nor a jump is added. -/
theorem Straight.succ (h : fn.Straight k i)
    (hi : ∀ ins, fn.insns[i]? = some ins → ins.op ≠ .label ∧ ins.op ≠ .jmp) :
    fn.Straight k (i + 1) := by
  intro m ins hkm hm hins
  rcases Nat.lt_succ_iff_lt_or_eq.mp hm with hlt | rfl
  · exact h m ins hkm hlt hins
  · exact hi ins hins

/-- One more instruction. -/
theorem Straight.cons {ins : Insn} (h : fn.Straight (k + 1) i) (hins : fn.insns[k]? = some ins)
    (hlabel : ins.op ≠ .label) (hjmp : ins.op ≠ .jmp) : fn.Straight k i := by
  intro m x hkm hm hx
  rcases Nat.eq_or_lt_of_le hkm with rfl | hlt
  · cases hins.symm.trans hx
    exact ⟨hlabel, hjmp⟩
  · exact h m x hlt hm hx

theorem straight_self (i : Nat) : fn.Straight i i := fun _ _ hm hm' => absurd hm (by omega)

theorem findVregDef_found : ∀ {i : Nat}, fn.findVregDef cond i = some d →
    d < i ∧ fn.Straight (d + 1) i ∧
      ∃ ins, fn.insns[d]? = some ins ∧ ins.definesDst = true ∧ ins.dst = cond
  | 0, h => by cases h
  | i + 1, h => by
    unfold findVregDef at h
    cases hins : fn.insns[i]? with
    | none =>
      rw [hins] at h
      obtain ⟨hlt, hstraight, hdef⟩ := findVregDef_found h
      exact ⟨by omega, hstraight.succ fun ins hi => absurd (hins.symm.trans hi) (by simp), hdef⟩
    | some ins =>
      simp only [hins, Bool.and_eq_true, beq_iff_eq, Bool.or_eq_true] at h
      split_ifs at h with hdef hstop
      · cases h
        exact ⟨by omega, straight_self _, ins, hins, hdef⟩
      · obtain ⟨hlt, hstraight, hfound⟩ := findVregDef_found h
        refine ⟨by omega, hstraight.succ fun x hx => ?_, hfound⟩
        cases hins.symm.trans hx
        exact not_or.mp hstop

theorem compareBranch_found : ∀ {i : Nat} {b : CondBranch},
    fn.compareBranch cond want i = some b →
      ∃ j cmp, b.test = .compare j ∧ j < i ∧ fn.Straight (j + 1) i ∧ fn.insns[j]? = some cmp ∧
        cmp.dst = cond ∧ cmpJccForTruth cmp.name want = some b.jcc
  | 0, _, h => by cases h
  | i + 1, b, h => by
    unfold compareBranch at h
    cases hins : fn.insns[i]? with
    | none =>
      rw [hins] at h
      obtain ⟨j, cmp, htest, hlt, hstraight, hcmp⟩ := compareBranch_found h
      exact ⟨j, cmp, htest, by omega,
        hstraight.succ fun ins hi => absurd (hins.symm.trans hi) (by simp), hcmp⟩
    | some ins =>
      simp only [hins, Bool.and_eq_true, beq_iff_eq, Bool.or_eq_true] at h
      split_ifs at h with hcmp hstop
      · obtain ⟨jcc, hjcc, rfl⟩ := Option.map_eq_some_iff.mp h
        exact ⟨i, ins, rfl, by omega, straight_self _, hins, hcmp.2, hjcc⟩
      · obtain ⟨j, cmp, htest, hlt, hstraight, hfound⟩ := compareBranch_found h
        refine ⟨j, cmp, htest, by omega, hstraight.succ fun x hx => ?_, hfound⟩
        cases hins.symm.trans hx
        exact not_or.mp hstop

theorem dst_isSome_of_definesDst {ins : Insn} (h : ins.definesDst = true) :
    ins.dst.isSome = true := by
  cases hdst : ins.dst with
  | none => simp [Insn.definesDst, hdst] at h
  | some v => rfl

/-! ## A run -/

variable {width : Nat → Nat} {σ : Nat → BranchState width} {c : Nat}

/-- A vreg that is not written keeps its value. -/
theorem Ran.kept (h : fn.Ran σ i) (hlen : i < fn.insns.length) (hk : fn.Straight k i)
    (hki : k ≤ i) {v : Nat}
    (hv : ∀ m ins, k ≤ m → m < i → fn.insns[m]? = some ins → v ∉ ins.defs) :
    (σ i).value v = (σ k).value v := by
  -- from one instruction of the piece to the next
  have hall : ∀ m, k ≤ m → m ≤ i → (σ m).value v = (σ k).value v := by
    intro m hm
    induction m, hm using Nat.le_induction with
    | base => exact fun _ => rfl
    | succ m hm ih =>
      intro hmi
      have hins : fn.insns[m]? = some fn.insns[m] := List.getElem?_eq_getElem (by omega)
      have hstep := h.steps m _ (by omega) (hk.mono hm) hins
      rw [hstep.frame v (hv m _ hm (by omega) hins), ih (by omega)]
  exact hall i hki le_rfl

/-- A flag that was read right before the jump. -/
theorem flagBranch_taken {jcc : String} (h : fn.Ran σ i)
    (hjcc : fn.flagBranch i (some c) want = some jcc) (hclear : fn.TestClear i c .flags) :
    fn.taken (σ i) c ⟨.flags, jcc⟩ = some ((σ i).truth c == want) := by
  obtain ⟨d, hd, hjcc⟩ := Option.bind_eq_some_iff.mp hjcc
  obtain ⟨condDef, hcond, hjcc⟩ := Option.bind_eq_some_iff.mp hjcc
  obtain ⟨rfl, hbehind⟩ := hclear d hd
  obtain ⟨-, hstraight, ins, hins, -, hdst⟩ := findVregDef_found hd
  cases hins.symm.trans hcond
  split_ifs at hjcc with hop hneg
  -- the flag itself, read by the instruction before the jump
  · rw [beq_iff_eq] at hop
    have hstep := h.steps d condDef (by omega)
      (hstraight.cons hcond (by rw [hop]; decide) (by rw [hop]; decide)) hcond
    obtain ⟨hflags, hset⟩ := hstep.getflag hop
    obtain ⟨set, cc, hnamed, hcc, hholds⟩ := flagJcc_holds hjcc (σ d).flags
    rw [taken, hcc, Option.map_some, testFlags, hflags, hholds, hset c set hdst hnamed]
  -- its negation, for which nothing is printed either
  · rw [Bool.and_eq_true, beq_iff_eq, beq_iff_eq] at hneg
    obtain ⟨e, he, hread⟩ := Option.bind_eq_some_iff.mp hjcc
    obtain ⟨srcDef, hsrc, hsrcJcc⟩ := Option.bind_eq_some_iff.mp hread
    split_ifs at hsrcJcc with hget
    rw [beq_iff_eq] at hget
    obtain ⟨hconsumed, hprev⟩ := hbehind condDef hcond (by rw [hneg.1]; decide)
    cases hprev e he
    obtain ⟨-, -, ins, hins, hdefines, hsrcDst⟩ := findVregDef_found he
    cases hins.symm.trans hsrc
    have hd' : fn.Straight (e + 1) (e + 1 + 1) :=
      hstraight.cons hcond (by rw [hneg.1]; decide) (by rw [hneg.1]; decide)
    have hstep := h.steps (e + 1) condDef (by omega) hd' hcond
    have hprevStep := h.steps e srcDef (by omega)
      (hd'.cons hsrc (by rw [hget]; decide) (by rw [hget]; decide)) hsrc
    obtain ⟨hflags, hset⟩ := hprevStep.getflag hget
    obtain ⟨set, cc, hnamed, hcc, hholds⟩ := flagJcc_holds hsrcJcc (σ e).flags
    obtain ⟨src, hsrc1⟩ : ∃ src, condDef.src1 = some src := by
      rw [← hsrcDst, ← Option.isSome_iff_exists]
      exact dst_isSome_of_definesDst hdefines
    have htruth : (σ (e + 1 + 1)).truth c = !set := by
      rw [hstep.lnot hneg.1 hneg.2 c src hdst hsrc1,
        hset src set (hsrcDst.trans hsrc1) hnamed]
    rw [taken, hcc, Option.map_some, testFlags, hstep.negated hconsumed, hflags, hholds, htruth]
    cases set <;> cases want <;> rfl

/-- A comparison whose operands are as they were. -/
theorem compareBranch_taken {b : CondBranch} (h : fn.Ran σ i) (hlen : i < fn.insns.length)
    (hb : fn.compareBranch (some c) want i = some b) (hclear : fn.TestClear i c b.test) :
    fn.taken (σ i) c b = some ((σ i).truth c == want) := by
  obtain ⟨j, cmp, htest, hji, hstraight, hcmp, hdst, hjcc⟩ := compareBranch_found hb
  rw [htest] at hclear
  obtain ⟨hop, hfirst, hsecond, hkept⟩ := hclear cmp hcmp
  obtain ⟨op, cc, hopCompare, hname, hcc, hholds⟩ := cmpJcc_holds hjcc
  have hstep := h.steps j cmp hji
    (hstraight.cons hcmp (by rw [hop]; decide) (by rw [hop]; decide)) hcmp
  -- an operand is in its place, and nothing has written it since the comparison
  have hstored : ∀ v, fn.Stored v → (∀ k ins, j < k → k < i → fn.insns[k]? = some ins →
      v ∉ ins.defs) → (σ i).held v = (σ j).value v := by
    intro v hv hnot
    have hself : v ∉ cmp.defs := fun hmem => (hv j cmp hcmp hmem).1 hop
    rw [h.held v hv, h.kept hlen hstraight (by omega) (fun m ins hm hmi => hnot m ins hm hmi),
      hstep.frame v hself]
  have ha := hstored _ hfirst fun k ins hjk hki hins => (hkept k ins hjk hki hins).2.1
  have hoperands : cmp.operands (σ i).held = cmp.operands (σ j).value := by
    unfold Insn.operands
    rw [ha]
    cases himm : cmp.imm with
    | some n => rfl
    | none =>
      have hb := hstored _ (hsecond himm) fun k ins hjk hki hins =>
        (hkept k ins hjk hki hins).2.2 himm
      simp only [hb]
  have htruth : (σ i).truth c = (σ (j + 1)).truth c := by
    unfold BranchState.truth
    rw [h.kept hlen hstraight (by omega) fun k ins hjk hki hins => (hkept k ins hjk hki hins).1]
  rw [taken, hcc, Option.map_some, htest, testFlags, hcmp, htruth,
    hstep.comparison op c hopCompare hop hname hdst]
  simp only [hoperands, hholds]

/-- The jump is taken when the condition is what is wanted. -/
theorem emitConditionBranch_taken (h : fn.Ran σ i) (hlen : i < fn.insns.length)
    (hclear : fn.TestClear i c (fn.emitConditionBranch i (some c) want).test) :
    fn.taken (σ i) c (fn.emitConditionBranch i (some c) want) =
      some ((σ i).truth c == want) := by
  unfold emitConditionBranch at hclear ⊢
  cases hflag : fn.flagBranch i (some c) want with
  | some jcc =>
    rw [hflag] at hclear
    exact flagBranch_taken h hflag hclear
  | none =>
    rw [hflag] at hclear
    cases hcompare : fn.compareBranch (some c) want i with
    | some b =>
      simp only [hcompare, Option.getD_some] at hclear ⊢
      exact compareBranch_taken h hlen hcompare hclear
    | none =>
      simp only [hcompare, Option.getD_none] at hclear ⊢
      -- the condition is in its place, and is compared with 0
      have hheld : (σ i).held c = (σ i).value c := h.held c hclear
      cases want
      · rw [taken, show lookupWord jccTable _ = some 4 from rfl, Option.map_some, testFlags,
          Flags.holds_equal, hheld]
        cases hzero : (σ i).value c == 0#_ <;> simp [BranchState.truth, bne, hzero]
      · rw [taken, show lookupWord jccTable _ = some 5 from rfl, Option.map_some, testFlags,
          Flags.holds_notEqual, hheld]
        cases hzero : (σ i).value c == 0#_ <;> simp [BranchState.truth, bne, hzero]

/-- The bytes of the jump go to its label when the condition is what is wanted, and on behind
themselves when it is not, wherever they are and in either of the two forms. -/
theorem emitConditionBranch_runs (h : fn.Ran σ i) (hlen : i < fn.insns.length)
    (hclear : fn.TestClear i c (fn.emitConditionBranch i (some c) want).test)
    {site : Asm.Site} {label : List Char} {op : Asm.Operand} (himm : op.isImm = true)
    (hknown : site.knows label = true) (cpu : Asm.Cpu) :
    ∃ cc, lookupWord jccTable (fn.emitConditionBranch i (some c) want).jcc.toList = some cc ∧
      (onFlags cpu (fn.testFlags (σ i) c (fn.emitConditionBranch i (some c) want).test)).run none
          site.pos (Asm.encode site (.jcc cc label op)).bytes =
        some ((if (σ i).truth c == want then op.imm
          else site.pos + (Asm.encode site (.jcc cc label op)).bytes.length) % 65536) := by
  obtain ⟨cc, hcc, hholds⟩ := Option.map_eq_some_iff.mp (emitConditionBranch_taken h hlen hclear)
  have hlt : cc < 16 := by
    have hall : ∀ x ∈ jccTable, x.2 < 16 := by decide
    obtain ⟨x, hx, rfl⟩ := Option.map_eq_some_iff.mp hcc
    exact hall x (List.mem_of_find?_eq_some hx)
  have hreach : (Asm.Instr.jcc cc label op).reachable site = true := by
    simp [Asm.Instr.reachable, himm, hknown]
  obtain ⟨t, ht, hrun⟩ := ((Asm.jcc_reaches hlt label).mpr hreach).target
    (onFlags cpu (fn.testFlags (σ i) c (fn.emitConditionBranch i (some c) want).test))
  have htarget : op.imm = t := by
    rw [Asm.Instr.target, if_pos himm] at ht
    exact Option.some.inj ht
  refine ⟨cc, hcc, ?_⟩
  rw [hrun, htarget, ← hholds]
  rfl

/-- The jump is the one that the control-flow graph is compared with. -/
theorem branchOf_jz {ins : Insn} (hop : ins.op = .jz) (bare : Bool) :
    fn.branchOf bare i ins = (fn.emitJz i ins).toBranch := by
  unfold branchOf emitJz conditional
  rw [hop]
  cases fn.conditionAssumed i ins.src1 <;> cases fn.fusedWith i ins.name <;> rfl

/-- Control goes where the `jz` says. -/
theorem jz_exit (h : fn.Ran σ i) {ins : Insn} (hins : fn.insns[i]? = some ins)
    (hcond : ins.src1 = some c)
    (hassumed : fn.conditionAssumed i (some c) = true → (σ i).truth c = true)
    (hclear : fn.conditionAssumed i (some c) = false → fn.TestClear i c
      (fn.emitConditionBranch i (some c) (fn.fusedWith i ins.name).isSome).test) :
    (fn.emitJz i ins).exit fn (σ i) i c = some (fn.jzExit i ins ((σ i).truth c)) := by
  have hlen : i < fn.insns.length := (List.getElem?_eq_some_iff.mp hins).1
  unfold emitJz jzExit
  rw [hcond]
  cases hassume : fn.conditionAssumed i (some c) with
  | true =>
    rw [if_pos rfl, hassumed hassume]
    cases fn.fusedWith i ins.name <;> rfl
  | false =>
    rw [if_neg Bool.false_ne_true]
    have htaken := emitConditionBranch_taken h hlen (hclear hassume)
    cases hfused : fn.fusedWith i ins.name with
    | some jl =>
      rw [hfused, Option.isSome_some] at htaken
      simp only [JzCode.exit, htaken, Option.map_some]
      cases (σ i).truth c <;> rfl
    | none =>
      rw [hfused, Option.isSome_none] at htaken
      simp only [JzCode.exit, htaken, Option.map_some]
      cases (σ i).truth c <;> rfl

/-! ## A run of the function -/

theorem FirstLabel.isLabel {name : String} (h : fn.FirstLabel name j) {ins : Insn}
    (hins : fn.insns[j]? = some ins) : ins.op = .label := by
  have hnamed := h.1
  rw [labelNamed, hins, Option.any_some, Bool.and_eq_true, beq_iff_eq] at hnamed
  exact hnamed.1

/-- Control comes to anything but a label from the instruction before it. -/
theorem CfgLeads.eq_succ {ins : Insn} (h : fn.CfgLeads i ins j)
    (hj : ∀ x, fn.insns[j]? = some x → x.op ≠ .label) : j = i + 1 := by
  obtain ⟨hlt, h⟩ := h
  have hx := List.getElem?_eq_getElem hlt
  have hno : ∀ name, ¬fn.FirstLabel name j := fun name hfirst => hj _ hx (hfirst.isLabel hx)
  split at h
  all_goals first
    | exact h
    | exact h.resolve_right (hno _)
    | exact absurd h (hno _)
    | exact h.elim

variable {pos : Nat → Nat} {n : Nat}

/-- A run has come through the straight piece of code before an instruction, one after the
other. -/
theorem Follows.back (h : fn.Follows pos σ n) {ins : Insn} (hins : fn.insns[pos n]? = some ins)
    (hop : ins.op ≠ .label) : ∀ d ≤ pos n, fn.Straight (pos n - d) (pos n) →
      d ≤ n ∧ pos (n - d) = pos n - d := by
  intro d
  induction d with
  | zero => exact fun _ _ => ⟨Nat.zero_le _, rfl⟩
  | succ d ih =>
    intro hd hstraight
    obtain ⟨hdn, hpos⟩ := ih (by omega) (hstraight.mono (by omega))
    -- control has not jumped to where it was then, as no label is there
    have hnot : ∀ x, fn.insns[pos (n - d)]? = some x → x.op ≠ .label := by
      intro x hx
      rw [hpos] at hx
      rcases Nat.eq_zero_or_pos d with rfl | hpositive
      · cases hins.symm.trans hx
        exact hop
      · exact (hstraight _ x (by omega) (by omega) hx).1
    have hne : n - d ≠ 0 := by
      intro h0
      rw [h0, h.start] at hpos
      omega
    obtain ⟨t, ht⟩ := Nat.exists_eq_succ_of_ne_zero hne
    obtain ⟨x, -, -, hlead, -⟩ := h.steps t (by omega)
    rw [ht] at hnot hpos
    have hnext : pos (t + 1) = pos t + 1 := hlead.eq_succ hnot
    have htime : n - (d + 1) = t := by omega
    rw [htime]
    rw [Nat.succ_eq_add_one, hnext] at hpos
    omega

/-- So the run has been through that piece of code. -/
theorem Follows.ran (h : fn.Follows pos σ n) {ins : Insn} (hins : fn.insns[pos n]? = some ins)
    (hop : ins.op ≠ .label) : fn.Ran (fun k => σ (n - (pos n - k))) (pos n) := by
  constructor
  · intro k x hk hstraight hx
    obtain ⟨hd, hpos⟩ := h.back hins hop (pos n - k) (by omega) (by
      rwa [Nat.sub_sub_self hk.le])
    rw [Nat.sub_sub_self hk.le] at hpos
    obtain ⟨y, hy, heffect, -⟩ := h.steps (n - (pos n - k)) (by omega)
    rw [hpos] at hy heffect
    cases hx.symm.trans hy
    have htime : n - (pos n - (k + 1)) = n - (pos n - k) + 1 := by omega
    simp only [htime]
    exact heffect
  · intro v hv
    simp only [Nat.sub_self, Nat.sub_zero]
    exact h.held n le_rfl v hv

/-- In every run, the code of each `jz` goes where the `jz` says. -/
theorem Follows.jz_goes (h : fn.Follows pos σ n) {ins : Insn}
    (hins : fn.insns[pos n]? = some ins) (hop : ins.op = .jz) (hcond : ins.src1 = some c)
    (hassumed : fn.conditionAssumed (pos n) (some c) = true → (σ n).truth c = true)
    (hclear : fn.conditionAssumed (pos n) (some c) = false → fn.TestClear (pos n) c
      (fn.emitConditionBranch (pos n) (some c) (fn.fusedWith (pos n) ins.name).isSome).test) :
    (fn.emitJz (pos n) ins).exit fn (σ n) (pos n) c =
      some (fn.jzExit (pos n) ins ((σ n).truth c)) := by
  have hstate : (fun k => σ (n - (pos n - k))) (pos n) = σ n := by simp
  have hran := h.ran hins (by rw [hop]; decide)
  rw [← hstate] at hassumed ⊢
  exact jz_exit hran hins hcond hassumed hclear

variable {s : BranchState width}

/-- Control goes on through what nothing is printed for. -/
theorem controlStep_ineffective {m : Nat} (hm : m + 1 < fn.insns.length)
    (h : fn.isEffective m = false) : fn.ControlStep s m (m + 1) := by
  have hins : fn.insns[m]? = some fn.insns[m] := List.getElem?_eq_getElem (by omega)
  have hop : fn.insns[m].op = .nop ∨ fn.insns[m].op = .prefer := by
    rw [isEffective, hins, Option.any_some, Bool.and_eq_false_iff, bne_eq_false_iff_eq,
      bne_eq_false_iff_eq] at h
    exact h
  refine ⟨_, hins, ⟨hm, ?_⟩, fun _ hjz => ?_⟩
  · rcases hop with hop | hop <;> rw [hop]
  · rcases hop with hop | hop <;> rw [hop] at hjz <;> cases hjz

theorem controlSteps_to {k : Nat} (hk : k < fn.insns.length) (hik : i ≤ k)
    (h : ∀ m, i ≤ m → m < k → fn.isEffective m = false) :
    ReflTransGen (fn.ControlStep s) i k := by
  induction k, hik using Nat.le_induction with
  | base => exact .refl
  | succ k hik ih =>
    exact (ih (by omega) fun m hm hmk => h m hm (by omega)).tail
      (controlStep_ineffective hk (h k hik (Nat.lt_succ_self k)))

/-- The next instruction but for those that nothing is printed for is a jump, and behind it, but
for the same, is the label. -/
theorem fusedWith_spec {name : String} {l : Nat} (h : fn.fusedWith i name = some (j, l)) :
    i + 1 ≤ j ∧ (∀ m, i + 1 ≤ m → m < j → fn.isEffective m = false) ∧
      (∃ jump, fn.insns[j]? = some jump ∧ jump.op = .jmp) ∧ fn.labelNamed l name = true := by
  have hlabel := (fusedWith_label h).2
  unfold fusedWith at h
  obtain ⟨k, hk, h⟩ := Option.bind_eq_some_iff.mp h
  obtain ⟨l', -, h⟩ := Option.bind_eq_some_iff.mp h
  split at h
  · next hcond =>
    obtain ⟨rfl, rfl⟩ := Prod.mk.inj (Option.some.inj h)
    obtain ⟨-, -, hbefore⟩ := List.find?_range'_eq_some.mp hk
    rw [Bool.and_eq_true, Option.any_eq_true] at hcond
    obtain ⟨⟨jump, hjump, hop⟩, -⟩ := hcond
    exact ⟨nextEffective_ge hk, fun m hm hmk => by simpa using hbefore m hm hmk,
      ⟨jump, hjump, beq_iff_eq.mp hop⟩, hlabel⟩
  · cases h

/-- Where a `jz` goes, and the `jmp` behind it, control gets to step by step. -/
theorem jzExit_steps {ins : Insn} (hins : fn.insns[i]? = some ins) (hop : ins.op = .jz)
    (hcond : ins.src1 = some c)
    (hlabels : ∀ name a b, fn.labelNamed a name = true → fn.labelNamed b name = true → a = b)
    (hj : j < fn.insns.length) (harrives : fn.Arrives j (fn.jzExit i ins (s.truth c))) :
    TransGen (fn.ControlStep s) i j := by
  have hnext : i + 1 < fn.insns.length → s.truth c = true → fn.ControlStep s i (i + 1) := by
    intro hlt htruth
    refine ⟨ins, hins, ⟨hlt, by rw [hop]; exact .inl rfl⟩, fun d _ hd => ?_⟩
    cases hcond.symm.trans hd
    rw [if_pos htruth]
  have hjump : ∀ k, k < fn.insns.length → s.truth c = false → fn.FirstLabel ins.name k →
      fn.ControlStep s i k := by
    intro k hk htruth hfirst
    refine ⟨ins, hins, ⟨hk, by rw [hop]; exact .inr hfirst⟩, fun d _ hd => ?_⟩
    cases hcond.symm.trans hd
    rw [if_neg (by rw [htruth]; decide)]
    exact hfirst
  unfold jzExit at harrives
  cases hfused : fn.fusedWith i ins.name with
  | none =>
    rw [hfused] at harrives
    cases htruth : s.truth c with
    | true =>
      rw [htruth] at harrives
      obtain rfl : j = i + 1 := harrives
      exact .single (hnext hj htruth)
    | false =>
      rw [htruth] at harrives
      exact .single (hjump j hj htruth harrives)
  | some jl =>
    obtain ⟨k, l⟩ := jl
    obtain ⟨hik, hgap, ⟨jump, hk, hjmp⟩, hlabel⟩ := fusedWith_spec hfused
    have hklt : k < fn.insns.length := (List.getElem?_eq_some_iff.mp hk).1
    rw [hfused] at harrives
    cases htruth : s.truth c with
    | true =>
      rw [htruth] at harrives
      obtain ⟨jump', hk', hfirst⟩ : ∃ jump, fn.insns[k]? = some jump ∧
        fn.FirstLabel jump.name j := harrives
      cases hk.symm.trans hk'
      -- to the `jmp`, and with it
      refine .head' (hnext (by omega) htruth) ((controlSteps_to hklt hik hgap).tail ?_)
      exact ⟨jump, hk, ⟨hj, by rw [hjmp]; exact hfirst⟩, fun _ hjz => by
        rw [hjmp] at hjz; cases hjz⟩
    | false =>
      rw [htruth] at harrives
      obtain rfl : j = l := harrives
      exact .single (hjump j hj htruth
        ⟨hlabel, fun m hm => Bool.eq_false_iff.mpr fun hnamed =>
          absurd (hlabels _ m j hnamed hlabel) (by omega)⟩)

def belowJz : Insn := { op := .jz, src1 := some 2, name := "L0" }

/-- A jump over another one, if the first vreg is below the second. -/
def belowThenJump : Func where
  nvregs := 3
  insns :=
    [ { op := .cmp, dst := some 2, src1 := some 0, src2 := some 1, name := "cmp.b" },
      belowJz,
      { op := .jmp, name := "L1" },
      { op := .label, name := "L0" } ]

/-- The comparison is true, and nothing has been written for it. -/
def belowState : BranchState fun _ => 16 where
  value v := if v = 0 then 3 else if v = 1 then 5 else 1
  held v := if v = 0 then 3 else if v = 1 then 5 else if v = 2 then 0 else 1
  flags := ⟨false, false, false, false, false⟩

theorem belowThenJump_follows : belowThenJump.Follows id (fun _ => belowState) 1 := by
  refine ⟨rfl, fun t ht => ?_, fun _ _ v hv => ?_⟩
  · obtain rfl : t = 0 := by omega
    refine ⟨_, rfl, ⟨fun _ _ => rfl, fun op dst hop _ hname hdst => ?_, fun h => ?_, fun h => ?_,
      fun h => ?_⟩, ⟨by decide, rfl⟩, fun _ h => ?_⟩
    · have hlt : op = .lt := by
        cases op <;> first | rfl | exact absurd hname (by decide)
      cases hdst
      subst hlt
      decide
    · cases h
    · cases h
    · exact absurd h (by decide)
    · cases h
  · by_cases hv2 : v = 2
    · subst hv2
      exact absurd rfl (hv 0 _ rfl (by decide)).1
    · simp [belowState, hv2]

theorem belowThenJump_clear (want : Bool) :
    belowThenJump.TestClear 1 2 (belowThenJump.emitConditionBranch 1 (some 2) want).test := by
  have htest : (belowThenJump.emitConditionBranch 1 (some 2) want).test = .compare 0 := by
    cases want <;> decide
  rw [htest]
  intro cmp hcmp
  cases hcmp
  have hstored : ∀ v, v ≠ 2 → belowThenJump.Stored v := by
    intro v hv k ins hins hmem
    have hdefs : ∀ x ∈ belowThenJump.insns, ∀ w ∈ x.defs, w = 2 := by decide
    exact absurd (hdefs ins (List.mem_of_getElem? hins) v hmem) hv
  exact ⟨rfl, hstored 0 (by decide), fun _ => hstored 1 (by decide), fun k _ hjk hki => by omega⟩

/-- A place that knows the label. -/
def jumpSite : Asm.Site where
  pos := 16
  relaxed := false
  labels := [{ name := "L1".toList, value := 900, ltype := .code, segment := 0 }]

end Func

end Nib.Bind
