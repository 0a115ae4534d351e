import Nib.Bind.Spec.FlagInsns
import Nib.Bind.Properties.Flow

/-!
# Flags that are what they are assigned

* `next_of_leads` — straight code is entered from above
* `known_step`, `reached_known` — what a run knows of vregs and flags
* `settled_flags` — settled assignments
-/

namespace Nib.Bind.Func

variable {fn : Func} {isByte : Nat → Bool} {bare : Bool} {asmTo : Nat → Nat → Prop}
  {s t : FlagState} {ins : Insn} {i j v : Nat}

/-! ## Definitions -/

theorem definesDst_of (hdst : ins.dst = some v) (h : ins.op = .mov ∨ ins.op = .getflag ∨
    ins.op = .unary) : ins.definesDst = true := by
  unfold Insn.definesDst
  rw [hdst]
  rcases h with h | h | h <;> simp [h]

theorem findVregDef_self (hins : fn.insns[j]? = some ins) (hdef : ins.definesDst = true)
    (hdst : ins.dst = some v) : fn.findVregDef (some v) (j + 1) = some j := by
  rw [findVregDef, hins]
  simp [hdef, hdst]

theorem findVregDef_pass (hins : fn.insns[j]? = some ins) (hdst : ins.dst ≠ some v)
    (hop : ins.op ≠ .label ∧ ins.op ≠ .jmp) :
    fn.findVregDef (some v) (j + 1) = fn.findVregDef (some v) j := by
  rw [findVregDef, hins]
  simp [hdst, hop]

/-- The definition that is found, or else what was found before. -/
theorem findVregDef_succ (hins : fn.insns[i]? = some ins)
    (h : fn.findVregDef (some v) (i + 1) = some j) :
    j = i ∧ ins.definesDst = true ∧ ins.dst = some v ∨
      fn.findVregDef (some v) i = some j ∧ ins.op ≠ .label ∧ ins.op ≠ .jmp ∧
        ¬(ins.definesDst = true ∧ ins.dst = some v) := by
  rw [findVregDef, hins] at h
  dsimp only at h
  split at h
  · rename_i hdef
    obtain rfl := Option.some.inj h
    exact .inl ⟨rfl, by simpa using hdef⟩
  · rename_i hdef
    split at h
    · cases h
    · rename_i hop
      simp only [Bool.or_eq_true, beq_iff_eq, not_or] at hop
      exact .inr ⟨h, hop.1, hop.2, by simpa using hdef⟩

theorem findVregDef_lt : ∀ {i : Nat}, fn.findVregDef (some v) i = some j → j < i
  | 0, h => nomatch h
  | i + 1, h => by
    rw [findVregDef] at h
    split at h
    · exact Nat.lt_succ_of_lt (findVregDef_lt h)
    · split at h
      · obtain rfl := Option.some.inj h
        exact Nat.lt_succ_self _
      · split at h
        · cases h
        · exact Nat.lt_succ_of_lt (findVregDef_lt h)

/-- The loop over the constants stops where the definition is. -/
theorem lastConst_of_found {d : Insn} {n : Int} (hd : fn.insns[j]? = some d) (hop : d.op = .mov)
    (himm : d.imm = some n) : ∀ {i : Nat}, fn.findVregDef (some v) i = some j →
      fn.lastConst v i = some n
  | 0, h => nomatch h
  | i + 1, h => by
    rw [lastConst]
    cases hins : fn.insns[i]? with
    | none =>
      rw [findVregDef, hins] at h
      exact lastConst_of_found hd hop himm h
    | some ins =>
      rcases findVregDef_succ hins h with ⟨rfl, -, hdst⟩ | ⟨hfound, -, -, hdef⟩
      · obtain rfl : ins = d := Option.some.inj (hins.symm.trans hd)
        simp [hdst, hop, himm]
      · have hmov : ¬(ins.dst = some v ∧ ins.op = .mov) := by
          rintro ⟨hdst, hmov⟩
          exact hdef ⟨definesDst_of hdst (.inl hmov), hdst⟩
        dsimp only
        rw [if_neg (by simpa using fun h1 h2 => absurd ⟨h1, h2⟩ hmov)]
        exact lastConst_of_found hd hop himm hfound

/-! ## Straight code -/

theorem not_isLabel (hins : fn.insns[i]? = some ins) (h : ins.op ≠ .label) : ¬fn.IsLabel i := by
  rintro ⟨ins', hins', hlabel⟩
  obtain rfl : ins = ins' := Option.some.inj (hins.symm.trans hins')
  exact h hlabel

theorem isLabel_of_named {target : String} (h : fn.labelNamed j target = true) : fn.IsLabel j := by
  unfold labelNamed at h
  obtain ⟨ins, hins, hlabel⟩ := Option.any_eq_true _ _ |>.mp h
  simp only [Bool.and_eq_true, beq_iff_eq] at hlabel
  exact ⟨ins, hins, hlabel.1⟩

theorem conditional_fused {target : String} {jump behind : Nat}
    (h : fn.conditional i target = .fused jump behind) : fn.IsLabel behind := by
  unfold conditional at h
  cases hf : fn.fusedWith i target with
  | none =>
    rw [hf] at h
    cases h
  | some p =>
    rw [hf] at h
    obtain ⟨rfl, rfl⟩ := Branch.fused.inj h
    exact isLabel_of_named (fusedWith_label hf).2

theorem branchOf_fused {jump behind : Nat} (h : fn.branchOf bare i ins = .fused jump behind) :
    fn.IsLabel behind := by
  unfold branchOf at h
  split at h
  · split at h
    · split at h <;> cases h
    · exact conditional_fused h
  · exact conditional_fused h
  · cases h
  · cases h
  · split at h <;> cases h
  all_goals cases h

/-- **Straight code is entered from above.** -/
theorem next_of_leads (hasm : fn.AsmStays asmTo) (h : fn.Leads bare asmTo i j) :
    j = i + 1 ∨ fn.IsLabel j := by
  obtain ⟨-, ins, hins, hgoes⟩ := h
  have hdeclares {target : String} (h : fn.Declares j target) : fn.IsLabel j := by
    obtain ⟨ins, hins, hop, -⟩ := h
    exact ⟨ins, hins, hop⟩
  cases hbranch : fn.branchOf bare i ins with
  | none =>
    rw [hbranch] at hgoes
    exact .inl hgoes
  | leave =>
    rw [hbranch] at hgoes
    exact hgoes.elim
  | jmp target =>
    rw [hbranch] at hgoes
    exact .inr (hdeclares hgoes)
  | jcc target =>
    rw [hbranch] at hgoes
    exact hgoes.imp_right hdeclares
  | fused jump behind =>
    rw [hbranch] at hgoes
    rcases hgoes with hnext | rfl
    · exact .inl hnext
    · exact .inr (branchOf_fused hbranch)
  | fusedAlways jump =>
    rw [hbranch] at hgoes
    exact .inl hgoes
  | text =>
    rw [hbranch] at hgoes
    exact hasm i j hgoes

/-! ## What a run knows -/

/-- What is known of the vregs at an instruction that is not entered by a jump. -/
structure Known (fn : Func) (isByte : Nat → Bool) (s : FlagState) : Prop where
  const : ∀ v j d n, fn.findVregDef (some v) s.pc = some j → fn.insns[j]? = some d → d.op = .mov →
    d.imm = some n → (∀ k c, j < k → k < s.pc → fn.insns[k]? = some c → v ∉ c.defs) →
    s.vreg v = constIn isByte v n
  flag : ∀ j d v, s.pc = j + 1 → fn.insns[j]? = some d → d.op = .getflag → d.dst = some v →
    s.vreg v = if s.flags d.name then 1 else 0
  negated : ∀ j g d v w, s.pc = j + 2 → fn.insns[j]? = some g → g.op = .getflag →
    g.dst = some w → fn.insns[j + 1]? = some d → fn.lnotGetflagConsumed (j + 1) d = true →
    d.src1 = some w → d.dst = some v → s.vreg v = if s.flags g.name then 0 else 1

theorem isNegation_of_consumed (h : fn.lnotGetflagConsumed i ins = true) :
    ins.isNegation = true := by
  unfold lnotGetflagConsumed at h
  exact (Bool.and_eq_true _ _ ▸ h).1

theorem unary_of_negation (h : ins.isNegation = true) : ins.op = .unary := by
  unfold Insn.isNegation at h
  simp only [Bool.and_eq_true, beq_iff_eq] at h
  exact h.1

theorem known_step (hknown : ¬fn.IsLabel s.pc → fn.Known isByte s)
    (hins : fn.insns[s.pc]? = some ins) (hacts : fn.Acts isByte s.pc ins s t)
    (hpc : t.pc = s.pc + 1) : fn.Known isByte t where
  const v j d n hfound hd hop himm hclean := by
    rw [hpc] at hfound hclean
    rcases findVregDef_succ hins hfound with ⟨rfl, -, hdst⟩ | ⟨hfound, hlabel, -, -⟩
    · obtain rfl : ins = d := Option.some.inj (hins.symm.trans hd)
      exact hacts.const hop v n hdst himm
    · have hstraight := not_isLabel hins hlabel
      have hlt := findVregDef_lt hfound
      rw [hacts.frame v (hclean _ _ hlt (Nat.lt_succ_self _) hins)]
      exact (hknown hstraight).const v j d n hfound hd hop himm
        fun k c hjk hk => hclean k c hjk (Nat.lt_succ_of_lt hk)
  flag j d v hj hd hop hdst := by
    obtain rfl : s.pc = j := by omega
    obtain rfl : ins = d := Option.some.inj (hins.symm.trans hd)
    obtain ⟨hflags, hvalue⟩ := hacts.get hop
    rw [hvalue v hdst, hflags]
  negated j g d v w hj hg hop hw hd hconsumed hsrc hdst := by
    have hpc' : s.pc = j + 1 := by omega
    rw [← hpc'] at hd hconsumed
    obtain rfl : ins = d := Option.some.inj (hins.symm.trans hd)
    have hstraight : ¬fn.IsLabel s.pc := by
      refine not_isLabel hins ?_
      rw [unary_of_negation (isNegation_of_consumed hconsumed)]
      decide
    obtain ⟨hflags, hvalue⟩ := hacts.negation hconsumed
    rw [hvalue v w hdst hsrc, hflags, (hknown hstraight).flag j g w hpc' hg hop hw]
    split <;> simp

/-- **What a run knows** holds wherever straight code is reached. -/
theorem reached_known (hasm : fn.AsmStays asmTo) (h : fn.Reached isByte bare asmTo s) :
    ¬fn.IsLabel s.pc → fn.Known isByte s := by
  induction h with
  | start s hpc =>
    intro _
    refine ⟨fun v j d n hfound => ?_, fun j d v hj => ?_, fun j g d v w hj => ?_⟩
    · rw [hpc] at hfound
      cases hfound
    · omega
    · omega
  | step s t ins h hins hacts hleads ih =>
    intro hlabel
    exact known_step ih hins hacts ((next_of_leads hasm hleads).resolve_right hlabel)

/-! ## Settled assignments -/

theorem run_setTo {flag : String} (h : HasInsn flag) (flags : String → Bool) (set : Bool) :
    runFlag flags (setTo flag set) = Function.update flags flag set := by
  rcases h with rfl | rfl | rfl <;> cases set <;> rfl

theorem getsFlag_of_op {flag : String} (hins : fn.insns[j]? = some ins) (h : ins.op ≠ .getflag) :
    fn.getsFlag flag (some j) = false := by
  simp [getsFlag, hins, h]

/-- A constant is assigned. -/
theorem set_const (hknown : fn.Known isByte s) (himm : ins.imm = none) (hsrc : ins.src1 = some v)
    (hhas : HasInsn ins.name) (hconst : fn.ConstBefore isByte s.pc v) :
    runFlag s.flags (fn.emitSetflag s.pc ins) =
      Function.update s.flags ins.name (ins.flagValue s) := by
  obtain ⟨j, d, n, hfound, hd, hop, hn, hzero, hclean⟩ := hconst
  have hgets : fn.getsFlag ins.name (some j) = false :=
    getsFlag_of_op hd (by rw [hop]; decide)
  have hnegates : fn.negatesFlag s.pc ins.name (some j) = false := by
    simp [negatesFlag, hd, Insn.isNegation, hop]
  have hset : fn.setflagValue s.pc ins = n := by
    rw [setflagValue, himm, hsrc]
    simp [lastConst_of_found hd hop hn hfound]
  have hemit : fn.emitSetflag s.pc ins = setTo ins.name (n != 0) := by
    simp [emitSetflag, hsrc, hfound, hgets, hnegates, hset]
  have hvalue : ins.flagValue s = (n != 0) := by
    have hv := hknown.const v j d n hfound hd hop hn hclean
    rw [Insn.flagValue, himm, hsrc]
    simp only [Option.any_some, hv]
    by_cases h0 : n = 0
    · subst h0
      simp [constIn]
    · rw [bne_iff_ne.mpr h0, bne_iff_ne.mpr fun h => h0 (hzero h)]
  rw [hemit, run_setTo hhas, hvalue]

/-- A flag is assigned to itself: nothing is printed. -/
theorem set_flag (hknown : fn.Known isByte s) (himm : ins.imm = none) (hsrc : ins.src1 = some v)
    (hflag : fn.FlagBefore ins.name s.pc v) :
    runFlag s.flags (fn.emitSetflag s.pc ins) =
      Function.update s.flags ins.name (ins.flagValue s) := by
  obtain ⟨j, d, hj, hd, hop, hname, hdst⟩ := hflag
  have hfound : fn.findVregDef (some v) s.pc = some j := by
    rw [hj]
    exact findVregDef_self hd (definesDst_of hdst (.inr (.inl hop))) hdst
  have hemit : fn.emitSetflag s.pc ins = none := by
    simp [emitSetflag, hsrc, hfound, getsFlag, hd, hop, hname]
  have hvalue : ins.flagValue s = s.flags ins.name := by
    have hv := hknown.flag j d v hj hd hop hdst
    rw [Insn.flagValue, himm, hsrc, Option.any_some, hv, hname]
    cases s.flags ins.name <;> rfl
  rw [hemit, hvalue, Function.update_eq_self]
  rfl

/-- `CF` is assigned its negation: it is complemented. -/
theorem set_negation (hknown : fn.Known isByte s) (hins : fn.insns[s.pc]? = some ins)
    (hop : ins.op = .setflag) (himm : ins.imm = none) (hsrc : ins.src1 = some v)
    (hname : ins.name = "CF") (hneg : fn.NegationBefore "CF" s.pc v) :
    runFlag s.flags (fn.emitSetflag s.pc ins) =
      Function.update s.flags ins.name (ins.flagValue s) := by
  obtain ⟨j, g, d, w, hj, hg, hgop, hgname, hw, hd, hdneg, hdsrc, hdst, hne⟩ := hneg
  have hdop := unary_of_negation hdneg
  have hfound : fn.findVregDef (some v) s.pc = some (j + 1) := by
    rw [hj]
    exact findVregDef_self hd (definesDst_of hdst (.inr (.inr hdop))) hdst
  have hflag : fn.findVregDef (some w) (j + 1) = some j :=
    findVregDef_self hg (definesDst_of hw (.inr (.inl hgop))) hw
  have hflag' : fn.findVregDef (some w) s.pc = some j := by
    rw [hj, findVregDef_pass hd (by rw [hdst]; simpa using hne)
      (by rw [hdop]; exact ⟨by decide, by decide⟩), hflag]
  have hgets : fn.getsFlag ins.name (some (j + 1)) = false :=
    getsFlag_of_op hd (by rw [hdop]; decide)
  have hnegates : fn.negatesFlag s.pc ins.name (some (j + 1)) = true := by
    simp [negatesFlag, hd, hdneg, hdsrc, hflag', getsFlag, hg, hgop, hgname, hname]
  have hemit : fn.emitSetflag s.pc ins = some .cmc := by
    have hcf : (ins.name == "CF") = true := by simp [hname]
    simp [emitSetflag, hsrc, hfound, hgets, hnegates, hcf]
  have hconsumed : fn.lnotGetflagConsumed (j + 1) d = true := by
    rw [hj] at hins
    simp [lnotGetflagConsumed, hdneg, hdsrc, hflag, hg, hgop, hins, hsrc, hdst, hop, hname, hgname]
  have hvalue : ins.flagValue s = !s.flags "CF" := by
    have hv := hknown.negated j g d v w hj hg hgop hw hd hconsumed hdsrc hdst
    rw [Insn.flagValue, himm, hsrc, Option.any_some, hv, hgname]
    cases s.flags "CF" <;> rfl
  rw [hemit, hvalue, hname]
  rfl

/-- A literal is assigned. -/
theorem set_literal {n : Int} (himm : ins.imm = some n) (hsrc : ins.src1 = none)
    (hhas : HasInsn ins.name) : runFlag s.flags (fn.emitSetflag i ins) =
      Function.update s.flags ins.name (ins.flagValue s) := by
  have hemit : fn.emitSetflag i ins = setTo ins.name (n != 0) := by
    simp [emitSetflag, hsrc, getsFlag, negatesFlag, setflagValue, himm]
  rw [hemit, run_setTo hhas, Insn.flagValue, himm]

/-- `CF` is given a constant. -/
def carrySet : Func where
  insns := [ { op := .mov, dst := some 0, imm := some 1 },
    { op := .setflag, name := "CF", src1 := some 0 } ]
  nvregs := 1

/-- `CF` is given a difference. -/
def carryOfDifference : Func where
  insns := [ { op := .alu, name := "sub", dst := some 0, src1 := some 1, src2 := some 1 },
    { op := .setflag, name := "CF", src1 := some 0 } ]
  nvregs := 2

end Nib.Bind.Func
