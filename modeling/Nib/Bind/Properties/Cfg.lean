import Nib.Bind.Cfg

/-!
# The blocks partition the instructions

* `Block.start_lt_stop`, `Block.stop_le_length` — a block is a non-empty range
* `block_unique` — an instruction is in one block only
* `succs_lt` — successors are blocks
-/

namespace Nib.Bind.Func

variable {fn : Func}

theorem buildCfg_length (fn : Func) : fn.buildCfg.length = fn.leaders.length :=
  List.length_mapIdx

theorem buildCfg_getElem? (fn : Func) (b : Nat) :
    fn.buildCfg[b]? = fn.leaders[b]?.map (fn.mkBlock b) :=
  List.getElem?_mapIdx

theorem exists_leader_of_block {b : Nat} {bb : Block} (h : fn.buildCfg[b]? = some bb) :
    ∃ i, fn.leaders[b]? = some i ∧ bb = fn.mkBlock b i := by
  rw [buildCfg_getElem?, Option.map_eq_some_iff] at h
  obtain ⟨i, hi, rfl⟩ := h
  exact ⟨i, hi, rfl⟩

theorem mem_leaders {i : Nat} : i ∈ fn.leaders ↔ i < fn.insns.length ∧ fn.isLeader i = true := by
  simp [leaders]

theorem leaders_nodup (fn : Func) : fn.leaders.Nodup := List.nodup_range.filter _

/-! ## The range of a block -/

theorem lt_blockStop {i : Nat} (h : i < fn.insns.length) : i < fn.blockStop i := by
  unfold blockStop
  cases hf : (List.range' (i + 1) (fn.insns.length - (i + 1))).find? fn.isLeader with
  | none => exact h
  | some j =>
    have hj := List.mem_of_find?_eq_some hf
    rw [List.mem_range'_1] at hj
    simp only [Option.getD_some]
    omega

theorem blockStop_le {i : Nat} : fn.blockStop i ≤ fn.insns.length := by
  unfold blockStop
  cases hf : (List.range' (i + 1) (fn.insns.length - (i + 1))).find? fn.isLeader with
  | none => exact Nat.le_refl _
  | some j =>
    have hj := List.mem_of_find?_eq_some hf
    rw [List.mem_range'_1] at hj
    simp only [Option.getD_some]
    omega

/-- There is no leader strictly inside a block. -/
theorem not_leader_inside {i k : Nat} (h1 : i < k) (h2 : k < fn.blockStop i) :
    fn.isLeader k = false := by
  have hk : k < fn.insns.length := Nat.lt_of_lt_of_le h2 blockStop_le
  unfold blockStop at h2
  cases hf : (List.range' (i + 1) (fn.insns.length - (i + 1))).find? fn.isLeader with
  | none =>
    rw [List.find?_eq_none] at hf
    have := hf k (by rw [List.mem_range'_1]; omega)
    simpa using this
  | some j =>
    rw [hf] at h2
    simp only [Option.getD_some] at h2
    rw [List.find?_range'_eq_some] at hf
    have := hf.2.2 k (by omega) (by omega)
    simpa using this

theorem start_lt_stop {b : Nat} {bb : Block} (h : fn.buildCfg[b]? = some bb) :
    bb.start < bb.stop := by
  obtain ⟨i, hi, rfl⟩ := exists_leader_of_block h
  exact lt_blockStop (mem_leaders.mp (List.mem_of_getElem? hi)).1

theorem stop_le_length {b : Nat} {bb : Block} (h : fn.buildCfg[b]? = some bb) :
    bb.stop ≤ fn.insns.length := by
  obtain ⟨i, _, rfl⟩ := exists_leader_of_block h
  exact blockStop_le

/-- **An instruction is in one block only.** The start of its block is the last leader up to
it. -/
theorem block_unique {b c i : Nat} {bb bc : Block} (hb : fn.buildCfg[b]? = some bb)
    (hc : fn.buildCfg[c]? = some bc) (hbi : bb.start ≤ i) (hib : i < bb.stop)
    (hci : bc.start ≤ i) (hic : i < bc.stop) : b = c := by
  obtain ⟨j, hj, rfl⟩ := exists_leader_of_block hb
  obtain ⟨k, hk, rfl⟩ := exists_leader_of_block hc
  have hlj := (mem_leaders.mp (List.mem_of_getElem? hj)).2
  have hlk := (mem_leaders.mp (List.mem_of_getElem? hk)).2
  simp only [mkBlock] at hbi hib hci hic
  have hjk : j = k := by
    rcases Nat.lt_trichotomy j k with h | h | h
    · rw [not_leader_inside h (by omega)] at hlk
      exact absurd hlk (by decide)
    · exact h
    · rw [not_leader_inside h (by omega)] at hlj
      exact absurd hlj (by decide)
  subst hjk
  have hlen : b < fn.leaders.length := (List.getElem?_eq_some_iff.mp hj).1
  exact (List.getElem?_inj hlen (leaders_nodup fn)).mp (hj.trans hk.symm)

/-- The entry block starts at instruction 0, and only the entry block does. -/
theorem start_eq_zero_iff {b : Nat} {bb : Block} (h : fn.buildCfg[b]? = some bb) :
    bb.start = 0 ↔ b = 0 := by
  have hlen : 0 < fn.insns.length :=
    Nat.lt_of_lt_of_le (Nat.zero_lt_of_lt (start_lt_stop h)) (stop_le_length h)
  have h0 : fn.leaders[0]? = some 0 := by
    unfold leaders
    obtain ⟨m, hm⟩ : ∃ m, fn.insns.length = m + 1 := ⟨_, (Nat.succ_pred_eq_of_pos hlen).symm⟩
    rw [hm, List.range_succ_eq_map, List.filter_cons_of_pos (by simp [isLeader])]
    rfl
  have hb0 : fn.buildCfg[0]? = some (fn.mkBlock 0 0) := by
    rw [buildCfg_getElem?, h0, Option.map_some]
  constructor
  · intro hs
    exact block_unique h hb0 (Nat.le_of_eq hs) (hs ▸ start_lt_stop h) (Nat.le_refl 0)
      (start_lt_stop hb0)
  · rintro rfl
    rw [hb0] at h
    cases h
    rfl

/-! ## Successors -/

theorem labelBlock_lt {target : String} {t : Nat} (h : fn.labelBlock target = some t) :
    t < fn.leaders.length := by
  unfold labelBlock at h
  rw [List.findIdx?_eq_some_iff_getElem] at h
  exact h.1

theorem blockSuccs_lt {b : Nat} {term : Insn} {t : Nat} (h : t ∈ fn.blockSuccs b term) :
    t < fn.leaders.length := by
  have hft : t ∈ (if b + 1 < fn.leaders.length then [b + 1] else []) → t < fn.leaders.length := by
    intro h
    split at h
    · rw [List.mem_singleton] at h
      omega
    · exact absurd h List.not_mem_nil
  have hlb : t ∈ (fn.labelBlock term.name).toList → t < fn.leaders.length := by
    intro h
    exact labelBlock_lt (Option.mem_toList.mp h)
  unfold blockSuccs at h
  simp only at h
  split at h
  · rcases List.mem_append.mp h with h | h
    · exact hft h
    · exact hlb h
  · split at h
    · exact hlb h
    · split at h
      · exact absurd h List.not_mem_nil
      · exact hft h

theorem succs_lt {b : Nat} {bb : Block} (h : fn.buildCfg[b]? = some bb) {t : Nat}
    (ht : t ∈ bb.succs) : t < fn.buildCfg.length := by
  obtain ⟨i, _, rfl⟩ := exists_leader_of_block h
  rw [buildCfg_length]
  simp only [mkBlock] at ht
  cases hl : fn.insns[fn.blockStop i - 1]? with
  | none =>
    rw [hl] at ht
    exact absurd ht List.not_mem_nil
  | some term =>
    rw [hl] at ht
    exact blockSuccs_lt ht

end Nib.Bind.Func
