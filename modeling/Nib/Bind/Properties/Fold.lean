import Nib.Bind.Spec.Fold
import Nib.Bind.Properties.Cfg
import Mathlib.Algebra.Order.BigOperators.Group.List
import Mathlib.Algebra.Order.Group.Nat

/-!
# Folding of memory displacements

* `foldInv` — what the pass leaves: pairs of an empty instruction and an access, and no use of the
  vreg of an addition that is gone
* `foldMemoryDisplacements_next` — the paths are the same
* `Agree.step` — two executions agree on what is still read
* `foldPreserves` — the meaning is preserved, on every path
-/

namespace Nib.Bind

/-! ## Uses -/

theorem Insn.countUses_pos {ins : Insn} {v : Nat} (h : v ∈ ins.uses) : 0 < ins.countUses v := by
  unfold Insn.uses at h
  unfold Insn.countUses
  simp only [List.mem_append] at h
  rcases h with (((h | h) | h) | h) | h
  · split_ifs at h
    · have hsrc : ins.src1 = some v := by simpa using h
      rw [if_pos hsrc]
      omega
    · cases h
  · have hsrc : ins.src2 = some v := by simpa using h
    rw [if_pos hsrc]
    omega
  · have hpos := List.count_pos_iff.mpr h
    omega
  · split_ifs at h with hop
    · have hpos := List.count_pos_iff.mpr h
      rw [if_pos hop]
      omega
    · cases h
  · split_ifs at h with hreads
    · have hdst : ins.dst = some v := by simpa using h
      have hboth : (ins.readsDst && ins.dst == some v) = true := by
        rw [hreads, hdst]
        simp
      rw [if_pos hboth]
      omega
    · cases h

/-- One use in all, and it is in the `i`-th instruction. -/
theorem sum_eq_one {f : Insn → Nat} {l : List Insn} (h : (l.map f).sum = 1) : ∀ {i : Nat}
    {x : Insn}, l[i]? = some x → 0 < f x →
    f x = 1 ∧ ∀ j y, j ≠ i → l[j]? = some y → f y = 0 := by
  induction l with
  | nil =>
    intro i x hx
    cases hx
  | cons a l ih =>
    intro i x hx hpos
    rw [List.map_cons, List.sum_cons] at h
    have hle : ∀ {j : Nat} {y : Insn}, l[j]? = some y → f y ≤ (l.map f).sum := fun hy =>
      List.single_le_sum (by simp) _ (List.mem_map_of_mem (List.mem_of_getElem? hy))
    cases i with
    | zero =>
      have hax : a = x := by simpa using hx
      subst hax
      refine ⟨by omega, fun j y hj hy => ?_⟩
      cases j with
      | zero => exact absurd rfl hj
      | succ j =>
        have := hle (j := j) (by simpa using hy)
        omega
    | succ i =>
      have hx' : l[i]? = some x := by simpa using hx
      have hxle := hle hx'
      obtain ⟨hone, hrest⟩ := ih (by omega) hx' hpos
      refine ⟨hone, fun j y hj hy => ?_⟩
      cases j with
      | zero =>
        have hay : a = y := by simpa using hy
        subst hay
        omega
      | succ j => exact hrest j y (by omega) (by simpa using hy)

/-! ## The pattern -/

theorem Insn.addedConstant_spec {ins : Insn} {s : Nat} {k : Int}
    (h : ins.addedConstant = some (s, k)) :
    ins.op = .alu ∧ ins.name = "add" ∧ ins.src1 = some s := by
  unfold Insn.addedConstant at h
  split_ifs at h with hop
  have hop' : ins.op = .alu ∧ ins.name = "add" := by simpa using hop
  cases hs : ins.src1 with
  | none => simp [hs] at h
  | some s' =>
    cases hk : ins.imm with
    | none => simp [hs, hk] at h
    | some k' =>
      simp only [hs, hk, Option.some.injEq, Prod.mk.injEq] at h
      exact ⟨hop'.1, hop'.2, congrArg some h.1⟩

theorem Insn.foldAddr_op (mem : Insn) (s : Nat) (k : Int) : (mem.foldAddr s k).op = mem.op := by
  unfold Insn.foldAddr
  split_ifs <;> rfl

/-- An access behind an addition to its address. -/
structure Insn.Folds (mem add : Insn) (v s : Nat) (k : Int) : Prop where
  op : mem.op = .loadmem ∨ mem.op = .storemem
  name : mem.name = ""
  disp : mem.memDisp = none
  addr : mem.addrVreg = some v
  added : add.addedConstant = some (s, k)
  dst : add.dst = some v

theorem Insn.foldOf_eq {mem add : Insn} {v s : Nat} {k : Int}
    (h : mem.foldOf add = some (v, s, k)) : mem.Folds add v s k := by
  unfold Insn.foldOf at h
  split_ifs at h with hplain
  cases ha : mem.addrVreg with
  | none => simp [ha] at h
  | some w =>
    cases hc : add.addedConstant with
    | none => simp [ha, hc] at h
    | some sk =>
      obtain ⟨s', k'⟩ := sk
      simp only [ha, hc] at h
      split_ifs at h with hd
      simp only [Option.some.injEq, Prod.mk.injEq] at h
      obtain ⟨rfl, rfl, rfl⟩ := h
      unfold Insn.isPlainAccess at hplain
      simp only [Bool.and_eq_true, Bool.or_eq_true, beq_iff_eq, Option.isNone_iff_eq_none]
        at hplain
      exact ⟨hplain.1.1, hplain.1.2, hplain.2, ha, hc, hd⟩

namespace Insn.Folds

variable {mem add : Insn} {v s : Nat} {k : Int}

theorem add_op (h : mem.Folds add v s k) : add.op = .alu := (addedConstant_spec h.added).1

theorem foldAddr_name (h : mem.Folds add v s k) : (mem.foldAddr s k).name = "" := by
  unfold Insn.foldAddr
  split_ifs <;> exact h.name

theorem foldAddr_ne_nop (h : mem.Folds add v s k) : mem.foldAddr s k ≠ makeNop := by
  intro heq
  have hop := congrArg Insn.op heq
  rw [Insn.foldAddr_op] at hop
  rcases h.op with h' | h' <;> rw [h'] at hop <;> cases hop

theorem add_ne_nop (h : mem.Folds add v s k) : add ≠ makeNop := by
  rintro rfl
  have hop := h.add_op
  cases hop

theorem add_ne_foldAddr (h : mem.Folds add v s k) {mem' add' : Insn} {v' s' : Nat} {k' : Int}
    (h' : mem'.Folds add' v' s' k') : add ≠ mem'.foldAddr s' k' := by
  rintro rfl
  have hop := h.add_op
  rw [Insn.foldAddr_op] at hop
  rcases h'.op with h' | h' <;> rw [h'] at hop <;> cases hop

/-- The use of the address vreg is replaced. -/
theorem countUses (h : mem.Folds add v s k) (u : Nat) :
    (mem.foldAddr s k).countUses u + (if v = u then 1 else 0) =
      mem.countUses u + (if s = u then 1 else 0) := by
  have haddr := h.addr
  unfold Insn.addrVreg at haddr
  unfold Insn.foldAddr Insn.countUses Insn.readsDst Insn.definesDst
  rcases h.op with hop | hop
  · rw [if_pos (by rw [hop]; rfl)] at haddr
    simp only [hop, haddr, beq_self_eq_true, if_true, Option.some.injEq]
    omega
  · rw [if_neg (by rw [hop]; decide)] at haddr
    simp [hop, haddr]
    omega

/-- The address vreg is a use. -/
theorem addr_mem (h : mem.Folds add v s k) : v ∈ mem.uses := by
  have haddr := h.addr
  unfold Insn.addrVreg at haddr
  unfold Insn.uses Insn.readsDst Insn.definesDst
  rcases h.op with hop | hop
  · rw [if_pos (by rw [hop]; rfl)] at haddr
    simp [hop, haddr]
  · rw [if_neg (by rw [hop]; decide)] at haddr
    simp [hop, haddr]

theorem defs_foldAddr (h : mem.Folds add v s k) : (mem.foldAddr s k).defs = mem.defs := by
  unfold Insn.foldAddr Insn.defs Insn.definesDst
  rcases h.op with hop | hop <;> simp [hop]

end Insn.Folds

/-! ## The pass -/

/-- A pair of the function, and what it has become. -/
structure Folded (orig cur : List Insn) (i : Nat) (mem add : Insn) (v s : Nat) (k : Int) :
    Prop where
  addAt : orig[i]? = some add
  memAt : orig[i + 1]? = some mem
  folds : mem.Folds add v s k
  nopAt : cur[i]? = some Insn.makeNop
  accessAt : cur[i + 1]? = some (mem.foldAddr s k)

/-- `cur'` is `cur` with the pair at `n` folded. -/
structure FoldsAt (cur cur' : List Insn) (n : Nat) (mem add : Insn) (v s : Nat) (k : Int) :
    Prop where
  addAt : cur[n]? = some add
  memAt : cur[n + 1]? = some mem
  folds : mem.Folds add v s k
  get : ∀ i, cur'[i]? = if i = n then some Insn.makeNop
    else if i = n + 1 then some (mem.foldAddr s k) else cur[i]?

section

variable {orig cur cur' : List Insn} {n : Nat} {mem add : Insn} {v s : Nat} {k : Int}

theorem foldsAt_set (hadd : cur[n]? = some add) (hmem : cur[n + 1]? = some mem)
    (hf : mem.Folds add v s k) :
    FoldsAt cur ((cur.set (n + 1) (mem.foldAddr s k)).set n Insn.makeNop) n mem add v s k := by
  obtain ⟨hlt, -⟩ := List.getElem?_eq_some_iff.mp hmem
  refine ⟨hadd, hmem, hf, fun i => ?_⟩
  rw [List.getElem?_set, List.length_set, List.getElem?_set]
  by_cases hin : n = i
  · rw [if_pos hin, if_pos hin.symm, if_pos (by omega)]
  · rw [if_neg hin, if_neg (Ne.symm hin)]
    by_cases hin' : n + 1 = i
    · rw [if_pos hin', if_pos hin'.symm, if_pos (by omega)]
    · rw [if_neg hin', if_neg (Ne.symm hin')]

namespace FoldsAt

variable (hat : FoldsAt cur cur' n mem add v s k)
include hat

theorem nopAt : cur'[n]? = some Insn.makeNop := by
  rw [hat.get, if_pos rfl]

theorem accessAt : cur'[n + 1]? = some (mem.foldAddr s k) := by
  rw [hat.get, if_neg (by omega), if_pos rfl]

variable {i : Nat} {mem' add' : Insn} {v' s' : Nat} {k' : Int}

/-- The pairs from before are elsewhere, and stay. -/
theorem keeps (hf' : Folded orig cur i mem' add' v' s' k') :
    Folded orig cur' i mem' add' v' s' k' := by
  have hi : i ≠ n := by
    rintro rfl
    exact hat.folds.add_ne_nop (Option.some.inj (hat.addAt.symm.trans hf'.nopAt))
  have hi1 : i + 1 ≠ n := by
    intro hin
    have hacc' := hf'.accessAt
    rw [hin, hat.addAt] at hacc'
    exact hat.folds.add_ne_foldAddr hf'.folds (Option.some.inj hacc')
  have hin1 : i ≠ n + 1 := by
    rintro rfl
    have heq := Option.some.inj (hat.memAt.symm.trans hf'.nopAt)
    have hop := hat.folds.op
    rw [heq] at hop
    rcases hop with h' | h' <;> cases h'
  refine ⟨hf'.addAt, hf'.memAt, hf'.folds, ?_, ?_⟩
  · rw [hat.get, if_neg hi, if_neg hin1]
    exact hf'.nopAt
  · rw [hat.get, if_neg hi1, if_neg (by omega)]
    exact hf'.accessAt

/-- All but the new pair are from before. -/
theorem before (hf' : Folded orig cur' i mem' add' v' s' k') (hin : i ≠ n) :
    Folded orig cur i mem' add' v' s' k' := by
  have hn1 := hf'.nopAt
  have ha1 := hf'.accessAt
  rw [hat.get, if_neg hin] at hn1
  rw [hat.get, if_neg (c := i + 1 = n + 1) (by omega)] at ha1
  have hi1 : i ≠ n + 1 := by
    intro hi1
    rw [if_pos hi1] at hn1
    exact hat.folds.foldAddr_ne_nop (Option.some.inj hn1)
  have hi2 : i + 1 ≠ n := by
    intro hi2
    rw [if_pos hi2] at ha1
    exact hf'.folds.foldAddr_ne_nop (Option.some.inj ha1).symm
  rw [if_neg hi1] at hn1
  rw [if_neg hi2] at ha1
  exact ⟨hf'.addAt, hf'.memAt, hf'.folds, hn1, ha1⟩

/-- A vreg that `cur` uses at the addition no more is used as little after it. -/
theorem unused {u : Nat} (hadd : add.countUses u = 0)
    (hmem : mem.countUses u = if v = u then 1 else 0)
    (hrest : ∀ m ins, m ≠ n → m ≠ n + 1 → cur[m]? = some ins → ins.countUses u = 0) :
    ∀ ins ∈ cur', ins.countUses u = 0 := by
  intro ins hins
  obtain ⟨m, hm⟩ := List.getElem?_of_mem hins
  rw [hat.get] at hm
  have hsu : s ≠ u := by
    rintro rfl
    unfold Insn.countUses at hadd
    rw [if_pos (Insn.addedConstant_spec hat.folds.added).2.2] at hadd
    omega
  split_ifs at hm with h1 h2
  · rw [← Option.some.inj hm]
    rfl
  · have hcnt := hat.folds.countUses u
    rw [if_neg hsu] at hcnt
    rw [← Option.some.inj hm]
    omega
  · exact hrest m ins h1 h2 hm

end FoldsAt

end

/-- The state of the pass before the access at `n`. -/
structure FoldInv (orig cur : List Insn) (n : Nat) : Prop where
  length : cur.length = orig.length
  later : ∀ i, n ≤ i → cur[i]? = orig[i]?
  cases : ∀ i, cur[i]? = orig[i]? ∨ (∃ mem add v s k, Folded orig cur i mem add v s k) ∨
    ∃ j mem add v s k, i = j + 1 ∧ Folded orig cur j mem add v s k
  unused : ∀ {i mem add v s k}, Folded orig cur i mem add v s k →
    ∀ ins ∈ cur, ins.countUses v = 0

namespace FoldInv

variable {orig cur : List Insn} {n : Nat}

theorem refl (orig : List Insn) : FoldInv orig orig 1 where
  length := rfl
  later := fun _ _ => rfl
  cases := fun _ => .inl rfl
  unused := fun h =>
    absurd (Option.some.inj (h.addAt.symm.trans h.nopAt)) h.folds.add_ne_nop

/-- An addition in the list is one of the function. -/
theorem orig_of_alu (h : FoldInv orig cur n) {i : Nat} {add : Insn} (hi : cur[i]? = some add)
    (hop : add.op = .alu) : orig[i]? = some add := by
  rcases h.cases i with heq | ⟨mem, add', v, s, k, hf⟩ | ⟨j, mem, add', v, s, k, rfl, hf⟩
  · rw [← heq, hi]
  · have heq := Option.some.inj (hi.symm.trans hf.nopAt)
    rw [heq] at hop
    cases hop
  · have heq := Option.some.inj (hi.symm.trans hf.accessAt)
    rw [heq, Insn.foldAddr_op] at hop
    rcases hf.folds.op with h' | h' <;> rw [h'] at hop <;> cases hop

theorem fold (h : FoldInv orig cur (n + 1)) {mem add : Insn} {v s : Nat} {k : Int}
    (hmem : cur[n + 1]? = some mem) (hadd : cur[n]? = some add) (hf : mem.Folds add v s k)
    (hcount : countVregUses cur v = 1) :
    FoldInv orig ((cur.set (n + 1) (mem.foldAddr s k)).set n Insn.makeNop) (n + 2) := by
  have hlength : ((cur.set (n + 1) (mem.foldAddr s k)).set n Insn.makeNop).length =
      cur.length := by rw [List.length_set, List.length_set]
  have hat := foldsAt_set hadd hmem hf
  generalize (cur.set (n + 1) (mem.foldAddr s k)).set n Insn.makeNop = cur' at hat hlength
  have hnew : Folded orig cur' n mem add v s k :=
    ⟨h.orig_of_alu hadd hf.add_op, (h.later (n + 1) (Nat.le_refl _)).symm.trans hmem, hf,
      hat.nopAt, hat.accessAt⟩
  refine ⟨hlength.trans h.length, fun i hi => ?_, fun i => ?_, ?_⟩
  · rw [hat.get, if_neg (by omega), if_neg (by omega)]
    exact h.later i (by omega)
  · rw [hat.get]
    by_cases hin : i = n
    · subst hin
      exact .inr (.inl ⟨mem, add, v, s, k, hnew⟩)
    · rw [if_neg hin]
      by_cases hin1 : i = n + 1
      · exact .inr (.inr ⟨n, mem, add, v, s, k, hin1, hnew⟩)
      · rw [if_neg hin1]
        rcases h.cases i with heq | ⟨mem', add', v', s', k', hf'⟩ |
          ⟨j, mem', add', v', s', k', hij, hf'⟩
        · exact .inl heq
        · exact .inr (.inl ⟨mem', add', v', s', k', hat.keeps hf'⟩)
        · exact .inr (.inr ⟨j, mem', add', v', s', k', hij, hat.keeps hf'⟩)
  · -- neither the old pairs nor the new one leave a use
    intro i mem' add' v' s' k' hf'
    by_cases hin : i = n
    · subst hin
      obtain rfl : v' = v := by
        have hd := hf'.folds.dst
        rw [Option.some.inj (hf'.addAt.symm.trans hnew.addAt), hf.dst] at hd
        exact (Option.some.inj hd).symm
      obtain ⟨hone, hzero⟩ := sum_eq_one hcount hmem (Insn.countUses_pos hf.addr_mem)
      refine hat.unused (hzero _ add (by omega) hadd) ?_ fun m ins _ hm => hzero m ins hm
      rw [hone, if_pos rfl]
    · have hunused := h.unused (hat.before hf' hin)
      have hmem0 := hunused mem (List.mem_of_getElem? hmem)
      refine hat.unused (hunused add (List.mem_of_getElem? hadd)) ?_
        fun _ ins _ _ hm => hunused ins (List.mem_of_getElem? hm)
      have hv : v ≠ v' := by
        rintro rfl
        have hpos := Insn.countUses_pos hf.addr_mem
        omega
      rw [hmem0, if_neg hv]

theorem weaken (h : FoldInv orig cur n) {m : Nat} (hle : n ≤ m) : FoldInv orig cur m :=
  ⟨h.length, fun i hi => h.later i (hle.trans hi), h.cases, h.unused⟩

theorem step (h : FoldInv orig cur (n + 1)) : FoldInv orig (foldStep cur (n + 1)) (n + 2) := by
  unfold foldStep
  rw [Nat.add_sub_cancel]
  cases hmem : cur[n + 1]? with
  | none => exact h.weaken (Nat.le_succ _)
  | some mem =>
    cases hadd : cur[n]? with
    | none => exact h.weaken (Nat.le_succ _)
    | some add =>
      cases hf : mem.foldOf add with
      | none =>
        simp only [hf]
        exact h.weaken (Nat.le_succ _)
      | some x =>
        obtain ⟨v, s, k⟩ := x
        simp only [hf]
        split_ifs with hcount
        · exact h.fold hmem hadd (Insn.foldOf_eq hf) hcount
        · exact h.weaken (Nat.le_succ _)

theorem loop (m : Nat) : ∀ {cur : List Insn} {n : Nat}, FoldInv orig cur (n + 1) →
    FoldInv orig ((List.range' (n + 1) m).foldl foldStep cur) (n + 1 + m) := by
  induction m with
  | zero => exact fun h => h
  | succ m ih =>
    intro cur n h
    rw [List.range'_succ, List.foldl_cons, ← Nat.add_assoc, Nat.add_right_comm _ m 1]
    exact ih h.step

end FoldInv

/-- **What the pass leaves.** -/
theorem foldInv (fn : Func) :
    FoldInv fn.insns fn.foldMemoryDisplacements.insns (1 + (fn.insns.length - 1)) :=
  (FoldInv.refl fn.insns).loop (n := 0) _

/-! ## Paths -/

/-- What an instruction is for the control flow. -/
def Insn.control (ins : Insn) : Option (IrOp × String) :=
  if ins.op = .alu ∨ ins.op = .nop then none else some (ins.op, ins.name)

theorem Insn.control_eq {ins ins' : Insn} (h : ins.control = ins'.control) :
    (ins.op = ins'.op ∧ ins.name = ins'.name) ∨
      ((ins.op = .alu ∨ ins.op = .nop) ∧ (ins'.op = .alu ∨ ins'.op = .nop)) := by
  unfold Insn.control at h
  split_ifs at h with h1 h2 h2
  · exact .inr ⟨h1, h2⟩
  · simp only [Option.some.injEq, Prod.mk.injEq] at h
    exact .inl h

namespace Func

/-- Two functions whose instructions are the same for the control flow. -/
def SameControl (fn fn' : Func) : Prop :=
  ∀ i : Nat, (fn.insns[i]?).map Insn.control = (fn'.insns[i]?).map Insn.control

namespace SameControl

variable {fn fn' : Func}

theorem length (h : fn.SameControl fn') : fn.insns.length = fn'.insns.length := by
  have hiff : ∀ i, fn.insns.length ≤ i ↔ fn'.insns.length ≤ i := by
    intro i
    rw [← List.getElem?_eq_none_iff, ← List.getElem?_eq_none_iff, ← Option.map_eq_none_iff,
      h i, Option.map_eq_none_iff]
  exact Nat.le_antisymm ((hiff _).mpr (Nat.le_refl _)) ((hiff _).mp (Nat.le_refl _))

/-- A test that sees an instruction only through its control part. -/
theorem any (h : fn.SameControl fn') (i : Nat) {p : Insn → Bool}
    (hp : ∀ ins ins', ins.control = ins'.control → p ins = p ins') :
    (fn.insns[i]?).any p = (fn'.insns[i]?).any p := by
  have hi := h i
  cases h1 : fn.insns[i]? with
  | none =>
    cases h2 : fn'.insns[i]? with
    | none => rfl
    | some y => rw [h1, h2] at hi; cases hi
  | some x =>
    cases h2 : fn'.insns[i]? with
    | none => rw [h1, h2] at hi; cases hi
    | some y =>
      rw [h1, h2] at hi
      exact hp x y (Option.some.inj hi)

theorem isLeader (h : fn.SameControl fn') (i : Nat) : fn.isLeader i = fn'.isLeader i := by
  unfold Func.isLeader
  rw [h.any i, h.any (i - 1)]
  · intro ins ins' hc
    rcases Insn.control_eq hc with ⟨hop, -⟩ | ⟨h1, h2⟩
    · rw [hop]
    · rcases h1 with h1 | h1 <;> rcases h2 with h2 | h2 <;> rw [h1, h2] <;> rfl
  · intro ins ins' hc
    rcases Insn.control_eq hc with ⟨hop, -⟩ | ⟨h1, h2⟩
    · rw [hop]
    · rcases h1 with h1 | h1 <;> rcases h2 with h2 | h2 <;> rw [h1, h2] <;> rfl

theorem leaders (h : fn.SameControl fn') : fn.leaders = fn'.leaders := by
  unfold Func.leaders
  rw [h.length, funext h.isLeader]

theorem labelBlock (h : fn.SameControl fn') (target : String) :
    fn.labelBlock target = fn'.labelBlock target := by
  unfold Func.labelBlock
  rw [h.leaders]
  refine congrArg (List.findIdx? · fn'.leaders) (funext fun i => h.any i ?_)
  intro ins ins' hc
  rcases Insn.control_eq hc with ⟨hop, hname⟩ | ⟨h1, h2⟩
  · rw [hop, hname]
  · rcases h1 with h1 | h1 <;> rcases h2 with h2 | h2 <;> rw [h1, h2] <;> rfl

theorem blockSuccs (h : fn.SameControl fn') (b : Nat) {term term' : Insn}
    (ht : term.control = term'.control) : fn.blockSuccs b term = fn'.blockSuccs b term' := by
  unfold Func.blockSuccs
  rw [h.leaders]
  rcases Insn.control_eq ht with ⟨hop, hname⟩ | ⟨h1, h2⟩
  · rw [hop, hname, h.labelBlock]
  · rcases h1 with h1 | h1 <;> rcases h2 with h2 | h2 <;> rw [h1, h2] <;> rfl

theorem buildCfg (h : fn.SameControl fn') : fn.buildCfg = fn'.buildCfg := by
  have hstop : ∀ i, fn.blockStop i = fn'.blockStop i := by
    intro i
    unfold Func.blockStop
    rw [h.length, funext h.isLeader]
  have hmk : ∀ b i, fn.mkBlock b i = fn'.mkBlock b i := by
    intro b i
    unfold Func.mkBlock
    rw [hstop]
    refine congrArg (Block.mk i (fn'.blockStop i)) ?_
    have hi := h (fn'.blockStop i - 1)
    cases h1 : fn.insns[fn'.blockStop i - 1]? with
    | none =>
      cases h2 : fn'.insns[fn'.blockStop i - 1]? with
      | none => rfl
      | some y => rw [h1, h2] at hi; cases hi
    | some x =>
      cases h2 : fn'.insns[fn'.blockStop i - 1]? with
      | none => rw [h1, h2] at hi; cases hi
      | some y =>
        rw [h1, h2] at hi
        exact h.blockSuccs b (Option.some.inj hi)
  unfold Func.buildCfg
  rw [h.leaders]
  exact congrArg (List.mapIdx · fn'.leaders) (funext fun b => funext fun i => hmk b i)

theorem next (h : fn.SameControl fn') (i j : Nat) : fn.Next i j ↔ fn'.Next i j := by
  unfold Func.Next
  rw [h.buildCfg]

end SameControl

end Func

theorem sameControl_fold (fn : Func) : fn.SameControl fn.foldMemoryDisplacements := by
  intro i
  rcases (foldInv fn).cases i with heq | ⟨mem, add, v, s, k, hf⟩ | ⟨j, mem, add, v, s, k, rfl, hf⟩
  · rw [heq]
  · rw [hf.addAt, hf.nopAt]
    refine congrArg some ?_
    unfold Insn.control
    rw [if_pos (.inl hf.folds.add_op), if_pos (.inr rfl)]
  · rw [hf.memAt, hf.accessAt]
    refine congrArg some ?_
    unfold Insn.control
    rw [Insn.foldAddr_op, hf.folds.foldAddr_name, hf.folds.name]

/-- **The paths are the same.** -/
theorem foldMemoryDisplacements_next (fn : Func) (i j : Nat) :
    fn.foldMemoryDisplacements.Next i j ↔ fn.Next i j := ((sameControl_fold fn).next i j).symm

namespace Func

variable {fn : Func}

theorem isLeader_blockStop {i : Nat} (h : fn.blockStop i < fn.insns.length) :
    fn.isLeader (fn.blockStop i) = true := by
  unfold blockStop at h ⊢
  cases hf : (List.range' (i + 1) (fn.insns.length - (i + 1))).find? fn.isLeader with
  | none =>
    rw [hf] at h
    exact absurd h (Nat.lt_irrefl _)
  | some j => exact List.find?_some hf

/-- Inside a block, control comes from the instruction before and goes on to the next one. -/
theorem next_inside_iff {i : Nat} (hlt : i + 1 < fn.insns.length)
    (hl : fn.isLeader (i + 1) = false) {a b : Nat} (h : fn.Next a b) : a = i ↔ b = i + 1 := by
  obtain ⟨bb, hbb, hstart, hstop, hnext⟩ := h
  obtain ⟨n, hn⟩ := List.getElem?_of_mem hbb
  obtain ⟨st, -, rfl⟩ := exists_leader_of_block hn
  constructor
  · rintro rfl
    rcases hnext with ⟨-, hb⟩ | ⟨hend, -⟩
    · exact hb
    · have hstop : fn.blockStop st < fn.insns.length := by
        show (fn.mkBlock n st).stop < _
        omega
      have hlead := isLeader_blockStop hstop
      have heq : fn.blockStop st = a + 1 := hend.symm
      rw [heq, hl] at hlead
      cases hlead
  · intro hb
    rcases hnext with ⟨-, hb'⟩ | ⟨-, t, -, bt, hbt, hb'⟩
    · omega
    · obtain ⟨l, hlead, rfl⟩ := exists_leader_of_block hbt
      have hmem := (mem_leaders.mp (List.mem_of_getElem? hlead)).2
      have heq : l = i + 1 := hb'.symm.trans hb
      rw [heq, hl] at hmem
      cases hmem

end Func

/-! ## Two executions -/

variable {ctx : IrContext} {fn : Func}

/-- A folded pair of the function. -/
abbrev Func.FoldPair (fn : Func) := Folded fn.insns fn.foldMemoryDisplacements.insns

namespace Folded

variable {i : Nat} {mem add : Insn} {v s : Nat} {k : Int}

theorem foldedAt (h : fn.FoldPair i mem add v s k) : fn.FoldedAt i mem add v s k := by
  refine ⟨h.addAt, h.memAt, ?_, h.nopAt⟩
  have hf := h.folds
  unfold Insn.foldOf Insn.isPlainAccess
  rw [hf.name, hf.disp, hf.addr, hf.added]
  rcases hf.op with hop | hop <;> simp [hop, hf.dst]

theorem next_iff (h : fn.FoldPair i mem add v s k) {a b : Nat} (hn : fn.Next a b) :
    a = i ↔ b = i + 1 := by
  obtain ⟨hlt, -⟩ := List.getElem?_eq_some_iff.mp h.memAt
  refine Func.next_inside_iff hlt ?_ hn
  unfold Func.isLeader
  rw [h.memAt, Nat.add_sub_cancel, h.addAt]
  rcases h.folds.op with hop | hop <;> simp [hop, h.folds.add_op, IrOp.endsBlock]

/-- The vreg of an addition that is gone is not used. -/
theorem notMem_uses (h : fn.FoldPair i mem add v s k) {j : Nat} {ins : Insn}
    (hins : fn.foldMemoryDisplacements.insns[j]? = some ins) : v ∉ ins.uses := by
  intro hv
  have hpos := Insn.countUses_pos hv
  rw [(foldInv fn).unused h ins (List.mem_of_getElem? hins)] at hpos
  exact absurd hpos (Nat.lt_irrefl 0)

theorem source_mem (h : fn.FoldPair i mem add v s k) : s ∈ (mem.foldAddr s k).uses := by
  unfold Insn.foldAddr Insn.uses Insn.readsDst Insn.definesDst
  rcases h.folds.op with hop | hop <;> simp [hop]

theorem source_ne (h : fn.FoldPair i mem add v s k) : s ≠ v := by
  rintro rfl
  exact h.notMem_uses h.accessAt h.source_mem

theorem add_defs (h : fn.FoldPair i mem add v s k) : add.defs = [v] := by
  obtain ⟨hop, hname, -⟩ := Insn.addedConstant_spec h.folds.added
  unfold Insn.defs Insn.definesDst
  rw [hop, hname, h.folds.dst]
  rfl

end Folded

/-- The sum is in the address vreg when control comes to the access. -/
theorem address_of_run (safe : FoldSafe ctx fn) {i : Nat} {mem add : Insn} {v s : Nat} {k : Int}
    (h : fn.FoldPair i mem add v s k) {st : IrState} {cs : List Choice} {a : IrState} {j : Nat}
    (hrun : fn.Run ctx st cs j a) (hj : j = i + 1) :
    a.env v = a.env s + BitVec.ofInt 16 k := by
  cases hrun with
  | start => cases hj
  | @step cs' i' a' ins ch hrun hins hnext =>
    have hi : i' = i := (h.next_iff hnext).mpr hj
    subst hi
    have heq : ins = add := Option.some.inj (hins.symm.trans h.addAt)
    subst heq
    have hfit : ∀ x, Insn.fit ctx v x = x := fun x => by
      unfold Insn.fit
      rw [safe.word h.foldedAt]
      rfl
    have hv : (ins.exec ctx i' a' ch).env v = Insn.fit ctx v (a'.env s + BitVec.ofInt 16 k) := by
      unfold Insn.exec
      simp only [h.add_defs, List.mem_singleton, if_true, h.folds.added]
    have hs : (ins.exec ctx i' a' ch).env s = a'.env s := by
      unfold Insn.exec
      simp only [h.add_defs, List.mem_singleton, if_neg h.source_ne]
    rw [hv, hs, hfit]

/-- The two executions agree: on the vregs of additions that are still there, on what text reads
later, and on the flags that are read later. -/
structure Agree (ctx : IrContext) (fn : Func) (i : Nat) (a b : IrState) : Prop where
  env : ∀ w, (∀ j mem add s k, ¬fn.FoldPair j mem add w s k) → a.env w = b.env w
  text : ∀ w, a.env w = b.env w ∨ ¬fn.TextLive ctx w i
  flags : ∀ f, a.flags f = b.flags f ∨ ¬fn.FlagLive ctx f i

namespace Agree

variable {i : Nat} {a b : IrState}

/-- What the folded function uses is the same. -/
theorem uses (h : Agree ctx fn i a b) {j : Nat} {ins : Insn}
    (hins : fn.foldMemoryDisplacements.insns[j]? = some ins) {w : Nat} (hw : w ∈ ins.uses) :
    a.env w = b.env w := by
  refine h.env w fun j' mem add s k hp => ?_
  exact hp.notMem_uses hins hw

/-- What an instruction does not write stays dead. -/
theorem text_step (h : Agree ctx fn i a b) {ins : Insn} (hins : fn.insns[i]? = some ins) {j : Nat}
    (hnext : fn.Next i j) {w : Nat} (hw : w ∉ ins.defs) :
    a.env w = b.env w ∨ ¬fn.TextLive ctx w j := by
  refine (h.text w).imp_right fun hdead hlive => hdead (.step ?_ hnext hlive)
  rintro ⟨ins', hins', hmem⟩
  rw [hins] at hins'
  cases hins'
  exact hw hmem

theorem flags_step (h : Agree ctx fn i a b) {ins : Insn} (hins : fn.insns[i]? = some ins) {j : Nat}
    (hnext : fn.Next i j) {f : String} (hf : ins.writesFlag ctx i f = false) :
    a.flags f = b.flags f ∨ ¬fn.FlagLive ctx f j := by
  refine (h.flags f).imp_right fun hdead hlive => hdead (.step ?_ hnext hlive)
  rintro ⟨ins', hins', hw⟩
  rw [hins] at hins'
  cases hins'
  rw [hf] at hw
  cases hw

/-- An instruction that writes the same in both functions. -/
theorem step_same (h : Agree ctx fn i a b) {ins ins' : Insn} (hins : fn.insns[i]? = some ins)
    {ch : Choice} (hnext : fn.Next i ch.next) (hdefs : ins'.defs = ins.defs)
    (hadded : ins'.addedConstant = ins.addedConstant)
    (hwrites : ∀ f, ins'.writesFlag ctx i f = ins.writesFlag ctx i f)
    (hsrc : ∀ s k, ins.addedConstant = some (s, k) → a.env s = b.env s ∧ ins'.dst = ins.dst) :
    Agree ctx fn ch.next (ins.exec ctx i a ch) (ins'.exec ctx i b ch) := by
  have henv : ∀ w, w ∈ ins.defs → (ins.exec ctx i a ch).env w = (ins'.exec ctx i b ch).env w := by
    intro w hw
    unfold Insn.exec
    simp only [hdefs, if_pos hw, hadded]
    cases hc : ins.addedConstant with
    | none => rfl
    | some x => simp only [(hsrc x.1 x.2 hc).1]
  have hkeep : ∀ w, w ∉ ins.defs → (ins.exec ctx i a ch).env w = a.env w ∧
      (ins'.exec ctx i b ch).env w = b.env w := by
    intro w hw
    unfold Insn.exec
    simp only [hdefs, if_neg hw, and_self]
  refine ⟨fun w hw => ?_, fun w => ?_, fun f => ?_⟩
  · by_cases hd : w ∈ ins.defs
    · exact henv w hd
    · rw [(hkeep w hd).1, (hkeep w hd).2]
      exact h.env w hw
  · by_cases hd : w ∈ ins.defs
    · exact .inl (henv w hd)
    · rw [(hkeep w hd).1, (hkeep w hd).2]
      exact h.text_step hins hnext hd
  · cases hf : ins.writesFlag ctx i f with
    | false =>
      have hkeepf : (ins.exec ctx i a ch).flags f = a.flags f ∧
          (ins'.exec ctx i b ch).flags f = b.flags f := by
        unfold Insn.exec
        simp only [hwrites, hf, Bool.false_eq_true, if_false, and_self]
      rw [hkeepf.1, hkeepf.2]
      exact h.flags_step hins hnext hf
    | true =>
      refine .inl ?_
      unfold Insn.exec
      simp only [hwrites, hf, if_true, hadded]
      cases hc : ins.addedConstant with
      | none => rfl
      | some x => simp only [(hsrc x.1 x.2 hc).1, (hsrc x.1 x.2 hc).2]

/-- An addition that is gone. -/
theorem step_nop (safe : FoldSafe ctx fn) (h : Agree ctx fn i a b) {mem add : Insn} {v s : Nat}
    {k : Int} (hp : fn.FoldPair i mem add v s k) {ch : Choice} (hnext : fn.Next i ch.next) :
    Agree ctx fn ch.next (add.exec ctx i a ch) (Insn.makeNop.exec ctx i b ch) := by
  have hj : ch.next = i + 1 := (hp.next_iff hnext).mp rfl
  have hnop : Insn.makeNop.exec ctx i b ch = b := rfl
  have hkeep : ∀ w, w ≠ v → (add.exec ctx i a ch).env w = a.env w := by
    intro w hw
    unfold Insn.exec
    simp only [hp.add_defs, List.mem_singleton, if_neg hw]
  rw [hnop]
  refine ⟨fun w hw => ?_, fun w => ?_, fun f => ?_⟩
  · have hwv : w ≠ v := by
      rintro rfl
      exact hw i mem add s k hp
    rw [hkeep w hwv]
    exact h.env w hw
  · by_cases hwv : w = v
    · subst hwv
      rw [hj]
      exact .inr (safe.text hp.foldedAt)
    · rw [hkeep w hwv]
      refine h.text_step hp.addAt hnext ?_
      rw [hp.add_defs, List.mem_singleton]
      exact hwv
  · by_cases hf : f ∈ arithFlags
    · rw [hj]
      exact .inr (safe.flags hp.foldedAt f hf)
    · have hwrites : add.writesFlag ctx i f = false := by
        unfold Insn.writesFlag
        rw [hp.folds.add_op]
        simp [hf]
      have hkeepf : (add.exec ctx i a ch).flags f = a.flags f := by
        unfold Insn.exec
        simp only [hwrites, Bool.false_eq_true, if_false]
      rw [hkeepf]
      exact h.flags_step hp.addAt hnext hwrites

/-- **One instruction of both functions.** -/
theorem step (safe : FoldSafe ctx fn) (h : Agree ctx fn i a b) {ins ins' : Insn}
    (hins : fn.insns[i]? = some ins) (hins' : fn.foldMemoryDisplacements.insns[i]? = some ins')
    {ch : Choice} (hnext : fn.Next i ch.next) :
    Agree ctx fn ch.next (ins.exec ctx i a ch) (ins'.exec ctx i b ch) := by
  rcases (foldInv fn).cases i with heq | ⟨mem, add, v, s, k, hp⟩ | ⟨j, mem, add, v, s, k, rfl, hp⟩
  · rw [heq, hins] at hins'
    cases hins'
    refine h.step_same hins hnext rfl rfl (fun _ => rfl) fun s k hc => ⟨?_, rfl⟩
    refine h.uses (heq.trans hins) ?_
    obtain ⟨hop, -, hsrc⟩ := Insn.addedConstant_spec hc
    unfold Insn.uses
    simp [hop, hsrc]
  · rw [hp.addAt] at hins
    rw [hp.nopAt] at hins'
    cases hins
    cases hins'
    exact h.step_nop safe hp hnext
  · have hmem := hp.memAt
    rw [hins] at hmem
    rw [hp.accessAt] at hins'
    cases hmem
    cases hins'
    have hnone : ∀ x : Insn, x.op = ins.op → x.addedConstant = none := by
      intro x hx
      unfold Insn.addedConstant
      rw [hx]
      rcases hp.folds.op with hop | hop <;> rw [hop] <;> rfl
    have hadded := (hnone _ (Insn.foldAddr_op ins s k)).trans (hnone ins rfl).symm
    refine h.step_same hins hnext hp.folds.defs_foldAddr hadded (fun f => ?_) fun s' k' hc => ?_
    · unfold Insn.writesFlag
      rw [Insn.foldAddr_op]
      rcases hp.folds.op with hop | hop <;> rw [hop]
    · rw [hnone ins rfl] at hc
      cases hc

end Agree

/-- The choices lead to the same instruction. -/
theorem run_pos {fn : Func} {st : IrState} {cs : List Choice} {i : Nat} {a : IrState}
    (h : fn.Run ctx st cs i a) : i = (cs.head?.map Choice.next).getD 0 := by
  cases h <;> rfl

theorem agree_of_runs (safe : FoldSafe ctx fn) {st : IrState} {cs : List Choice} {i : Nat}
    {a : IrState} (ha : fn.Run ctx st cs i a) : ∀ {b : IrState},
    fn.foldMemoryDisplacements.Run ctx st cs i b → Agree ctx fn i a b := by
  induction ha with
  | start =>
    intro b hb
    cases hb
    exact ⟨fun _ _ => rfl, fun _ => .inl rfl, fun _ => .inl rfl⟩
  | @step cs i a ins ch ha hins hnext ih =>
    intro b hb
    generalize hpos : ch.next = n at hb
    cases hb with
    | @step _ j b ins' _ hb hins' hnext' =>
      have hij : j = i := (run_pos hb).trans (run_pos ha).symm
      subst hij
      exact (ih hb).step safe hins hins' hnext

/-! ## Meaning -/

theorem Insn.access_congr {ins : Insn} {e e' : Nat → BitVec 16} (h : ∀ w ∈ ins.uses, e w = e' w) :
    ins.access ctx e = ins.access ctx e' := by
  unfold Insn.access
  by_cases hop : ((ins.op == .loadmem || ins.op == .storemem) && ins.name == "") = true
  · rw [if_pos hop, if_pos hop]
    have hop' : ins.op = .loadmem ∨ ins.op = .storemem := by
      simp only [Bool.and_eq_true, Bool.or_eq_true, beq_iff_eq] at hop
      exact hop.1
    cases ha : ins.addrVreg with
    | none => rfl
    | some v =>
      have haddr : e v = e' v := by
        refine h v ?_
        unfold Insn.addrVreg at ha
        unfold Insn.uses Insn.readsDst Insn.definesDst
        rcases hop' with hl | hs
        · rw [if_pos (by rw [hl]; rfl)] at ha
          simp [hl, ha]
        · rw [if_neg (by rw [hs]; decide)] at ha
          simp [hs, ha]
      have hsegment : ins.segmentAt ctx e v = ins.segmentAt ctx e' v := by
        unfold Insn.segmentAt
        cases ins.memSeg with
        | some r => rfl
        | none =>
          cases hx : ins.src2 with
          | none => rfl
          | some x =>
            refine congrArg AccessSegment.value (h x ?_)
            unfold Insn.uses
            simp [hx]
      have hstored : ins.src1.map e = ins.src1.map e' := by
        cases hx : ins.src1 with
        | none => rfl
        | some x =>
          refine congrArg some (h x ?_)
          unfold Insn.uses
          rcases hop' with hl | hs <;> simp [*]
      rw [Option.map_some, Option.map_some, haddr, hsegment, hstored]
  · rw [if_neg hop, if_neg hop]

/-- The access at the sum, and the access at the displacement. -/
theorem access_folded (safe : FoldSafe ctx fn) {i : Nat} {mem add : Insn} {v s : Nat} {k : Int}
    (hp : fn.FoldPair i mem add v s k) {e e' : Nat → BitVec 16}
    (hsum : e v = e s + BitVec.ofInt 16 k) (huses : ∀ w ∈ (mem.foldAddr s k).uses, e w = e' w) :
    mem.access ctx e = (mem.foldAddr s k).access ctx e' := by
  rw [← Insn.access_congr huses]
  have haddr : (mem.foldAddr s k).addrVreg = some s ∧ (mem.foldAddr s k).memDisp = some k ∧
      (mem.foldAddr s k).memSeg = mem.memSeg ∧ (mem.foldAddr s k).src2 = mem.src2 ∧
      (mem.op = .storemem → (mem.foldAddr s k).src1 = mem.src1) := by
    unfold Insn.foldAddr Insn.addrVreg
    rcases hp.folds.op with hop | hop <;> simp [hop]
  obtain ⟨haddr, hdisp, hseg, hsrc2, hsrc1⟩ := haddr
  have hsegment : mem.segmentAt ctx e v = (mem.foldAddr s k).segmentAt ctx e s := by
    unfold Insn.segmentAt
    rw [hseg, hsrc2]
    cases hm : mem.memSeg with
    | some r => rfl
    | none =>
      cases hx : mem.src2 with
      | some x => rfl
      | none => exact congrArg AccessSegment.reg (safe.segment hp.foldedAt hm hx)
  have hoffset : e v + BitVec.ofInt 16 (mem.memDisp.getD 0) =
      e s + BitVec.ofInt 16 ((mem.foldAddr s k).memDisp.getD 0) := by
    rw [hdisp, hp.folds.disp, hsum]
    exact BitVec.add_zero _
  unfold Insn.access
  rw [Insn.foldAddr_op, hp.folds.foldAddr_name, hp.folds.name, hp.folds.addr, haddr]
  simp only [Option.map_some, hsegment, hoffset]
  rcases hp.folds.op with hop | hop
  · simp [hop]
  · simp [hop, hsrc1 hop]

theorem Agree.sameAt (safe : FoldSafe ctx fn) {st : IrState} {cs : List Choice} {i : Nat}
    {a b : IrState} (hrun : fn.Run ctx st cs i a) (h : Agree ctx fn i a b) :
    fn.SameAt ctx fn.foldMemoryDisplacements i a b := by
  refine ⟨fun ins ins' hins hins' => ?_, fun ins' hins' w hw => h.uses hins' hw,
    fun w hw => (h.text w).resolve_right fun hdead => hdead (.read hw),
    fun ins' hins' f hf => (h.flags f).resolve_right fun hdead => hdead (.read ?_)⟩
  · rcases (foldInv fn).cases i with heq | ⟨mem, add, v, s, k, hp⟩ |
      ⟨j, mem, add, v, s, k, rfl, hp⟩
    · rw [heq, hins] at hins'
      cases hins'
      exact Insn.access_congr fun w hw => h.uses (heq.trans hins) hw
    · rw [hp.addAt] at hins
      rw [hp.nopAt] at hins'
      cases hins
      cases hins'
      unfold Insn.access
      rw [hp.folds.add_op]
      rfl
    · have huses := fun w hw => h.uses (w := w) hp.accessAt hw
      rw [hp.memAt] at hins
      rw [hp.accessAt] at hins'
      cases hins
      cases hins'
      exact access_folded safe hp (address_of_run safe hp hrun rfl) huses
  · -- what reads flags is not part of a pair
    rcases (foldInv fn).cases i with heq | ⟨mem, add, v, s, k, hp⟩ |
      ⟨j, mem, add, v, s, k, rfl, hp⟩
    · exact ⟨ins', heq.symm.trans hins', hf⟩
    · rw [hp.nopAt] at hins'
      cases hins'
      cases hf
    · rw [hp.accessAt] at hins'
      cases hins'
      unfold Insn.readsFlag at hf
      rw [Insn.foldAddr_op] at hf
      rcases hp.folds.op with hop | hop <;> rw [hop] at hf <;> cases hf

/-- An element is loaded, and its address is not needed any more. -/
def loadsElement : Func :=
  { insns := [{ op := .alu, name := "add", dst := some 1, src1 := some 0, imm := some 4 },
      { op := .loadmem, dst := some 2, src1 := some 1 }, { op := .retval, src1 := some 2 },
      { op := .ret }], nvregs := 3 }

theorem readFrom_false {fn : Func} {reads writes : Nat → Prop} (h : ∀ i, ¬reads i) {i : Nat} :
    ¬fn.ReadFrom reads writes i := by
  intro hr
  induction hr with
  | read hi => exact h _ hi
  | step _ _ _ ih => exact ih

theorem loadsElement_safe : FoldSafe {} loadsElement where
  word := fun _ => rfl
  segment := fun _ _ _ => rfl
  text := fun _ => readFrom_false fun _ h => by cases h
  flags := fun _ f _ => readFrom_false fun i hread => by
    obtain ⟨ins, hins, hread⟩ := hread
    have hnone : ∀ ins ∈ loadsElement.insns, ins.readsFlag {} i f = false := by
      intro ins hmem
      simp only [loadsElement, List.mem_cons, List.not_mem_nil, or_false] at hmem
      rcases hmem with rfl | rfl | rfl | rfl <;> rfl
    rw [hnone ins (List.mem_of_getElem? hins)] at hread
    cases hread

/-- The carry of the addition is asked for behind the access. -/
def asksCarry : Func :=
  { insns := [{ op := .alu, name := "add", dst := some 1, src1 := some 0, imm := some 4 },
      { op := .loadmem, dst := some 2, src1 := some 1 },
      { op := .getflag, dst := some 3, name := "CF" }, { op := .ret }], nvregs := 4 }

theorem asksCarry_next (i : Nat) (h : i < 3) : asksCarry.Next i (i + 1) := by
  have hcfg : asksCarry.buildCfg = [⟨0, 4, []⟩] := by decide
  refine ⟨⟨0, 4, []⟩, ?_, Nat.zero_le i, ?_, .inl ⟨?_, rfl⟩⟩
  · rw [hcfg]
    exact List.mem_cons_self
  · show i < 4
    omega
  · show i + 1 < 4
    omega

end Nib.Bind
