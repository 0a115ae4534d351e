import Mathlib.Data.Finset.Card
import Mathlib.Data.Finset.Lattice.Fold
import Mathlib.Dynamics.PeriodicPts.Defs

/-!
# Repeated passes over a list of copies

Variables hold labels, or none yet. A copy gives its destination the label of the first of its
sources that has one. A pass does all copies in order, and passes are repeated.

* `pass_bind` — a pass on labels that stand for labels
* `quiet_iff_quiet_after` — if some pass changes nothing at all, then the one after `2 * n` passes
  over `n` copies does
* `settles_iff` — the same, decided by where the labels come from
-/

namespace Nib.Infra

/-- A copy to a variable from the first labelled source. -/
structure Copy (ι : Type) where
  dst : ι
  srcs : List ι
  deriving DecidableEq

namespace Copy

variable {ι α β : Type}

/-- The label that a copy hands on. -/
def value (l : ι → Option α) (c : Copy ι) : Option α := c.srcs.findSome? l

/-- No copy changes a label. -/
def Quiet (cs : List (Copy ι)) (l : ι → Option α) : Prop :=
  ∀ c ∈ cs, ∀ a, c.value l = some a → l c.dst = some a

variable [DecidableEq ι]

def apply (l : ι → Option α) (c : Copy ι) : ι → Option α :=
  match c.value l with
  | some a => Function.update l c.dst (some a)
  | none => l

def pass (cs : List (Copy ι)) (l : ι → Option α) : ι → Option α := cs.foldl apply l

/-! ## One pass -/

theorem apply_of_ne (l : ι → Option α) {c : Copy ι} {v : ι} (h : v ≠ c.dst) :
    c.apply l v = l v := by
  unfold apply
  cases c.value l with
  | none => rfl
  | some a => exact Function.update_of_ne h _ _

theorem apply_eq_self {l : ι → Option α} {c : Copy ι}
    (h : ∀ a, c.value l = some a → l c.dst = some a) : c.apply l = l := by
  unfold apply
  cases hv : c.value l with
  | none => rfl
  | some a =>
    show Function.update l c.dst (some a) = l
    rw [← h a hv, Function.update_eq_self]

theorem pass_quiet {cs : List (Copy ι)} {l : ι → Option α} (h : Quiet cs l) : pass cs l = l := by
  induction cs with
  | nil => rfl
  | cons c cs ih =>
    show pass cs (c.apply l) = l
    rw [apply_eq_self (h c List.mem_cons_self)]
    exact ih fun d hd => h d (List.mem_cons_of_mem c hd)

/-- A quiet state is kept. -/
theorem iterate_quiet {cs : List (Copy ι)} {l : ι → Option α} (h : Quiet cs l) (k : Nat) :
    (pass cs)^[k] l = l := Function.iterate_fixed (pass_quiet h) k

/-! ## Labels that stand for labels -/

omit [DecidableEq ι] in
theorem value_bind {m : ι → Option β} {f : β → Option α} (hf : ∀ v u, m v = some u →
    (f u).isSome = true) (c : Copy ι) : c.value (fun v => (m v).bind f) = (c.value m).bind f := by
  unfold value
  induction c.srcs with
  | nil => rfl
  | cons v vs ih =>
    cases hv : m v with
    | none =>
      simp only [List.findSome?_cons, hv, Option.bind_none]
      exact ih
    | some u =>
      obtain ⟨a, ha⟩ := Option.isSome_iff_exists.mp (hf v u hv)
      simp only [List.findSome?_cons, hv, Option.bind_some, ha]

theorem apply_bind {m : ι → Option β} {f : β → Option α} (hf : ∀ v u, m v = some u →
    (f u).isSome = true) (c : Copy ι) :
    c.apply (fun v => (m v).bind f) = fun v => (c.apply m v).bind f := by
  unfold apply
  rw [value_bind hf]
  cases hv : c.value m with
  | none => rfl
  | some u =>
    have hu : ∃ v, m v = some u := by
      obtain ⟨v, -, h⟩ := List.exists_of_findSome?_eq_some hv
      exact ⟨v, h⟩
    obtain ⟨v, hu⟩ := hu
    obtain ⟨a, ha⟩ := Option.isSome_iff_exists.mp (hf v u hu)
    funext w
    simp only [Option.bind_some, ha]
    by_cases hw : w = c.dst
    · rw [hw, Function.update_self, Function.update_self, Option.bind_some, ha]
    · rw [Function.update_of_ne hw, Function.update_of_ne hw]

/-- A copy only hands on what is there. -/
theorem apply_range {m : ι → Option β} {P : β → Prop} (hm : ∀ v u, m v = some u → P u)
    (c : Copy ι) : ∀ v u, c.apply m v = some u → P u := by
  intro v u h
  unfold apply at h
  cases hv : c.value m with
  | none =>
    rw [hv] at h
    exact hm v u h
  | some b =>
    rw [hv] at h
    obtain ⟨w, -, hw⟩ := List.exists_of_findSome?_eq_some hv
    by_cases hd : v = c.dst
    · rw [hd] at h
      have hb : some b = some u := by simpa using h
      exact hm w u (hw.trans hb)
    · have hu : m v = some u := by simpa [Function.update_of_ne hd] using h
      exact hm v u hu

theorem pass_range {P : β → Prop} (cs : List (Copy ι)) : ∀ {m : ι → Option β},
    (∀ v u, m v = some u → P u) → ∀ v u, pass cs m v = some u → P u := by
  induction cs with
  | nil => exact fun hm => hm
  | cons c cs ih => exact fun hm => ih (apply_range hm c)

theorem pass_bind {f : β → Option α} (cs : List (Copy ι)) : ∀ {m : ι → Option β},
    (∀ v u, m v = some u → (f u).isSome = true) →
      pass cs (fun v => (m v).bind f) = fun v => (pass cs m v).bind f := by
  induction cs with
  | nil => exact fun _ => rfl
  | cons c cs ih =>
    intro m hm
    show pass cs (c.apply fun v => (m v).bind f) = _
    rw [apply_bind hm]
    exact ih (apply_range hm c)

theorem iterate_range {P : β → Prop} (cs : List (Copy ι)) {m : ι → Option β}
    (hm : ∀ v u, m v = some u → P u) (k : Nat) : ∀ v u, (pass cs)^[k] m v = some u → P u := by
  induction k with
  | zero => exact hm
  | succ k ih =>
    rw [Function.iterate_succ_apply']
    exact pass_range cs ih

theorem iterate_bind {f : β → Option α} (cs : List (Copy ι)) {m : ι → Option β}
    (hm : ∀ v u, m v = some u → (f u).isSome = true) (k : Nat) :
    (pass cs)^[k] (fun v => (m v).bind f) = fun v => ((pass cs)^[k] m v).bind f := by
  induction k with
  | zero => rfl
  | succ k ih =>
    rw [Function.iterate_succ_apply', Function.iterate_succ_apply', ih]
    exact pass_bind cs (iterate_range cs hm k)

/-! ## Which variables are labelled -/

theorem pass_of_notMem (cs : List (Copy ι)) {v : ι} (h : ∀ c ∈ cs, v ≠ c.dst) :
    ∀ l : ι → Option α, pass cs l v = l v := by
  induction cs with
  | nil => exact fun _ => rfl
  | cons c cs ih =>
    intro l
    show pass cs (c.apply l) v = l v
    rw [ih (fun d hd => h d (List.mem_cons_of_mem c hd))]
    exact apply_of_ne l (h c List.mem_cons_self)

theorem pass_isSome (cs : List (Copy ι)) {v : ι} : ∀ {l : ι → Option α}, (l v).isSome = true →
    (pass cs l v).isSome = true := by
  induction cs with
  | nil => exact fun h => h
  | cons c cs ih =>
    intro l h
    refine ih ?_
    by_cases hd : v = c.dst
    · unfold apply
      cases c.value l with
      | none => exact h
      | some a =>
        rw [hd]
        show (Function.update l c.dst (some a) c.dst).isSome = true
        rw [Function.update_self]
        rfl
    · rwa [apply_of_ne l hd]

/-- No further variable gets a label. -/
def Stable (cs : List (Copy ι)) (l : ι → Option α) : Prop :=
  ∀ v, (pass cs l v).isSome = true → (l v).isSome = true

omit [DecidableEq ι] in
theorem isSome_bind_unit (o : Option α) : (o.bind fun _ => some ()).isSome = o.isSome := by
  cases o <;> rfl

theorem Stable.pass {cs : List (Copy ι)} {l : ι → Option α} (h : Stable cs l) :
    Stable cs (Copy.pass cs l) := by
  -- labels without their content are the same before and after the pass
  have hsame : (fun v => (Copy.pass cs l v).bind fun _ => some ()) =
      fun v => (l v).bind fun _ => some () := by
    funext v
    cases hv : l v with
    | none =>
      cases hp : Copy.pass cs l v with
      | none => rfl
      | some a =>
        have hsome := h v (by rw [hp]; rfl)
        rw [hv] at hsome
        cases hsome
    | some a =>
      obtain ⟨b, hb⟩ := Option.isSome_iff_exists.mp (pass_isSome cs (l := l) (by rw [hv]; rfl))
      rw [hb]
      rfl
  have hbind := pass_bind (f := fun _ : α => some ()) cs (m := Copy.pass cs l) fun _ _ _ => rfl
  rw [hsame, pass_bind cs fun _ _ _ => rfl] at hbind
  intro v hv
  have hv' := congrFun hbind v
  rw [← isSome_bind_unit, ← hv', isSome_bind_unit] at hv
  exact hv

theorem Stable.iterate {cs : List (Copy ι)} {l : ι → Option α} (h : Stable cs l) (k : Nat) :
    Stable cs ((Copy.pass cs)^[k] l) := by
  induction k with
  | zero => exact h
  | succ k ih =>
    rw [Function.iterate_succ_apply']
    exact ih.pass

/-- The destinations of the copies. -/
def targets (cs : List (Copy ι)) : Finset ι := (cs.map Copy.dst).toFinset

theorem card_targets (cs : List (Copy ι)) : (targets cs).card ≤ cs.length := by
  have h := List.toFinset_card_le (cs.map Copy.dst)
  rwa [List.length_map] at h

/-- Until the labelled variables are stable, each pass labels one more destination. -/
theorem stable_or_card (cs : List (Copy ι)) (l : ι → Option α) (k : Nat) :
    (∃ j < k, Stable cs ((pass cs)^[j] l)) ∨
      ∃ A ⊆ targets cs, k ≤ A.card ∧ ∀ v ∈ A, ((pass cs)^[k] l v).isSome = true := by
  induction k with
  | zero => exact Or.inr ⟨∅, Finset.empty_subset _, Nat.zero_le _, by simp⟩
  | succ k ih =>
    rcases ih with ⟨j, hj, h⟩ | ⟨A, hsub, hcard, hA⟩
    · exact Or.inl ⟨j, by omega, h⟩
    by_cases hst : Stable cs ((pass cs)^[k] l)
    · exact Or.inl ⟨k, by omega, hst⟩
    obtain ⟨v, hv, hnot⟩ : ∃ v, (pass cs ((pass cs)^[k] l) v).isSome = true ∧
        ¬((pass cs)^[k] l v).isSome = true := by simpa [Stable] using hst
    have hmem : v ∈ targets cs := by
      by_contra hc
      have hne : ∀ c ∈ cs, v ≠ c.dst := by
        rintro c hcs rfl
        exact hc (List.mem_toFinset.mpr (List.mem_map_of_mem hcs))
      rw [pass_of_notMem cs hne] at hv
      exact hnot hv
    have hnew : v ∉ A := fun hc => hnot (hA v hc)
    refine Or.inr ⟨insert v A, Finset.insert_subset hmem hsub, ?_, ?_⟩
    · rw [Finset.card_insert_of_notMem hnew]
      omega
    · intro w hw
      rw [Function.iterate_succ_apply']
      rcases Finset.mem_insert.mp hw with rfl | hw
      · exact hv
      · exact pass_isSome cs (hA w hw)

theorem stable_iterate (cs : List (Copy ι)) (l : ι → Option α) :
    Stable cs ((pass cs)^[cs.length] l) := by
  rcases stable_or_card cs l (cs.length + 1) with ⟨j, hj, h⟩ | ⟨A, hsub, hcard, -⟩
  · have hk := h.iterate (cs.length - j)
    rwa [← Function.iterate_add_apply, Nat.sub_add_cancel (by omega)] at hk
  · have hle := (Finset.card_le_card hsub).trans (card_targets cs)
    omega

/-! ## Where labels come from -/

/-- Each labelled variable stands for itself. -/
def marks (l : ι → Option α) : ι → Option ι := fun v => (l v).map fun _ => v

omit [DecidableEq ι] in
theorem marks_isSome {l : ι → Option α} (v u : ι) (h : marks l v = some u) :
    (l u).isSome = true := by
  unfold marks at h
  cases hv : l v with
  | none =>
    rw [hv] at h
    cases h
  | some a =>
    rw [hv] at h
    cases h
    rw [hv]
    rfl

omit [DecidableEq ι] in
theorem marks_bind (l : ι → Option α) : (fun v => (marks l v).bind l) = l := by
  funext v
  unfold marks
  cases hv : l v with
  | none => rfl
  | some a => exact hv

theorem iterate_eq_marks (cs : List (Copy ι)) (l : ι → Option α) (k : Nat) :
    (pass cs)^[k] l = fun v => ((pass cs)^[k] (marks l) v).bind l := by
  conv_lhs => rw [← marks_bind l]
  exact iterate_bind cs marks_isSome k

/-- The variable whose label a pass leaves in a variable. -/
def source (cs : List (Copy ι)) (l : ι → Option α) (v : ι) : ι := (pass cs (marks l) v).getD v

theorem source_of_notMem {cs : List (Copy ι)} (l : ι → Option α) {v : ι}
    (h : v ∉ targets cs) : source cs l v = v := by
  have hne : ∀ c ∈ cs, v ≠ c.dst := by
    rintro c hcs rfl
    exact h (List.mem_toFinset.mpr (List.mem_map_of_mem hcs))
  unfold source marks
  rw [pass_of_notMem cs hne]
  cases l v <;> rfl

theorem pass_marks {cs : List (Copy ι)} {l : ι → Option α} (h : Stable cs l) :
    pass cs (marks l) = fun v => (marks l v).bind fun u => some (source cs l u) := by
  funext v
  have hl := congrFun (iterate_eq_marks cs l 1) v
  cases hv : l v with
  | none =>
    have hm : marks l v = none := by rw [marks, hv]; rfl
    rw [hm]
    cases hp : pass cs (marks l) v with
    | none => rfl
    | some u =>
      obtain ⟨a, ha⟩ := Option.isSome_iff_exists.mp (pass_range cs marks_isSome v u hp)
      have hsome : (pass cs l v).isSome = true := by
        have heq : pass cs l v = (pass cs (marks l) v).bind l := hl
        rw [heq, hp, Option.bind_some, ha]
        rfl
      have := h v hsome
      rw [hv] at this
      cases this
  | some a =>
    have hm : marks l v = some v := by rw [marks, hv]; rfl
    rw [hm, Option.bind_some, source]
    obtain ⟨u, hu⟩ := Option.isSome_iff_exists.mp (pass_isSome cs (v := v) (l := marks l)
      (by rw [hm]; rfl))
    rw [hu]
    rfl

theorem iterate_marks {cs : List (Copy ι)} {l : ι → Option α} (h : Stable cs l) (k : Nat) :
    (pass cs)^[k] (marks l) = fun v => (marks l v).map (source cs l)^[k] := by
  induction k with
  | zero =>
    funext v
    exact (Option.map_id_apply).symm
  | succ k ih =>
    have hsome : ∀ v u, marks l v = some u → (some (source cs l u)).isSome = true :=
      fun _ _ _ => rfl
    rw [Function.iterate_succ_apply, pass_marks h, iterate_bind cs hsome, ih]
    funext v
    show ((marks l v).map (source cs l)^[k]).bind (fun u => some (source cs l u)) = _
    cases marks l v with
    | none => rfl
    | some u => exact congrArg some (Function.iterate_succ_apply' (source cs l) k u).symm

/-! ## When passes settle -/

omit [DecidableEq ι] in
/-- A function that moves at most `n` points has each point in a cycle after `n` steps. -/
theorem exists_isPeriodicPt {f : ι → ι} {D : Finset ι} (hf : ∀ v, v ∉ D → f v = v) {n : Nat}
    (hn : D.card ≤ n) (v : ι) : ∃ p > 0, Function.IsPeriodicPt f p (f^[n] v) := by
  by_cases hall : ∀ i ∈ Finset.range (n + 1), f^[i] v ∈ D
  · obtain ⟨i, hi, j, hj, hne, heq⟩ := Finset.exists_ne_map_eq_of_card_lt_of_maps_to
      (show D.card < (Finset.range (n + 1)).card by rw [Finset.card_range]; omega) hall
    -- the cycle is entered at the earlier of the two equal points
    have hcycle : ∀ a b, a < b → b ∈ Finset.range (n + 1) → f^[a] v = f^[b] v →
        ∃ p > 0, Function.IsPeriodicPt f p (f^[n] v) := by
      intro a b hab hb h
      have hbn : b ≤ n := by simpa [Nat.lt_succ_iff] using hb
      have hper : Function.IsPeriodicPt f (b - a) (f^[a] v) := by
        show f^[b - a] (f^[a] v) = f^[a] v
        rw [← Function.iterate_add_apply, Nat.sub_add_cancel hab.le]
        exact h.symm
      refine ⟨b - a, by omega, ?_⟩
      have h := hper.apply_iterate (n - a)
      rwa [← Function.iterate_add_apply, Nat.sub_add_cancel (by omega)] at h
    rcases Nat.lt_or_gt_of_ne hne with hlt | hlt
    · exact hcycle i j hlt hj heq
    · exact hcycle j i hlt hi heq.symm
  · push Not at hall
    obtain ⟨i, hi, hout⟩ := hall
    have hin : i ≤ n := by simpa [Nat.lt_succ_iff] using hi
    refine ⟨1, Nat.one_pos, ?_⟩
    have h := Function.IsPeriodicPt.apply_iterate (show Function.IsPeriodicPt f 1 (f^[i] v) from
      hf _ hout) (n - i)
    rwa [← Function.iterate_add_apply, Nat.sub_add_cancel hin] at h

variable {cs : List (Copy ι)} {l : ι → Option α}

/-- A copy whose source is labelled has a labelled destination. -/
theorem dst_isSome (h : Stable cs l) {c : Copy ι} (hc : c ∈ cs)
    (hv : (c.value l).isSome = true) : (l c.dst).isSome = true := by
  refine h c.dst ?_
  clear h
  induction cs generalizing l with
  | nil => cases hc
  | cons d cs ih =>
    show (pass cs (d.apply l) c.dst).isSome = true
    rcases List.mem_cons.mp hc with rfl | hc
    · refine pass_isSome cs ?_
      obtain ⟨a, ha⟩ := Option.isSome_iff_exists.mp hv
      unfold apply
      rw [ha]
      show (Function.update l c.dst (some a) c.dst).isSome = true
      rw [Function.update_self]
      rfl
    · refine ih hc ?_
      -- the copy before only adds labels
      unfold value at hv ⊢
      rw [List.findSome?_isSome_iff] at hv ⊢
      obtain ⟨s, hs, hsome⟩ := hv
      exact ⟨s, hs, pass_isSome [d] hsome⟩

/-- The label of a copy's source after some passes, and that of its destination. -/
theorem quiet_iterate_iff (h : Stable cs l) (k : Nat) : Quiet cs ((pass cs)^[k] l) ↔
    ∀ c ∈ cs, ∀ s, c.value (marks l) = some s →
      l ((source cs l)^[k] c.dst) = l ((source cs l)^[k] s) := by
  have hlab : (pass cs)^[k] l = fun v => (marks l v).bind fun u => l ((source cs l)^[k] u) := by
    rw [iterate_eq_marks, iterate_marks h]
    funext v
    show ((marks l v).map (source cs l)^[k]).bind l = _
    cases marks l v <;> rfl
  have hsome : ∀ v u, marks l v = some u → (l ((source cs l)^[k] u)).isSome = true := by
    intro v u hu
    have huv : v = u := by
      unfold marks at hu
      cases hv : l v with
      | none =>
        rw [hv] at hu
        cases hu
      | some a =>
        rw [hv] at hu
        exact Option.some.inj hu
    refine iterate_range cs marks_isSome k v _ ?_
    rw [iterate_marks h]
    show (marks l v).map (source cs l)^[k] = _
    rw [hu]
    rfl
  -- a copy whose source is labelled has a labelled destination
  have hdst : ∀ c ∈ cs, ∀ s, c.value (marks l) = some s → marks l c.dst = some c.dst := by
    intro c hc s hs
    have hval : (c.value l).isSome = true := by
      have heq := value_bind (f := l) marks_isSome c
      rw [marks_bind, hs, Option.bind_some] at heq
      obtain ⟨v, -, hv⟩ := List.exists_of_findSome?_eq_some hs
      rw [heq]
      exact marks_isSome v s hv
    obtain ⟨a, ha⟩ := Option.isSome_iff_exists.mp (dst_isSome h hc hval)
    rw [marks, ha]
    rfl
  rw [hlab]
  constructor
  · intro hq c hc s hs
    obtain ⟨v, -, hv⟩ := List.exists_of_findSome?_eq_some hs
    obtain ⟨a, ha⟩ := Option.isSome_iff_exists.mp (hsome v s hv)
    have hd := hq c hc a (by rw [value_bind hsome, hs]; exact ha)
    have hm : ((marks l c.dst).bind fun u => l ((source cs l)^[k] u)) = some a := hd
    rw [hdst c hc s hs] at hm
    exact hm.trans ha.symm
  · intro hq c hc a ha
    rw [value_bind hsome] at ha
    cases hs : c.value (marks l) with
    | none =>
      rw [hs] at ha
      cases ha
    | some s =>
      rw [hs] at ha
      show ((marks l c.dst).bind fun u => l ((source cs l)^[k] u)) = some a
      rw [hdst c hc s hs]
      exact (hq c hc s hs).trans ha

/-- What is quiet later is quiet as soon as all labels come from cycles. -/
theorem quiet_of_quiet_iterate (h : Stable cs l) {k : Nat} (hq : Quiet cs ((pass cs)^[k] l)) :
    Quiet cs ((pass cs)^[cs.length] l) := by
  rw [quiet_iterate_iff h]
  intro c hc s hs
  have hper := exists_isPeriodicPt (fun v hv => source_of_notMem l hv) (card_targets cs)
  obtain ⟨p, hp, hd⟩ := hper c.dst
  obtain ⟨q, hq0, hs'⟩ := hper s
  -- both are back after any number of common periods, and the labels agree late enough
  have hlate : Quiet cs ((pass cs)^[k * (p * q) + cs.length] l) := by
    have hle : k ≤ k * (p * q) + cs.length :=
      (Nat.le_mul_of_pos_right k (Nat.mul_pos hp hq0)).trans (Nat.le_add_right _ _)
    rw [← Nat.sub_add_cancel hle, Function.iterate_add_apply, iterate_quiet hq]
    exact hq
  have heq := (quiet_iterate_iff h _).mp hlate c hc s hs
  rwa [Function.iterate_add_apply, Function.iterate_add_apply,
    ((hd.mul_const q).const_mul k).eq, ((hs'.const_mul p).const_mul k).eq] at heq

/-- **If passes ever settle, they have settled after two for each copy.** -/
theorem quiet_iff_quiet_after (cs : List (Copy ι)) (l : ι → Option α) :
    (∃ k, Quiet cs ((pass cs)^[k] l)) ↔ Quiet cs ((pass cs)^[2 * cs.length] l) := by
  refine ⟨?_, fun h => ⟨_, h⟩⟩
  rintro ⟨k, hk⟩
  have hlate : Quiet cs ((pass cs)^[k] ((pass cs)^[cs.length] l)) := by
    rw [← Function.iterate_add_apply, Nat.add_comm, Function.iterate_add_apply, iterate_quiet hk]
    exact hk
  rw [Nat.two_mul, Function.iterate_add_apply]
  exact quiet_of_quiet_iterate (stable_iterate cs l) hlate

/-- **Passes settle if and only if after two passes for each copy the marks of its source and
destination stand for the same label.** -/
theorem settles_iff (cs : List (Copy ι)) (l : ι → Option α) :
    (∃ k, Quiet cs ((pass cs)^[k] l)) ↔
      ∀ c ∈ cs, ∀ s, c.value ((pass cs)^[2 * cs.length] (marks l)) = some s →
        ∃ d, (pass cs)^[2 * cs.length] (marks l) c.dst = some d ∧ l d = l s := by
  have hsome : ∀ v u, (pass cs)^[2 * cs.length] (marks l) v = some u → (l u).isSome = true :=
    iterate_range cs marks_isSome _
  rw [quiet_iff_quiet_after, iterate_eq_marks]
  constructor
  · intro hq c hc s hs
    obtain ⟨v, -, hv⟩ := List.exists_of_findSome?_eq_some hs
    obtain ⟨a, ha⟩ := Option.isSome_iff_exists.mp (hsome v s hv)
    have hd := hq c hc a (by rw [value_bind hsome, hs]; exact ha)
    obtain ⟨d, hm, hl⟩ := Option.bind_eq_some_iff.mp hd
    exact ⟨d, hm, hl.trans ha.symm⟩
  · intro hq c hc a ha
    rw [value_bind hsome] at ha
    obtain ⟨s, hs, hl⟩ := Option.bind_eq_some_iff.mp ha
    obtain ⟨d, hd, heq⟩ := hq c hc s hs
    show ((pass cs)^[2 * cs.length] (marks l) c.dst).bind l = some a
    rw [hd, Option.bind_some, heq, hl]

end Copy

end Nib.Infra
