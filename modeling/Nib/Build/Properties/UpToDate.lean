import Nib.Build.Spec.UpToDate

/-!
# Failed compiles

* `mem_topoSort` — every module is in the order
* `nib_cases` — what a safe compile does to the files
* `Judged.step` — an output that is not complete looks out of date
* `failed_never_up_to_date` — so it is compiled again, and never bound
-/

namespace Nib.Build

/-! ## The order -/

/-- Every module is in the order. -/
theorem mem_topoSort (deps : Module → List Module) {modules : List Module} {m : Module}
    (h : m ∈ modules) : m ∈ topoSort deps modules := by
  unfold topoSort
  by_cases hm : m ∈ topoLoop deps modules modules.length []
  · exact List.mem_append_left _ hm
  · exact List.mem_append_right _ (List.mem_filter.mpr ⟨h, by simpa using hm⟩)

/-- The order has modules only. -/
theorem topoPass_subset (deps : Module → List Module) : ∀ (modules order : List Module),
    topoPass deps modules order ⊆ order ++ modules
  | [], order => by
    rw [List.append_nil]
    exact List.Subset.refl order
  | m :: modules, order => by
    have hskip : order ++ modules ⊆ order ++ m :: modules :=
      List.append_subset.mpr ⟨List.subset_append_left _ _,
        fun x hx => List.mem_append_right _ (List.mem_cons_of_mem m hx)⟩
    rw [topoPass]
    split_ifs
    · exact List.Subset.trans (topoPass_subset deps modules order) hskip
    · refine List.Subset.trans (topoPass_subset deps modules (order ++ [m])) ?_
      rw [List.append_assoc]
      exact List.Subset.refl _
    · exact List.Subset.trans (topoPass_subset deps modules order) hskip

theorem topoLoop_subset (deps : Module → List Module) {modules : List Module} :
    ∀ (fuel : Nat) {order : List Module}, order ⊆ modules →
    topoLoop deps modules fuel order ⊆ modules
  | 0, _, h => h
  | fuel + 1, order, h => by
    have hpass : topoPass deps modules order ⊆ modules :=
      List.Subset.trans (topoPass_subset deps modules order)
        (List.append_subset.mpr ⟨h, List.Subset.refl modules⟩)
    simp only [topoLoop]
    split_ifs
    · exact h
    · exact topoLoop_subset deps fuel hpass

theorem topoSort_subset (deps : Module → List Module) (modules : List Module) :
    topoSort deps modules ⊆ modules :=
  List.append_subset.mpr ⟨topoLoop_subset deps _ (List.nil_subset modules),
    fun _ hm => (List.mem_filter.mp hm).1⟩

/-! ## Files -/

@[simp] theorem setFile_self {α : Type} (files : Module → Option α) (m : Module)
    (file : Option α) : setFile files m file m = file := if_pos rfl

theorem setFile_of_ne {α : Type} (files : Module → Option α) {m m' : Module} (file : Option α)
    (h : m' ≠ m) : setFile files m file m' = files m' := if_neg h

/-- The outputs of a module are the same in two states. -/
def SameOutputs (d d' : Disk) (m : Module) : Prop := d'.nir m = d.nir m ∧ d'.nif m = d.nif m

theorem Complete.congr {d d' : Disk} {m : Module} (h : Complete d m) (hsame : SameOutputs d d' m) :
    Complete d' m := by
  unfold Complete
  rw [hsame.1, hsame.2]
  exact h

/-! ## The invariant -/

/-- The outputs of a module look out of date, and will do so whenever its source is there. -/
def Stale (d : Disk) (m : Module) : Prop :=
  d.nirTime m = 0 ∨ d.nifTime m = 0 ∨
    (d.nifTime m < d.now ∧ (d.srcTime m ≠ 0 → d.nifTime m < d.srcTime m))

/-- Every source is from the past, and outputs that are not complete look out of date. -/
structure Judged (d : Disk) : Prop where
  past : ∀ m, d.srcTime m ≤ d.now
  stale : ∀ m, Complete d m ∨ Stale d m

/-- A module that is out of date is compiled. -/
theorem needsCompile_of_stale (v : Invocation) {d : Disk} {m : Module} (h : Stale d m)
    (hsrc : d.srcTime m ≠ 0) : needsCompile v d m = true := by
  unfold needsCompile
  rcases h with h | h | ⟨-, h⟩
  · simp [h]
  · simp [h]
  · simp [h hsrc]

theorem Stale.congr {d d' : Disk} {m : Module} (h : Stale d m) (hsame : SameOutputs d d' m)
    (hsrc : d'.srcTime m = d.srcTime m) (hnow : d.now ≤ d'.now) : Stale d' m := by
  have hnir : d'.nirTime m = d.nirTime m := by rw [Disk.nirTime, hsame.1, Disk.nirTime]
  have hnif : d'.nifTime m = d.nifTime m := by rw [Disk.nifTime, hsame.2, Disk.nifTime]
  unfold Stale
  rw [hnir, hnif, hsrc]
  exact h.imp_right fun h => h.imp_right fun h => ⟨Nat.lt_of_lt_of_le h.1 hnow, h.2⟩

theorem Judged.congr {d d' : Disk} {m : Module} (h : Judged d) (hsame : SameOutputs d d' m)
    (hsrc : d'.srcTime m = d.srcTime m) (hnow : d.now ≤ d'.now) : Complete d' m ∨ Stale d' m :=
  (h.stale m).imp (fun hc => hc.congr hsame) fun hs => hs.congr hsame hsrc hnow

/-! ## A compile -/

/-- **What a safe compile does**: nothing; or it leaves an empty `.nir` file and a `.nif` file that
is missing or older than the source; or it writes both outputs. -/
theorem nib_cases {a : Attempt} {m : Module} {d : Disk} (h : SafeAttempt a m d) :
    nib false a m d = (1, { d with now := d.now + a.seconds }) ∨
      ((d.nifTime m = 0 ∨ d.nifTime m < d.srcTime m) ∧
        nib false a m d = (1, { d with
          now := d.now + a.seconds
          nir := setFile d.nir m (some { mtime := d.now, complete := false }) })) ∨
      nib false a m d = (0, { d with
        now := d.now + a.seconds
        nir := setFile d.nir m (some { mtime := d.now + a.seconds, complete := true })
        nif := setFile d.nif m (some { mtime := d.now + a.seconds, complete := true }) }) := by
  unfold nib
  by_cases hspawns : a.spawns = false
  · exact .inl (by rw [if_pos hspawns])
  by_cases hparses : a.parses = false
  · exact .inl (by rw [if_neg hspawns, if_pos hparses])
  rw [if_neg hspawns, if_neg hparses, if_neg Bool.false_ne_true]
  unfold compile
  by_cases hnir : a.nirOpens = false
  · exact .inl (by rw [if_pos hnir])
  rw [if_neg hnir]
  rcases h with h | h | h | ⟨h, htime⟩ | ⟨hnif, hcrash, herrors, hwritten⟩
  · exact absurd h hspawns
  · exact absurd h hparses
  · exact absurd h hnir
  · exact .inr (.inl ⟨htime, by simp only [h, if_true]⟩)
  · refine .inr (.inr ?_)
    simp only [hnif, hcrash, herrors, hwritten, reduceCtorEq, if_false, Nat.lt_irrefl,
      Bool.false_eq_true]

/-- A safe compile keeps the invariant, touches no other module, and writes both outputs when it
succeeds. -/
theorem nib_safe {a : Attempt} {m : Module} {d : Disk} (hd : Judged d) (h : SafeAttempt a m d) :
    Judged (nib false a m d).2 ∧ (∀ m', m' ≠ m → SameOutputs d (nib false a m d).2 m') ∧
      ((nib false a m d).1 = 0 → Complete (nib false a m d).2 m) := by
  have hnow : d.now ≤ d.now + a.seconds := Nat.le_add_right _ _
  have hpast : ∀ m', d.srcTime m' ≤ d.now + a.seconds := fun m' =>
    Nat.le_trans (hd.past m') hnow
  rcases nib_cases h with hnib | ⟨htime, hnib⟩ | hnib
  · rw [hnib]
    refine ⟨⟨hpast, fun m' => ?_⟩, fun _ _ => ⟨rfl, rfl⟩, fun h0 => by cases h0⟩
    exact hd.congr ⟨rfl, rfl⟩ rfl hnow
  · rw [hnib]
    have hother : ∀ m', m' ≠ m → SameOutputs d { d with
        now := d.now + a.seconds
        nir := setFile d.nir m (some { mtime := d.now, complete := false }) } m' :=
      fun m' hm' => ⟨setFile_of_ne _ _ hm', rfl⟩
    refine ⟨⟨hpast, fun m' => ?_⟩, hother, fun h0 => by cases h0⟩
    by_cases hm' : m' = m
    · subst hm'
      refine .inr (.inr ?_)
      rcases htime with hnone | hlt
      · exact .inl hnone
      · have hlater : d.nifTime m' < d.now + a.seconds :=
          Nat.lt_of_lt_of_le hlt (hpast m')
        exact .inr ⟨hlater, fun _ => hlt⟩
    · exact hd.congr (hother m' hm') rfl hnow
  · rw [hnib]
    have hother : ∀ m', m' ≠ m → SameOutputs d { d with
        now := d.now + a.seconds
        nir := setFile d.nir m (some { mtime := d.now + a.seconds, complete := true })
        nif := setFile d.nif m (some { mtime := d.now + a.seconds, complete := true }) } m' :=
      fun m' hm' => ⟨setFile_of_ne _ _ hm', setFile_of_ne _ _ hm'⟩
    have hself : Complete { d with
        now := d.now + a.seconds
        nir := setFile d.nir m (some { mtime := d.now + a.seconds, complete := true })
        nif := setFile d.nif m (some { mtime := d.now + a.seconds, complete := true }) } m :=
      ⟨⟨_, setFile_self _ _ _, rfl⟩, ⟨_, setFile_self _ _ _, rfl⟩⟩
    refine ⟨⟨hpast, fun m' => ?_⟩, hother, fun _ => hself⟩
    by_cases hm' : m' = m
    · subst hm'
      exact .inl hself
    · exact hd.congr (hother m' hm') rfl hnow

/-- The compile step keeps the invariant, and when nothing fails what was complete still is and what
was compiled now is. -/
theorem compileAll_safe {v : Invocation} (hv : v.parseOnly = false) :
    ∀ {order : List Module} {d : Disk}, Judged d → SafeAttempts v order d →
    Judged (compileAll v order d).2 ∧ ((compileAll v order d).1 = 0 →
      ∀ m, Complete d m ∨ m ∈ order → Complete (compileAll v order d).2 m)
  | [], _, hd, _ => ⟨hd, fun _ _ h => h.resolve_right List.not_mem_nil⟩
  | m :: order, d, hd, ⟨hsafe, hrest⟩ => by
    simp only [compileAll, hv] at hrest ⊢
    obtain ⟨hjudged, hother, hself⟩ := nib_safe hd hsafe
    obtain ⟨hkeep, hcomplete⟩ := compileAll_safe hv hjudged hrest
    refine ⟨hkeep, fun hzero m' hm' => ?_⟩
    have hfirst : (nib false (v.attempt m) m d).1 = 0 := by
      by_contra hne
      rw [if_pos hne] at hzero
      omega
    rw [if_neg (not_not_intro hfirst), Nat.zero_add] at hzero
    refine hcomplete hzero m' ?_
    by_cases heq : m' = m
    · subst heq
      exact .inl (hself hfirst)
    · exact hm'.imp (fun hc => hc.congr (hother m' heq))
        fun hmem => (List.mem_cons.mp hmem).resolve_left heq

/-! ## A build -/

/-- A safe build compiles what is not complete, and binds complete outputs. -/
theorem Judged.recompilesFailed {v : Invocation} {d : Disk} (hd : Judged d) (hv : Safe v d) :
    RecompilesFailed v d := by
  have hsources : (v.modules.any fun m => d.srcTime m == 0) = false := by
    rw [List.any_eq_false]
    exact fun m hm => by simpa using hv.sources m hm
  have hneeds : ∀ m ∈ v.modules, ¬Complete d m → needsCompile v d m = true := fun m hm hnot =>
    needsCompile_of_stale v ((hd.stale m).resolve_left hnot) (hv.sources m hm)
  obtain ⟨-, hcomplete⟩ := compileAll_safe hv.compiles hd hv.attempts
  unfold RecompilesFailed nibbuild
  simp only [hsources, Bool.false_eq_true, if_false]
  by_cases hfailed : 0 <
      (compileAll v ((topoSort v.deps v.modules).filter (needsCompile v d)) d).1
  · simp only [if_pos hfailed]
    exact ⟨fun m hm hnot => List.mem_filter.mpr ⟨mem_topoSort v.deps hm, hneeds m hm hnot⟩,
      fun m hm => by cases hm⟩
  · simp only [if_neg hfailed]
    refine ⟨fun m hm hnot => List.mem_filter.mpr ⟨mem_topoSort v.deps hm, hneeds m hm hnot⟩,
      fun m hm => hcomplete (by omega) m ?_⟩
    by_cases hc : Complete d m
    · exact .inl hc
    · exact .inr (List.mem_filter.mpr ⟨hm, hneeds m (topoSort_subset _ _ hm) hc⟩)

theorem Judged.nibbuild {v : Invocation} {d : Disk} (hd : Judged d) (hv : Safe v d) :
    Judged (nibbuild v d).2 := by
  have hkeep := (compileAll_safe hv.compiles hd hv.attempts).1
  unfold Build.nibbuild
  simp only
  by_cases hsources : (v.modules.any fun m => d.srcTime m == 0) = true
  · rw [if_pos hsources]
    exact hd
  · rw [if_neg hsources]
    split
    · exact hkeep
    · exact hkeep

/-! ## Runs -/

theorem judged_noFiles (now : Nat) : Judged (noFiles now) :=
  ⟨fun _ => Nat.zero_le now, fun _ => .inr (.inl rfl)⟩

/-- **A step keeps the invariant.** -/
theorem Judged.step {d : Disk} (hd : Judged d) :
    ∀ {e : Event}, (∀ v, e = .build v → Safe v d) → Judged (step d e)
  | .wait seconds, _ => by
    refine ⟨fun m => Nat.le_trans (hd.past m) (Nat.le_add_right _ _), fun m => ?_⟩
    exact hd.congr ⟨rfl, rfl⟩ rfl (Nat.le_add_right _ _)
  | .write m, _ => by
    have hother : ∀ m', m' ≠ m → (Build.step d (.write m)).srcTime m' = d.srcTime m' :=
      fun m' hm' => congrArg fileMtime (setFile_of_ne d.src (some d.now) hm')
    have hself : (Build.step d (.write m)).srcTime m = d.now :=
      congrArg fileMtime (setFile_self d.src m (some d.now))
    refine ⟨fun m' => ?_, fun m' => ?_⟩
    · by_cases hm' : m' = m
      · rw [hm', hself]
        exact Nat.le_refl d.now
      · rw [hother m' hm']
        exact hd.past m'
    · by_cases hm' : m' = m
      · subst hm'
        -- a source that is written now is newer than an output that looked out of date
        refine (hd.stale m').imp id fun hs => hs.imp_right fun hs => hs.imp_right fun hs => ?_
        exact ⟨hs.1, fun _ => by rw [hself]; exact hs.1⟩
      · exact hd.congr ⟨rfl, rfl⟩ (hother m' hm') (Nat.le_refl d.now)
  | .delete m, _ => by
    have hother : ∀ m', m' ≠ m → (Build.step d (.delete m)).srcTime m' = d.srcTime m' :=
      fun m' hm' => congrArg fileMtime (setFile_of_ne d.src none hm')
    have hself : (Build.step d (.delete m)).srcTime m = 0 :=
      congrArg fileMtime (setFile_self d.src m none)
    refine ⟨fun m' => ?_, fun m' => ?_⟩
    · by_cases hm' : m' = m
      · rw [hm', hself]
        exact Nat.zero_le _
      · rw [hother m' hm']
        exact hd.past m'
    · by_cases hm' : m' = m
      · subst hm'
        refine (hd.stale m').imp id fun hs => hs.imp_right fun hs => hs.imp_right fun hs => ?_
        exact ⟨hs.1, fun hne => absurd hself hne⟩
      · exact hd.congr ⟨rfl, rfl⟩ (hother m' hm') (Nat.le_refl d.now)
  | .clean m, _ => by
    refine ⟨hd.past, fun m' => ?_⟩
    by_cases hm' : m' = m
    · subst hm'
      refine .inr (.inl ?_)
      exact congrArg (fun o : Option Output => fileMtime (o.map Output.mtime))
        (setFile_self d.nir m' none)
    · exact hd.congr ⟨setFile_of_ne _ _ hm', setFile_of_ne _ _ hm'⟩ rfl (Nat.le_refl d.now)
  | .build v, hv => hd.nibbuild (hv v rfl)

/-- The builds of a run, step by step. -/
theorem allBuilds_cons {P : Invocation → Disk → Prop} {d : Disk} {e : Event} {events : List Event} :
    AllBuilds P d (e :: events) ↔
      (∀ v, e = .build v → P v d) ∧ AllBuilds P (Build.step d e) events := by
  constructor
  · intro h
    refine ⟨fun v hv => h [] v events (by rw [hv]; rfl), fun before v after heq => ?_⟩
    exact h (e :: before) v after (by rw [heq]; rfl)
  · rintro ⟨hhead, htail⟩ before v after heq
    cases before with
    | nil => exact hhead v (List.cons.inj heq).1
    | cons e' before =>
      obtain ⟨rfl, hrest⟩ := List.cons.inj heq
      exact htail before v after hrest

theorem allBuilds_nil (P : Invocation → Disk → Prop) (d : Disk) : AllBuilds P d [] :=
  fun _ _ _ h => absurd h (List.ne_nil_of_mem (List.mem_append_right _ List.mem_cons_self) ·.symm)

/-- A run of safe builds keeps the invariant. -/
theorem Judged.run : ∀ {events : List Event} {d : Disk}, Judged d → AllBuilds Safe d events →
    Judged (runEvents d events)
  | [], _, hd, _ => hd
  | e :: events, d, hd, hsafe => by
    obtain ⟨hfirst, hrest⟩ := allBuilds_cons.mp hsafe
    exact (hd.step hfirst).run hrest

/-- **A failed compile is never up to date**: in every run whose builds are safe, every build
compiles the modules whose outputs are not complete, and binds complete outputs only. -/
theorem failed_never_up_to_date (now : Nat) (events : List Event)
    (hsafe : AllBuilds Safe (noFiles now) events) :
    AllBuilds RecompilesFailed (noFiles now) events := by
  intro before v after h
  refine Judged.recompilesFailed ?_ (hsafe before v after h)
  refine (judged_noFiles now).run fun before' v' after' h' => ?_
  exact hsafe before' v' (after' ++ .build v :: after) (by rw [h, h', List.append_assoc]; rfl)

/-- A build of one module that is safe. -/
theorem safe_single {a : Attempt} {d : Disk} {m : Module} (hsrc : d.srcTime m ≠ 0)
    (hsafe : SafeAttempt a m d) : Safe { modules := [m], attempt := fun _ => a } d := by
  have hsort : topoSort (fun _ => []) [m] = [m] := by
    simp [topoSort, topoLoop, topoPass]
  refine ⟨fun m' hm' => ?_, rfl, ?_⟩
  · rw [List.mem_singleton.mp hm']
    exact hsrc
  · simp only [hsort]
    by_cases hneeds : needsCompile { modules := [m], attempt := fun _ => a } d m = true
    · rw [List.filter_cons_of_pos hneeds]
      exact ⟨hsafe, trivial⟩
    · rw [List.filter_cons_of_neg hneeds]
      trivial

/-- A compile fails before it opens its outputs, and the next one writes them. -/
theorem failed_never_up_to_date_syntax :
    AllBuilds RecompilesFailed (noFiles 1) [.write ['m'],
      .build { modules := [['m']], attempt := fun _ => { parses := false } },
      .build { modules := [['m']] }] := by
  refine failed_never_up_to_date 1 _ (allBuilds_cons.mpr ⟨fun v hv => (by cases hv), ?_⟩)
  refine allBuilds_cons.mpr ⟨fun v hv => ?_, allBuilds_cons.mpr ⟨fun v hv => ?_, allBuilds_nil _ _⟩⟩
  · cases hv
    exact safe_single (by decide) (.inr (.inl rfl))
  · cases hv
    exact safe_single (by decide) (.inr (.inr (.inr (.inr ⟨rfl, rfl, rfl, rfl⟩))))

/-- A compile with an error leaves outputs that are bound by the next run. -/
theorem error_then_bound :
    (nibbuild { modules := [['m']], attempt := fun _ => { errors := 1 } }
        (runEvents (noFiles 1) [.write ['m']])).1.status = 1 ∧
      ¬RecompilesFailed { modules := [['m']] }
        (runEvents (noFiles 1) [.write ['m'],
          .build { modules := [['m']], attempt := fun _ => { errors := 1 } }]) := by
  refine ⟨by decide, ?_⟩
  rintro ⟨-, hbound⟩
  obtain ⟨⟨o, ho, hcomplete⟩, -⟩ := hbound ['m'] (by decide)
  have hpart : (nibbuild { modules := [['m']] } (runEvents (noFiles 1) [.write ['m'],
      .build { modules := [['m']], attempt := fun _ => { errors := 1 } }])).2.nir ['m'] =
      some { mtime := 1, complete := false } := by decide
  rw [hpart] at ho
  cases ho
  cases hcomplete

end Nib.Build
