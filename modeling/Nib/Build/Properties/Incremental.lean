import Nib.Build.Spec.UpToDate
import Nib.Build.Properties.UpToDate
import Mathlib.Data.List.Nodup
import Mathlib.Data.List.Perm.Subperm

/-!
# Incremental builds

* `topoSort_apart` — on an acyclic graph no module comes before one that it uses
* `build_disk` — a build of the contents is a run of the driver
* `UpToDate.step` — an output that looks up to date is what a compile would write now
* `foldl_compile_mem` — after a build, so is every output that was compiled
* `incremental_iff` — a build is as good as a forced one when what it skips is settled
* `builds_settle` — as many builds as there are modules are as good as a forced one
-/

namespace Nib.Build

/-! ## The order -/

/-- Modules in order: each once, after everything it uses. -/
structure InOrder (deps : Module → List Module) (order : List Module) : Prop where
  once : order.Nodup
  closed : ∀ m ∈ order, deps m ⊆ order
  apart : order.Pairwise fun a b => b ∉ deps a

theorem InOrder.snoc {deps : Module → List Module} {order : List Module}
    (h : InOrder deps order) {m : Module} (hm : m ∉ order) (hdeps : deps m ⊆ order) :
    InOrder deps (order ++ [m]) := by
  refine ⟨?_, ?_, ?_⟩
  · exact List.nodup_append.mpr ⟨h.once, List.nodup_singleton m, fun a ha b hb hab =>
      hm (List.mem_singleton.mp hb ▸ hab ▸ ha)⟩
  · intro a ha
    refine List.Subset.trans ?_ (List.subset_append_left order [m])
    rcases List.mem_append.mp ha with ha | ha
    · exact h.closed a ha
    · exact List.mem_singleton.mp ha ▸ hdeps
  · refine List.pairwise_append.mpr ⟨h.apart, List.pairwise_singleton _ m, fun a ha b hb hdep => ?_⟩
    exact hm (List.mem_singleton.mp hb ▸ h.closed a ha hdep)

theorem topoPass_inOrder {deps : Module → List Module} : ∀ (modules : List Module)
    {order : List Module}, InOrder deps order → InOrder deps (topoPass deps modules order)
  | [], _, h => h
  | m :: modules, order, h => by
    rw [topoPass]
    split_ifs with hm hdeps
    · exact topoPass_inOrder modules h
    · exact topoPass_inOrder modules (h.snoc hm hdeps)
    · exact topoPass_inOrder modules h

theorem topoPass_extends (deps : Module → List Module) : ∀ (modules order : List Module),
    order <+: topoPass deps modules order
  | [], order => List.prefix_refl order
  | m :: modules, order => by
    rw [topoPass]
    split_ifs
    · exact topoPass_extends deps modules order
    · exact (List.prefix_append order [m]).trans (topoPass_extends deps modules _)
    · exact topoPass_extends deps modules order

/-- A pass that appends nothing has found no module ready. -/
theorem topoPass_stuck {deps : Module → List Module} : ∀ {modules order : List Module},
    (topoPass deps modules order).length = order.length → ∀ m ∈ modules, m ∉ order →
      ∃ dep ∈ deps m, dep ∉ order
  | [], _, _, _, hm, _ => absurd hm List.not_mem_nil
  | m' :: modules, order, h, m, hm, hnot => by
    rw [topoPass] at h
    split_ifs at h with hm' hdeps
    · rcases List.mem_cons.mp hm with rfl | hm
      · exact absurd hm' hnot
      · exact topoPass_stuck h m hm hnot
    · have hlen := (topoPass_extends deps modules (order ++ [m'])).length_le
      rw [List.length_append, List.length_singleton] at hlen
      omega
    · rcases List.mem_cons.mp hm with rfl | hm
      · simpa using hdeps
      · exact topoPass_stuck h m hm hnot

theorem topoLoop_inOrder {deps : Module → List Module} {modules : List Module} :
    ∀ (fuel : Nat) {order : List Module}, InOrder deps order →
      InOrder deps (topoLoop deps modules fuel order)
  | 0, _, h => h
  | fuel + 1, order, h => by
    simp only [topoLoop]
    split_ifs
    · exact h
    · exact topoLoop_inOrder fuel (topoPass_inOrder modules h)

/-- The passes end with all modules in order, or with one that appends nothing. -/
theorem topoLoop_ends {deps : Module → List Module} {modules : List Module} :
    ∀ (fuel : Nat) {order : List Module}, InOrder deps order → order ⊆ modules →
      modules.length ≤ order.length + fuel →
      modules ⊆ topoLoop deps modules fuel order ∨
        (topoPass deps modules (topoLoop deps modules fuel order)).length =
          (topoLoop deps modules fuel order).length
  | 0, order, h, hsub, hlen => by
    have hperm := (List.subperm_of_subset h.once hsub).perm_of_length_le hlen
    exact .inl fun m hm => hperm.mem_iff.mpr hm
  | fuel + 1, order, h, hsub, hlen => by
    simp only [topoLoop]
    split_ifs with hstuck
    · exact .inr hstuck
    · have hle := (topoPass_extends deps modules order).length_le
      have hpass : topoPass deps modules order ⊆ modules :=
        List.Subset.trans (topoPass_subset deps modules order)
          (List.append_subset.mpr ⟨hsub, List.Subset.refl modules⟩)
      exact topoLoop_ends fuel (topoPass_inOrder modules h) hpass (by omega)

/-- **On an acyclic graph every module comes after what it uses.** -/
theorem topoSort_inOrder {deps : Module → List Module} {modules : List Module}
    (hclosed : ∀ m ∈ modules, deps m ⊆ modules) {rank : Module → Nat}
    (hrank : ∀ m ∈ modules, ∀ dep ∈ deps m, rank dep < rank m) :
    InOrder deps (topoSort deps modules) := by
  have hnil : InOrder deps [] := ⟨List.nodup_nil, fun _ h => absurd h List.not_mem_nil, .nil⟩
  have hin := @topoLoop_inOrder deps modules modules.length [] hnil
  have hall : modules ⊆ topoLoop deps modules modules.length [] := by
    rcases @topoLoop_ends deps modules modules.length [] hnil (List.nil_subset _)
      (Nat.le_add_left _ _) with h | h
    · exact h
    · -- by induction on the rank, a module left over would need another one
      have hready : ∀ n, ∀ m ∈ modules, rank m = n →
          m ∈ topoLoop deps modules modules.length [] := by
        intro n
        induction n using Nat.strongRecOn with
        | ind n ih =>
          intro m hm hn
          by_contra hnot
          obtain ⟨dep, hdep, hout⟩ := topoPass_stuck h m hm hnot
          exact hout (ih (rank dep) (hn ▸ hrank m hm dep hdep) dep (hclosed m hm hdep) rfl)
      exact fun m hm => hready (rank m) m hm rfl
  have hnone : (modules.filter fun m => m ∉ topoLoop deps modules modules.length []) = [] :=
    List.filter_eq_nil_iff.mpr fun m hm => by simpa using hall hm
  unfold topoSort
  simp only
  rw [hnone, List.append_nil]
  exact hin

namespace Store

variable {S N F : Type} {c : Compiler S N F} {st : Store S N F}

/-! ## A build of the contents is a run of the driver -/

theorem compile_eq {m : Module} {r : N × F} (h : st.output c m = some r) :
    st.compile c m =
      { st with
        now := st.now + 1
        nir := setFile st.nir m (some (st.now + 1, r.1))
        nif := setFile st.nif m (some (st.now + 1, r.2)) } := by
  rw [compile, h]

theorem output_isSome {m : Module} (h : (st.src m).isSome = true) : ∃ r, st.output c m = some r :=
  Option.isSome_iff_exists.mp (by rw [output, Option.isSome_map, h])

@[simp] theorem compile_src (m : Module) : (st.compile c m).src = st.src := by
  unfold compile
  split <;> rfl

theorem compile_disk {m : Module} (h : (st.src m).isSome = true) :
    nib false { seconds := 1 } m st.disk = (0, (st.compile c m).disk) := by
  obtain ⟨r, hr⟩ := output_isSome (c := c) h
  have hset : ∀ {α β : Type} (g : α → β) (files : Module → Option α) (x : α),
      (fun m' => (setFile files m (some x) m').map g) =
        setFile (fun m' => (files m').map g) m (some (g x)) := fun g files x => by
    funext m'
    unfold setFile
    split_ifs <;> rfl
  rw [compile_eq hr]
  unfold disk
  simp only [hset]
  rfl

theorem foldl_compile_src : ∀ (l : List Module) (st : Store S N F),
    (l.foldl (compile c) st).src = st.src
  | [], _ => rfl
  | m :: l, st => (foldl_compile_src l (st.compile c m)).trans (compile_src m)

theorem compileAll_disk (b : Build) : ∀ (l : List Module) {st : Store S N F},
    (∀ m ∈ l, (st.src m).isSome = true) →
    compileAll b.invocation l st.disk = (0, (l.foldl (compile c) st).disk)
  | [], _, _ => rfl
  | m :: l, st, h => by
    have hm := compile_disk (c := c) (h m List.mem_cons_self)
    have ih := @compileAll_disk b l (st.compile c m) fun m' hm' => by
      rw [compile_src]
      exact h m' (List.mem_cons_of_mem m hm')
    rw [compileAll]
    show ((if (nib false { seconds := 1 } m st.disk).1 ≠ 0 then 1 else 0) +
      (compileAll b.invocation l (nib false { seconds := 1 } m st.disk).2).1,
      (compileAll b.invocation l (nib false { seconds := 1 } m st.disk).2).2) = _
    rw [hm, ih]
    rfl

/-- **A build of the contents does to the times what the driver does.** -/
theorem build_disk {b : Build} (h : ∀ m ∈ b.modules, (st.src m).isSome = true) :
    (st.build c b).disk = (nibbuild b.invocation st.disk).2 := by
  have hall := @compileAll_disk S N F c b (st.toCompile b) st fun m hm =>
    h m (topoSort_subset b.deps b.modules (List.mem_filter.mp hm).1)
  have hnone : ¬0 < (compileAll b.invocation (st.toCompile b) st.disk).1 := by
    rw [hall]
    exact Nat.lt_irrefl 0
  unfold build
  by_cases hsrc : (b.modules.any fun m => st.disk.srcTime m == 0) = true
  · rw [if_pos hsrc]
    exact congrArg Prod.snd (if_pos hsrc : nibbuild b.invocation st.disk = _).symm
  · rw [if_neg hsrc]
    refine (congrArg Prod.snd hall).symm.trans ?_
    exact congrArg Prod.snd ((if_neg hsrc).trans (if_neg hnone) :
      nibbuild b.invocation st.disk = _).symm

/-! ## The invariant -/

/-- The time of an output that is there lies between the first second and now. -/
def Dated (now : Nat) {α : Type} (file : Option (Nat × α)) : Prop :=
  ∀ f, file = some f → 1 ≤ f.1 ∧ f.1 ≤ now

/-- The outputs of a module, written together, are newer than its source and not older than the
`.nif` file of any module it uses. -/
def LooksUpToDate (c : Compiler S N F) (st : Store S N F) (m : Module) : Prop :=
  st.disk.nirTime m ≠ 0 ∧ st.disk.srcTime m ≤ st.disk.nirTime m ∧
    ∀ dep ∈ st.uses c m, st.disk.nifTime dep ≤ st.disk.nirTime m

/-- Both outputs of a module hold what a compile would write now. -/
def Current (c : Compiler S N F) (st : Store S N F) (m : Module) : Prop :=
  st.contents m = ((st.output c m).map Prod.fst, (st.output c m).map Prod.snd)

/-- No file is from the future, and outputs that look up to date are current. -/
structure UpToDate (c : Compiler S N F) (st : Store S N F) : Prop where
  src : ∀ m, Dated st.now (st.src m)
  nir : ∀ m, Dated st.now (st.nir m)
  nif : ∀ m, Dated st.now (st.nif m)
  current : ∀ m, (st.src m).isSome = true → LooksUpToDate c st m → Current c st m

theorem Dated.mono {now now' : Nat} {α : Type} {file : Option (Nat × α)} (h : Dated now file)
    (hle : now ≤ now') : Dated now' file :=
  fun f hf => ⟨(h f hf).1, Nat.le_trans (h f hf).2 hle⟩

theorem dated_setFile {now : Nat} {α : Type} {files : Module → Option (Nat × α)} {m : Module}
    {x : α} (h : ∀ m, Dated now (files m)) (m' : Module) :
    Dated (now + 1) (setFile files m (some (now + 1, x)) m') := by
  by_cases hm : m' = m
  · subst hm
    rw [setFile_self]
    intro f hf
    rw [← Option.some.inj hf]
    exact ⟨Nat.le_add_left 1 now, Nat.le_refl _⟩
  · rw [setFile_of_ne _ _ hm]
    exact (h m').mono (Nat.le_succ now)

theorem Dated.time_le {now : Nat} {α : Type} {file : Option (Nat × α)} (h : Dated now file) :
    fileMtime (file.map Prod.fst) ≤ now := by
  cases hf : file with
  | none => exact Nat.zero_le _
  | some f => exact (h f hf).2

theorem nirTime_eq (st : Store S N F) (m : Module) :
    st.disk.nirTime m = fileMtime ((st.nir m).map Prod.fst) := by
  rw [Disk.nirTime, disk, Option.map_map]
  rfl

theorem nifTime_eq (st : Store S N F) (m : Module) :
    st.disk.nifTime m = fileMtime ((st.nif m).map Prod.fst) := by
  rw [Disk.nifTime, disk, Option.map_map]
  rfl

/-- What a compile writes depends on the source and the `.nif` files that it reads. -/
theorem output_congr {st' : Store S N F} {m : Module} (hsrc : st'.src m = st.src m)
    (hnif : ∀ dep ∈ st.uses c m, (st'.contents dep).2 = (st.contents dep).2) :
    st'.output c m = st.output c m := by
  have huses : st'.uses c m = st.uses c m := by rw [uses, uses, hsrc]
  have hmap : ((st.uses c m).map fun dep => (st'.nif dep).map Prod.snd) =
      (st.uses c m).map fun dep => (st.nif dep).map Prod.snd :=
    List.map_congr_left hnif
  rw [output, output, huses, hsrc, hmap]

theorem UpToDate.write (h : UpToDate c st) (m : Module) (s : S) : UpToDate c (st.write m s) := by
  refine ⟨dated_setFile h.src, fun m' => (h.nir m').mono (Nat.le_succ _),
    fun m' => (h.nif m').mono (Nat.le_succ _), fun m' hsrc hlooks => ?_⟩
  by_cases hm : m' = m
  · -- the source is newer than every output
    subst hm
    have htime : (st.write m' s).disk.srcTime m' = st.now + 1 := by
      show fileMtime ((setFile st.src m' (some (st.now + 1, s)) m').map Prod.fst) = _
      rw [setFile_self]
      rfl
    have hle : (st.write m' s).disk.nirTime m' ≤ st.now := by
      rw [nirTime_eq]
      exact (h.nir m').time_le
    have := hlooks.2.1
    omega
  · have hfile : (st.write m s).src m' = st.src m' := setFile_of_ne _ _ hm
    have huses : (st.write m s).uses c m' = st.uses c m' := by rw [uses, uses, hfile]
    have htime : (st.write m s).disk.srcTime m' = st.disk.srcTime m' := by
      show fileMtime (((st.write m s).src m').map Prod.fst) = _
      rw [hfile]
      rfl
    rw [LooksUpToDate, huses, htime] at hlooks
    rw [hfile] at hsrc
    have hout : (st.write m s).output c m' = st.output c m' := output_congr hfile fun _ _ => rfl
    unfold Current
    rw [hout]
    exact h.current m' hsrc hlooks

/-- A compiled module is current. -/
theorem current_compile {m : Module} (hm : (st.src m).isSome = true) (hself : m ∉ st.uses c m) :
    Current c (st.compile c m) m := by
  obtain ⟨r, hr⟩ := output_isSome (c := c) hm
  have heq := compile_eq hr
  have hout : (st.compile c m).output c m = some r := by
    rw [← hr]
    refine output_congr (by rw [compile_src]) fun dep hdep => ?_
    have hne : dep ≠ m := fun h => hself (h ▸ hdep)
    rw [heq]
    show (setFile st.nif m _ dep).map Prod.snd = _
    rw [setFile_of_ne _ _ hne]
    rfl
  unfold Current
  rw [hout, heq]
  show ((setFile st.nir m _ m).map Prod.snd, (setFile st.nif m _ m).map Prod.snd) = _
  rw [setFile_self, setFile_self]
  rfl

/-- **A compile keeps the invariant.** The module is current afterwards, and what uses it looks
out of date. -/
theorem UpToDate.compile (h : UpToDate c st) {m : Module} (hm : (st.src m).isSome = true)
    (hself : m ∉ st.uses c m) : UpToDate c (st.compile c m) := by
  obtain ⟨r, hr⟩ := output_isSome (c := c) hm
  have heq := compile_eq hr
  have hnir : ∀ m', m' ≠ m → (st.compile c m).nir m' = st.nir m' := fun m' hne => by
    rw [heq]
    exact setFile_of_ne _ _ hne
  have hnif : ∀ m', m' ≠ m → (st.compile c m).nif m' = st.nif m' := fun m' hne => by
    rw [heq]
    exact setFile_of_ne _ _ hne
  have huses : ∀ m', (st.compile c m).uses c m' = st.uses c m' := fun m' => by
    rw [uses, uses, compile_src]
  refine ⟨?_, ?_, ?_, fun m' hsrc hlooks => ?_⟩
  · rw [compile_src, heq]
    exact fun m' => (h.src m').mono (Nat.le_succ _)
  · rw [heq]
    exact dated_setFile h.nir
  · rw [heq]
    exact dated_setFile h.nif
  · by_cases hmm : m' = m
    · subst hmm
      exact current_compile hm hself
    · have hcontents : (st.compile c m).contents m' = st.contents m' := by
        rw [contents, contents, hnir m' hmm, hnif m' hmm]
      have htime : (st.compile c m).disk.nirTime m' = st.disk.nirTime m' := by
        rw [nirTime_eq, nirTime_eq, hnir m' hmm]
      obtain ⟨hne, hnew, hdeps⟩ := hlooks
      rw [htime] at hne hnew hdeps
      rw [huses] at hdeps
      by_cases hdep : m ∈ st.uses c m'
      · -- the `.nif` file that was written is newer than the outputs of `m'`
        have hnow : (st.compile c m).disk.nifTime m = st.now + 1 := by
          rw [nifTime_eq, heq]
          show fileMtime ((setFile st.nif m _ m).map Prod.fst) = _
          rw [setFile_self]
          rfl
        have hle : st.disk.nirTime m' ≤ st.now := by
          rw [nirTime_eq]
          exact (h.nir m').time_le
        have := hdeps m hdep
        omega
      · have hother : ∀ dep ∈ st.uses c m', (st.compile c m).nif dep = st.nif dep :=
          fun dep hd => hnif dep fun heq => hdep (heq ▸ hd)
        have hout : (st.compile c m).output c m' = st.output c m' :=
          output_congr (by rw [compile_src]) fun dep hd => by
            rw [contents, contents, hother dep hd]
        have hlooks' : LooksUpToDate c st m' := by
          refine ⟨hne, ?_, fun dep hd => ?_⟩
          · have hsame : (st.compile c m).disk.srcTime m' = st.disk.srcTime m' := by
              show fileMtime (((st.compile c m).src m').map Prod.fst) = _
              rw [compile_src]
              rfl
            rwa [hsame] at hnew
          · have hd' := hdeps dep hd
            rwa [nifTime_eq, hother dep hd, ← nifTime_eq] at hd'
        rw [compile_src] at hsrc
        unfold Current
        rw [hout, hcontents]
        exact h.current m' hsrc hlooks'

/-! ## A whole build -/

/-- Modules that can be compiled one after another: each after what it uses. -/
structure Compilable (c : Compiler S N F) (st : Store S N F) (l : List Module) : Prop where
  once : l.Nodup
  apart : l.Pairwise fun a b => b ∉ st.uses c a
  self : ∀ m ∈ l, m ∉ st.uses c m
  sources : ∀ m ∈ l, (st.src m).isSome = true

theorem uses_compile (m m' : Module) : (st.compile c m).uses c m' = st.uses c m' := by
  rw [uses, uses, compile_src]

theorem Compilable.tail {m : Module} {l : List Module} (h : Compilable c st (m :: l)) :
    Compilable c (st.compile c m) l := by
  refine ⟨(List.nodup_cons.mp h.once).2, ?_, fun a ha => ?_, fun a ha => ?_⟩
  · refine (List.pairwise_cons.mp h.apart).2.imp fun {a b} hab => ?_
    rw [uses_compile]
    exact hab
  · rw [uses_compile]
    exact h.self a (List.mem_cons_of_mem m ha)
  · rw [compile_src]
    exact h.sources a (List.mem_cons_of_mem m ha)

theorem compile_other {m m' : Module} (h : m' ≠ m) :
    (st.compile c m).contents m' = st.contents m' := by
  unfold compile contents
  split
  · rfl
  · show ((setFile st.nir m _ m').map Prod.snd, (setFile st.nif m _ m').map Prod.snd) = _
    rw [setFile_of_ne _ _ h, setFile_of_ne _ _ h]

theorem foldl_compile_other : ∀ {l : List Module} {st : Store S N F} {m : Module}, m ∉ l →
    (l.foldl (compile c) st).contents m = st.contents m
  | [], _, _, _ => rfl
  | m' :: l, st, m, h => by
    have hne : m ≠ m' := fun heq => h (heq ▸ List.mem_cons_self)
    have ih := @foldl_compile_other l (st.compile c m') m
      fun hm => h (List.mem_cons_of_mem m' hm)
    exact ih.trans (compile_other hne)

/-- A module stays current while neither it nor anything it uses is written. -/
theorem Current.congr {st' : Store S N F} {m : Module} (h : Current c st m)
    (hsrc : st'.src m = st.src m) (hown : st'.contents m = st.contents m)
    (hdeps : ∀ dep ∈ st.uses c m, st'.contents dep = st.contents dep) : Current c st' m := by
  have hout : st'.output c m = st.output c m :=
    output_congr hsrc fun dep hdep => by rw [hdeps dep hdep]
  unfold Current
  rw [hout, hown]
  exact h

/-- **Every module that a build compiled is current at its end.** -/
theorem foldl_compile_mem : ∀ {l : List Module} {st : Store S N F}, Compilable c st l →
    ∀ m ∈ l, Current c (l.foldl (compile c) st) m
  | [], _, _, _, hm => absurd hm List.not_mem_nil
  | m' :: l, st, h, m, hm => by
    rcases List.mem_cons.mp hm with rfl | hm
    · have hcur := current_compile (h.sources m List.mem_cons_self) (h.self m List.mem_cons_self)
      refine hcur.congr ?_ ?_ fun dep hdep => ?_
      · rw [List.foldl_cons, foldl_compile_src]
      · exact foldl_compile_other (List.nodup_cons.mp h.once).1
      · rw [uses_compile] at hdep
        exact foldl_compile_other fun hin => (List.pairwise_cons.mp h.apart).1 dep hin hdep
    · exact foldl_compile_mem h.tail m hm

theorem UpToDate.foldl : ∀ {l : List Module} {st : Store S N F}, UpToDate c st →
    Compilable c st l → UpToDate c (l.foldl (Store.compile c) st)
  | [], _, h, _ => h
  | m :: _, _, h, hl =>
    (h.compile (hl.sources m List.mem_cons_self) (hl.self m List.mem_cons_self)).foldl hl.tail

theorem scans_compilable {b : Build} (h : Scans c st b) : Compilable c st (st.toCompile b) := by
  obtain ⟨rank, hrank⟩ := h.acyclic
  have horder := topoSort_inOrder h.closed hrank
  have hmem : ∀ m ∈ st.toCompile b, m ∈ b.modules := fun m hm =>
    topoSort_subset b.deps b.modules (List.mem_filter.mp hm).1
  refine ⟨horder.once.filter _, ?_, fun m hm hself => ?_, fun m hm => h.sources m (hmem m hm)⟩
  · refine (horder.apart.filter _).imp_of_mem fun {x y} hx _ hxy => ?_
    rw [← h.deps x (hmem x hx)]
    exact hxy
  · rw [← h.deps m (hmem m hm)] at hself
    exact absurd (hrank m (hmem m hm) m hself) (Nat.lt_irrefl _)

theorem build_eq {b : Build} (h : UpToDate c st) (hb : Scans c st b) :
    st.build c b = (st.toCompile b).foldl (compile c) st := by
  refine if_neg ?_
  rw [List.any_eq_true]
  rintro ⟨m, hm, hzero⟩
  obtain ⟨f, hf⟩ := Option.isSome_iff_exists.mp (hb.sources m hm)
  have hpos := (h.src m f hf).1
  have htime : st.disk.srcTime m = f.1 := by
    show fileMtime ((st.src m).map Prod.fst) = _
    rw [hf]
    rfl
  rw [htime, beq_iff_eq] at hzero
  omega

end Store

open Store

variable {S N F : Type} {c : Compiler S N F} {st : Store S N F}

/-- **The invariant holds after any edits and builds.** -/
theorem Reachable.upToDate (h : Reachable c st) : UpToDate c st := by
  induction h with
  | start now =>
    have hnone : ∀ {α : Type}, Dated now (none : Option (Nat × α)) := fun f hf => by cases hf
    exact ⟨fun _ => hnone, fun _ => hnone, fun _ => hnone, fun m hsrc _ => by cases hsrc⟩
  | write m s _ ih => exact ih.write m s
  | build _ hb ih =>
    rw [build_eq ih hb]
    exact ih.foldl (scans_compilable hb)

/-- What the driver skips looks up to date. -/
theorem looksUpToDate_of_skip {b : Build} (hb : Scans c st b) {m : Module} (hm : m ∈ b.modules)
    (h : needsCompile b.invocation st.disk m = false) : LooksUpToDate c st m := by
  simp only [needsCompile, Bool.or_eq_false_iff, decide_eq_false_iff_not, beq_eq_false_iff_ne,
    List.any_eq_false, Nat.not_lt, decide_eq_true_eq] at h
  obtain ⟨⟨⟨⟨⟨-, hnir⟩, -⟩, hsrc⟩, -⟩, hdeps⟩ := h
  have hdeps' : ∀ dep ∈ b.deps m, st.disk.nifTime dep ≤ st.disk.nirTime m := hdeps
  rw [hb.deps m hm] at hdeps'
  exact ⟨hnir, hsrc, hdeps'⟩

theorem mem_toCompile {b : Build} {m : Module} (hm : m ∈ b.modules) :
    m ∈ st.toCompile b ↔ needsCompile b.invocation st.disk m = true := by
  rw [toCompile, List.mem_filter]
  exact and_iff_right (mem_topoSort b.deps hm)

/-- A source has a number and names what it uses; the `.nif` file holds the number, and the `.nir`
file the numbers of what is used as well. -/
def numberCompiler : Compiler (Nat × List Module) (List (Option Nat)) Nat where
  uses s := s.2
  run _ s nifs := (some s.1 :: nifs, s.1)

def appName : Module := "app".toList

def libName : Module := "lib".toList

/-- `app` uses `lib`. -/
def appBuild : Build where
  modules := [appName, libName]
  deps m := if m = appName then [libName] else []

def appSources : Store (Nat × List Module) (List (Option Nat)) Nat :=
  ((({ now := 0, src := fun _ => none, nir := fun _ => none, nif := fun _ => none } :
    Store (Nat × List Module) (List (Option Nat)) Nat).write libName (1, [])).write
      appName (2, [libName]))

/-- After a first build the source of `lib` is edited. -/
def appEdited : Store (Nat × List Module) (List (Option Nat)) Nat :=
  (appSources.build numberCompiler appBuild).write libName (3, [])

theorem appBuild_scans {st : Store (Nat × List Module) (List (Option Nat)) Nat}
    (happ : st.uses numberCompiler appName = [libName])
    (hlib : st.uses numberCompiler libName = [])
    (hsrc : (st.src appName).isSome = true ∧ (st.src libName).isSome = true) :
    Scans numberCompiler st appBuild := by
  have hne : libName ≠ appName := by decide
  have hcases : ∀ m ∈ appBuild.modules, m = appName ∨ m = libName := fun m hm => by
    simpa [appBuild] using hm
  refine ⟨by decide, fun m hm => ?_, fun m hm => ?_, fun m hm => ?_,
    fun m => if m = appName then 1 else 0, fun m hm dep hdep => ?_⟩
  · rcases hcases m hm with rfl | rfl
    · exact happ.symm
    · exact hlib.symm
  · rcases hcases m hm with rfl | rfl <;> decide
  · rcases hcases m hm with rfl | rfl
    · exact hsrc.1
    · exact hsrc.2
  · rcases hcases m hm with rfl | rfl
    · have hdep' : dep = libName := by simpa [appBuild] using hdep
      subst hdep'
      simp [hne]
    · simp [appBuild, hne] at hdep

theorem appSources_scans : Scans numberCompiler appSources appBuild :=
  appBuild_scans (by decide) (by decide) (by decide)

theorem appSources_reachable : Reachable numberCompiler appSources :=
  .write _ _ (.write _ _ (.start 0))

theorem compile_files_other {m m' : Module} (h : m' ≠ m) :
    (st.compile c m).nir m' = st.nir m' ∧ (st.compile c m).nif m' = st.nif m' := by
  unfold Store.compile
  split
  · exact ⟨rfl, rfl⟩
  · exact ⟨setFile_of_ne _ _ h, setFile_of_ne _ _ h⟩

theorem foldl_compile_files_other : ∀ {l : List Module} {st : Store S N F} {m : Module}, m ∉ l →
    (l.foldl (Store.compile c) st).nir m = st.nir m ∧
      (l.foldl (Store.compile c) st).nif m = st.nif m
  | [], _, _, _ => ⟨rfl, rfl⟩
  | m' :: l, st, m, h => by
    have hne : m ≠ m' := fun heq => h (heq ▸ List.mem_cons_self)
    have ih := @foldl_compile_files_other l (st.compile c m') m
      fun hm => h (List.mem_cons_of_mem m' hm)
    have hhead := @compile_files_other S N F c st m' m hne
    exact ⟨ih.1.trans hhead.1, ih.2.trans hhead.2⟩

/-- What is compiled gets a time after the start of the build. -/
theorem foldl_compile_times : ∀ {l : List Module} {st : Store S N F}, Compilable c st l →
    ∀ m ∈ l, st.now < (l.foldl (Store.compile c) st).disk.nirTime m ∧
      st.now < (l.foldl (Store.compile c) st).disk.nifTime m
  | [], _, _, _, hm => absurd hm List.not_mem_nil
  | m' :: l, st, h, m, hm => by
    obtain ⟨r, hr⟩ := output_isSome (c := c) (h.sources m' List.mem_cons_self)
    have heq := compile_eq hr
    by_cases hin : m ∈ l
    · have ih := foldl_compile_times h.tail m hin
      have hnow : (st.compile c m').now = st.now + 1 := by rw [heq]
      rw [hnow] at ih
      exact ⟨(Nat.lt_succ_self _).trans ih.1, (Nat.lt_succ_self _).trans ih.2⟩
    · have hm' := (List.mem_cons.mp hm).resolve_right hin
      subst hm'
      have hfiles := @foldl_compile_files_other S N F c l (st.compile c m) m hin
      rw [List.foldl_cons, nirTime_eq, nifTime_eq, hfiles.1, hfiles.2, heq]
      show st.now < fileMtime ((setFile st.nir m _ m).map Prod.fst) ∧
        st.now < fileMtime ((setFile st.nif m _ m).map Prod.fst)
      rw [setFile_self, setFile_self]
      exact ⟨Nat.lt_succ_self _, Nat.lt_succ_self _⟩

/-- Whether a module is compiled depends on the times of its files and of what it uses. -/
theorem needsCompile_congr {v : Invocation} {d d' : Disk} {m : Module}
    (hsrc : d'.srcTime m = d.srcTime m) (hnir : d'.nirTime m = d.nirTime m)
    (hnif : d'.nifTime m = d.nifTime m) (hdeps : ∀ dep ∈ v.deps m, d'.nifTime dep = d.nifTime dep) :
    needsCompile v d' m = needsCompile v d m := by
  have hany : ((v.deps m).any fun dep => decide (d.nirTime m < d'.nifTime dep)) =
      (v.deps m).any fun dep => decide (d.nirTime m < d.nifTime dep) := by
    rw [Bool.eq_iff_iff, List.any_eq_true, List.any_eq_true]
    exact exists_congr fun dep => and_congr_right fun hdep => by rw [hdeps dep hdep]
  unfold needsCompile
  rw [hsrc, hnir, hnif, hany]

/-- **A build brings every module up to date whose dependencies it does not compile.** -/
theorem settled_after_build {b : Build} (h : UpToDate c st) (hb : Scans c st b)
    (hforce : b.force = false) {m : Module} (hm : m ∈ b.modules)
    (hdeps : ∀ dep ∈ b.deps m, needsCompile b.invocation st.disk dep = false) :
    needsCompile b.invocation (st.build c b).disk m = false := by
  rw [build_eq h hb]
  have hskip : ∀ m ∈ b.modules, needsCompile b.invocation st.disk m = false →
      m ∉ st.toCompile b := fun m hm hneeds hin => by
    rw [mem_toCompile hm, hneeds] at hin
    cases hin
  have hnif : ∀ dep ∈ b.deps m, ((st.toCompile b).foldl (Store.compile c) st).disk.nifTime dep =
      st.disk.nifTime dep := fun dep hdep => by
    rw [nifTime_eq, nifTime_eq, (foldl_compile_files_other
      (hskip dep (hb.closed m hm hdep) (hdeps dep hdep))).2]
  have hsrc : ((st.toCompile b).foldl (Store.compile c) st).disk.srcTime m = st.disk.srcTime m := by
    show fileMtime ((((st.toCompile b).foldl (Store.compile c) st).src m).map Prod.fst) = _
    rw [foldl_compile_src]
    rfl
  cases hneeds : needsCompile b.invocation st.disk m with
  | false =>
    have hfiles := @foldl_compile_files_other S N F c _ st m (hskip m hm hneeds)
    rw [needsCompile_congr hsrc (by rw [nirTime_eq, nirTime_eq, hfiles.1])
      (by rw [nifTime_eq, nifTime_eq, hfiles.2]) hnif]
    exact hneeds
  | true =>
    obtain ⟨hnirT, hnifT⟩ := foldl_compile_times (scans_compilable hb) m
      ((mem_toCompile hm).mpr hneeds)
    have hold : st.disk.srcTime m ≤ st.now := (h.src m).time_le
    have holdDeps : ∀ dep ∈ b.deps m,
        ((st.toCompile b).foldl (Store.compile c) st).disk.nifTime dep ≤ st.now := by
      intro dep hdep
      rw [hnif dep hdep, nifTime_eq]
      exact (h.nif dep).time_le
    simp only [needsCompile, Build.invocation, hforce, Bool.false_or, Bool.or_eq_false_iff,
      beq_eq_false_iff_ne, decide_eq_false_iff_not, List.any_eq_false, decide_eq_true_eq, hsrc]
    exact ⟨⟨⟨⟨by omega, by omega⟩, by omega⟩, by omega⟩,
      fun dep hdep => by have := holdDeps dep hdep; omega⟩

theorem Scans.build {b : Build} (h : UpToDate c st) (hb : Scans c st b) :
    Scans c (st.build c b) b := by
  have hsrc : (st.build c b).src = st.src := by rw [build_eq h hb, foldl_compile_src]
  refine ⟨hb.once, fun m hm => ?_, hb.closed, fun m hm => hsrc ▸ hb.sources m hm, hb.acyclic⟩
  rw [uses, hsrc]
  exact hb.deps m hm

/-- The files after `n` builds without an edit in between. -/
def builds (c : Compiler S N F) (b : Build) (n : Nat) (st : Store S N F) : Store S N F :=
  (fun st => st.build c b)^[n] st

theorem builds_succ (b : Build) (n : Nat) :
    builds c b (n + 1) st = (builds c b n st).build c b := by
  unfold builds
  rw [Function.iterate_succ_apply']

theorem builds_kept {b : Build} (h : Reachable c st) (hb : Scans c st b) : ∀ n,
    Reachable c (builds c b n st) ∧ Scans c (builds c b n st) b ∧
      (builds c b n st).src = st.src
  | 0 => ⟨h, hb, rfl⟩
  | n + 1 => by
    obtain ⟨hr, hs, hsrc⟩ := builds_kept h hb n
    rw [builds_succ]
    refine ⟨.build hr hs, hs.build hr.upToDate, ?_⟩
    rw [build_eq hr.upToDate hs, foldl_compile_src, hsrc]

/-- What a module uses comes before it. -/
theorem deps_take {deps : Module → List Module} {order : List Module} (h : InOrder deps order)
    (hself : ∀ m ∈ order, m ∉ deps m) {k : Nat} {m : Module} (hm : m ∈ order.take (k + 1)) :
    deps m ⊆ order.take k := by
  intro dep hdep
  have hin := h.closed m (List.mem_of_mem_take hm) hdep
  obtain ⟨i, hi, rfl⟩ := List.getElem_of_mem hm
  rw [List.getElem_take] at hdep
  rw [List.length_take] at hi
  obtain ⟨j, hj, rfl⟩ := List.getElem_of_mem hin
  have hji : j < i := by
    rcases Nat.lt_trichotomy j i with hlt | rfl | hlt
    · exact hlt
    · exact absurd hdep (hself _ (List.getElem_mem hj))
    · exact absurd hdep (List.pairwise_iff_getElem.mp h.apart i j (by omega) hj hlt)
  exact List.mem_take_iff_getElem.mpr ⟨j, by omega, rfl⟩

/-- After `k` builds the first `k` modules of the order are left alone. -/
theorem settled_prefix {b : Build} (h : Reachable c st) (hb : Scans c st b)
    (hforce : b.force = false) : ∀ k n, k ≤ n → ∀ m ∈ (topoSort b.deps b.modules).take k,
      needsCompile b.invocation (builds c b n st).disk m = false := by
  obtain ⟨rank, hrank⟩ := hb.acyclic
  have horder := topoSort_inOrder hb.closed hrank
  have hmod : ∀ m ∈ topoSort b.deps b.modules, m ∈ b.modules := fun m hm =>
    topoSort_subset b.deps b.modules hm
  intro k
  induction k with
  | zero => intro n _ m hm; cases hm
  | succ k ih =>
    intro n hkn m hm
    obtain ⟨n, rfl⟩ : ∃ n', n = n' + 1 := ⟨n - 1, by omega⟩
    obtain ⟨hr, hs, -⟩ := builds_kept h hb n
    rw [builds_succ]
    -- what the module uses comes before it, and has been left alone since the build before
    refine settled_after_build hr.upToDate hs hforce (hmod m (List.mem_of_mem_take hm))
      fun dep hdep => ih n (by omega) dep (deps_take horder (fun m hm hself => ?_) hm hdep)
    exact absurd (hrank m (hmod m hm) m hself) (Nat.lt_irrefl _)

/-- Where every module is current, the sources say what the outputs contain. -/
theorem current_unique {b : Build} (hb : Scans c st b) {st₁ st₂ : Store S N F}
    (h₁ : st₁.src = st.src) (h₂ : st₂.src = st.src) (hcur₁ : ∀ m ∈ b.modules, Current c st₁ m)
    (hcur₂ : ∀ m ∈ b.modules, Current c st₂ m) :
    ∀ m ∈ b.modules, st₁.contents m = st₂.contents m := by
  obtain ⟨rank, hrank⟩ := hb.acyclic
  have hall : ∀ n, ∀ m ∈ b.modules, rank m = n → st₁.contents m = st₂.contents m := by
    intro n
    induction n using Nat.strongRecOn with
    | ind n ih =>
      intro m hm hn
      have huses : st₂.uses c m = b.deps m := by rw [hb.deps m hm, uses, uses, h₂]
      have hout : st₁.output c m = st₂.output c m :=
        output_congr (by rw [h₁, h₂]) fun dep hdep => by
          rw [huses] at hdep
          rw [ih (rank dep) (hn ▸ hrank m hm dep hdep) dep (hb.closed m hm hdep) rfl]
      rw [hcur₁ m hm, hcur₂ m hm, hout]
  exact fun m hm => hall (rank m) m hm rfl

/-- **Builds settle.** After as many builds without an edit as there are modules, a build compiles
nothing, and the outputs are those of one forced rebuild. -/
theorem builds_settle (h : Reachable c st) {b : Build} (hb : Scans c st b)
    (hforce : b.force = false) {n : Nat} (hn : b.modules.length ≤ n) :
    (builds c b n st).toCompile b = [] ∧
      ∀ m ∈ b.modules, (builds c b n st).contents m = (st.build c b.forced).contents m := by
  obtain ⟨rank, hrank⟩ := hb.acyclic
  have horder := topoSort_inOrder hb.closed hrank
  have hlen : (topoSort b.deps b.modules).length ≤ n :=
    ((horder.once.subperm (topoSort_subset b.deps b.modules)).length_le).trans hn
  have hsettled : ∀ m ∈ topoSort b.deps b.modules,
      needsCompile b.invocation (builds c b n st).disk m = false := fun m hm =>
    settled_prefix h hb hforce _ n hlen m (by rwa [List.take_length])
  obtain ⟨hr, hs, hsrc⟩ := builds_kept h hb n
  have hforced : Scans c st b.forced := ⟨hb.once, hb.deps, hb.closed, hb.sources, hb.acyclic⟩
  constructor
  · rw [toCompile, List.filter_eq_nil_iff]
    intro m hm
    rw [hsettled m hm]
    decide
  · refine current_unique hb hsrc (by rw [build_eq h.upToDate hforced, foldl_compile_src])
      (fun m hm => ?_) fun m hm => ?_
    -- a module that is left alone looks up to date, and what looks so is current
    · exact hr.upToDate.current m (hs.sources m hm)
        (looksUpToDate_of_skip hs hm (hsettled m (mem_topoSort b.deps hm)))
    · rw [build_eq h.upToDate hforced]
      exact foldl_compile_mem (scans_compilable hforced) m
        ((mem_toCompile (b := b.forced) hm).mpr rfl)

/-- After a second build `app` has the new number of `lib`. -/
theorem builds_settle_appEdited :
    (builds numberCompiler appBuild 2 appEdited).toCompile appBuild = [] ∧
      ∀ m ∈ appBuild.modules, (builds numberCompiler appBuild 2 appEdited).contents m =
        (appEdited.build numberCompiler appBuild.forced).contents m :=
  builds_settle (.write _ _ (.build appSources_reachable appSources_scans))
    (appBuild_scans (by decide) (by decide) (by decide)) rfl (Nat.le_refl 2)

end Nib.Build
